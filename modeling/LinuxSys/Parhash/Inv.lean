import LinuxSys.Lib.Progress
import LinuxSys.Parhash.Steps

/-! # What every step of the pool keeps

A worker returns only when the run is interrupted, or when the walk is over and nothing is queued;
the mutex has the holder it should; and each file that can be read is in one place: ahead of the
walker, in its hand, in the queue, with a worker, or among the results.
-/

namespace LinuxSys.Parhash

open Lib

/-- The walk is over. -/
def Walker.past : Walker → Bool
  | closing | closed | ended => true
  | _ => false

/-- The line of a file that can be read. -/
def Root.lineOf (root : Root) (rel : Bytes) : Option Line :=
  (root.content rel).map fun content => ⟨rel, fnv1a content⟩

theorem hashFile_eq {content : Bytes} {reads : List Bytes} (read : Reads content reads) :
    hashFile reads = fnv1a content := by
  rw [hashFile, fnv1a, ← read.1, List.foldl_flatten]

/-- How many times a worker has the file in hand. -/
def Worker.held (rel : Bytes) : Worker → ℕ
  | hashing mine => if mine = rel then 1 else 0
  | sending line => if line.rel = rel then 1 else 0
  | _ => 0

def Walker.held (rel : Bytes) : Walker → ℕ
  | handing mine => if mine = rel then 1 else 0
  | _ => 0

theorem Worker.held_wake (rel : Bytes) (x : Worker) : x.wake.held rel = x.held rel := by
  cases x <;> rfl

namespace State

variable {lang : Language} {workers : ℕ} {root : Root} {s t : State} {w : ℕ}

structure Sync (lang : Language) (workers : ℕ) (s : State) : Prop where
  past : s.walker.past = true → s.todo = []
  finished : ∀ w < workers, s.worker w = .finished →
    s.interrupted = true ∨ s.shut = true ∧ s.queue = []
  awake : lang = .cpp → s.walker = .ended → ∀ w < workers, s.worker w ≠ .waiting
  owned : ∀ w, w < workers ∧ s.worker w = .receiving ↔ s.holder = some w
  rust : ∀ w < workers, s.worker w = .receiving → lang = .rust
  go : lang = .go → s.queue = []
  flagged : s.watcher = .flagged ∨ s.watcher = .stopping → s.interrupted = true
  collected : s.collected = true → ∀ w < workers, s.worker w = .finished
  report : ∀ r, s.report = some r → s.collected = true ∧ r = s.finalCheck

theorem shut_of_not_past (before : s.walker.past = false) : s.shut = false := by
  cases here : s.walker <;> simp_all [Walker.past, shut]

namespace Sync

/-- A worker moves that neither had the mutex nor takes it. -/
theorem setWorker (sync : s.Sync lang workers) (running : s.report = none) (inside : w < workers)
    {x : Worker} (before : s.worker w ≠ .finished ∧ s.worker w ≠ .receiving)
    (after : x ≠ .receiving)
    (finished : x = .finished → s.interrupted = true ∨ s.shut = true ∧ s.queue = [])
    (awake : x = .waiting → lang = .cpp → s.walker ≠ .ended) :
    (s.setWorker w x).Sync lang workers := by
  refine { sync with finished := ?_, awake := ?_, owned := ?_, rust := ?_, collected := ?_,
                     report := ?_ }
  · intro v here ended
    rcases eq_or_ne v w with rfl | apart
    · exact finished ((Function.update_self ..).symm.trans ended)
    · exact sync.finished v here ((Function.update_of_ne apart ..).symm.trans ended)
  · intro cpp ended v here waits
    rcases eq_or_ne v w with rfl | apart
    · exact awake ((Function.update_self ..).symm.trans waits) cpp ended
    · exact sync.awake cpp ended v here ((Function.update_of_ne apart ..).symm.trans waits)
  · intro v
    change v < workers ∧ Function.update s.worker w x v = .receiving ↔ s.holder = some v
    rw [← sync.owned v]
    rcases eq_or_ne v w with rfl | apart
    · rw [Function.update_self]
      exact iff_of_false (fun both => after both.2) fun both => before.2 both.2
    · rw [Function.update_of_ne apart]
  · intro v here receives
    rcases eq_or_ne v w with rfl | apart
    · exact absurd ((Function.update_self ..).symm.trans receives) after
    · exact sync.rust v here ((Function.update_of_ne apart ..).symm.trans receives)
  · exact fun all => absurd (sync.collected all w inside) before.1
  · intro r reported
    rw [show s.report = some r from reported] at running
    cases running

/-- The sleepers are woken. -/
theorem wakeAll (sync : s.Sync lang workers) : s.wakeAll.Sync lang workers := by
  have same : ∀ v, ∀ x ≠ Worker.looking, (s.worker v).wake = x → s.worker v = x := by
    intro v x other woken
    cases here : s.worker v <;> rw [here] at woken <;>
      first | exact woken | exact absurd woken.symm other
  refine { sync with finished := ?_, awake := ?_, owned := ?_, rust := ?_, collected := ?_ }
  · exact fun v here ended => sync.finished v here (same v _ nofun ended)
  · intro _ _ v _ waits
    cases here : s.worker v <;> simp [State.wakeAll, Worker.wake, here] at waits
  · intro v
    refine Iff.trans (and_congr_right fun _ => ?_) (sync.owned v)
    refine ⟨same v _ nofun, fun receives => ?_⟩
    change (s.worker v).wake = _
    rw [receives]
    rfl
  · exact fun v here receives => sync.rust v here (same v _ nofun receives)
  · intro all v here
    change (s.worker v).wake = _
    rw [sync.collected all v here]
    rfl

/-- The walker moves on, before the end of its walk. -/
theorem walks (sync : s.Sync lang workers) (running : s.report = none)
    (before : s.walker.past = false) {walker : Walker} {todo : List Visit}
    (past : walker.past = true → todo = []) (after : walker = .closing ∨ walker.past = false) :
    ({ s with walker, todo } : State).Sync lang workers := by
  have open' : ({ s with walker, todo } : State).shut = false := by
    rcases after with rfl | walks
    · rfl
    · exact shut_of_not_past walks
  refine { sync with past := past, finished := ?_, awake := ?_, report := ?_ }
  · intro v here ended
    rcases sync.finished v here ended with flag | ⟨shut, -⟩
    · exact .inl flag
    · rw [shut_of_not_past before] at shut
      cases shut
  · intro _ ended
    rcases after with closing | walks
    · rw [show walker = _ from ended] at closing
      cases closing
    · rw [show walker = _ from ended] at walks
      cases walks
  · intro r reported
    rw [show s.report = some r from reported] at running
    cases running

/-- The mutex is taken. -/
theorem locks (sync : s.Sync lang workers) (running : s.report = none) (inside : w < workers)
    (here : s.worker w = .waiting) (rust : lang = .rust) (free : s.holder = none) :
    ({ s.setWorker w .receiving with holder := some w } : State).Sync lang workers := by
  refine { sync with finished := ?_, awake := ?_, owned := ?_, rust := fun _ _ _ => rust
                     collected := ?_, report := ?_ }
  · intro v inside' ended
    rcases eq_or_ne v w with rfl | apart
    · cases (Function.update_self ..).symm.trans ended
    · exact sync.finished v inside' ((Function.update_of_ne apart ..).symm.trans ended)
  · intro cpp
    rw [rust] at cpp
    cases cpp
  · intro v
    change v < workers ∧ Function.update s.worker w _ v = _ ↔ some w = some v
    rcases eq_or_ne v w with rfl | apart
    · rw [Function.update_self]
      exact iff_of_true ⟨inside, rfl⟩ rfl
    · rw [Function.update_of_ne apart, sync.owned v, free]
      exact iff_of_false nofun fun same => apart (Option.some.inj same).symm
  · intro all
    rw [sync.collected all w inside] at here
    cases here
  · intro r reported
    rw [show s.report = some r from reported] at running
    cases running

/-- The mutex is released, by a worker that has received a file or found the channel closed. -/
theorem unlocks (sync : s.Sync lang workers) (running : s.report = none) (inside : w < workers)
    (here : s.worker w = .receiving) {x : Worker} {queue : List Bytes} (after : x ≠ .receiving)
    (less : s.queue = [] → queue = [])
    (finished : x = .finished → s.interrupted = true ∨ s.shut = true ∧ queue = []) :
    ({ s.setWorker w x with queue, holder := none } : State).Sync lang workers := by
  refine { sync with finished := ?_, awake := ?_, owned := ?_, rust := ?_
                     go := fun goes => less (sync.go goes), collected := ?_, report := ?_ }
  · intro v inside' ended
    rcases eq_or_ne v w with rfl | apart
    · exact finished ((Function.update_self ..).symm.trans ended)
    · rcases sync.finished v inside' ((Function.update_of_ne apart ..).symm.trans ended) with
        flag | ⟨shut, empty⟩
      · exact .inl flag
      · exact .inr ⟨shut, less empty⟩
  · intro cpp
    rw [sync.rust w inside here] at cpp
    cases cpp
  · intro v
    change v < workers ∧ Function.update s.worker w x v = _ ↔ none = some v
    rcases eq_or_ne v w with rfl | apart
    · rw [Function.update_self]
      exact iff_of_false (fun both => after both.2) nofun
    · rw [Function.update_of_ne apart, sync.owned v, (sync.owned w).mp ⟨inside, here⟩]
      exact iff_of_false (fun same => apart (Option.some.inj same).symm) nofun
  · intro v inside' _
    exact sync.rust w inside here
  · intro all
    rw [sync.collected all w inside] at here
    cases here
  · intro r reported
    rw [show s.report = some r from reported] at running
    cases running

/-- A worker has handed in a result. -/
theorem result (sync : s.Sync lang workers) (running : s.report = none) (inside : w < workers)
    (before : s.worker w ≠ .finished ∧ s.worker w ≠ .receiving) (line : Line) :
    ({ s.setWorker w .looking with results := s.results ++ [line] } : State).Sync lang workers := by
  have grown : ({ s with results := s.results ++ [line] } : State).Sync lang workers := by
    refine { sync with report := fun r reported => ?_ }
    rw [show s.report = some r from reported] at running
    cases running
  exact grown.setWorker running inside before nofun nofun nofun

theorem interrupted_of_stopped (sync : s.Sync lang workers) (stopped : s.stopped = true) :
    s.interrupted = true := by
  rw [State.stopped, Bool.or_eq_true, Bool.and_eq_true, decide_eq_true_eq] at stopped
  rcases stopped with stopping | ⟨-, flag⟩
  · exact sync.flagged (.inr stopping)
  · exact flag

theorem keeps {a : Action} (sync : s.Sync lang workers)
    (taken : s.step lang workers root a = some t) : t.Sync lang workers := by
  obtain ⟨running, effect⟩ := effect_of_step taken
  cases effect with
  | quit flag here =>
    refine sync.walks running ?_ (fun _ => rfl) (.inl rfl)
    rcases here with walking | ⟨-, rel, handing⟩
    · rw [walking]
      rfl
    · rw [handing]
      rfl
  | walked flag here all =>
    refine sync.walks running ?_ (fun _ => rfl) (.inl rfl)
    rw [here]
    rfl
  | met flag here next =>
    refine sync.walks running ?_ nofun (.inr rfl)
    rw [here]
    rfl
  | passed flag here next =>
    refine sync.walks running ?_ nofun (.inr rfl)
    rw [here]
    rfl
  | close here =>
    have empty := sync.past (by rw [here]; rfl)
    refine { sync with past := fun _ => empty, finished := ?_, awake := ?_ }
    · intro v inside ended
      rcases sync.finished v inside ended with flag | ⟨shut, -⟩
      · exact .inl flag
      · rw [State.shut, here] at shut
        cases shut
    · intro cpp ended
      subst cpp
      cases ended
  | queued here other =>
    refine { sync with past := ?_, finished := ?_, awake := ?_, go := ?_ }
    · intro past
      cases lang <;> cases past
    · intro v inside ended
      rcases sync.finished v inside ended with flag | ⟨shut, -⟩
      · exact .inl flag
      · rw [State.shut, here] at shut
        cases shut
    · intro cpp ended
      subst cpp
      cases ended
    · exact fun goes => absurd goes other
  | given here goes inside waits =>
    have moved : ({ s with walker := .walking } : State).Sync lang workers :=
      sync.walks running (by rw [here]; rfl) nofun (.inr rfl)
    refine moved.setWorker running inside ?_ nofun nofun nofun
    rw [waits]
    exact ⟨nofun, nofun⟩
  | notified here inside waits =>
    have moved : ({ s with walker := .walking } : State).Sync lang workers :=
      sync.walks running (by rw [here]; rfl) nofun (.inr rfl)
    refine moved.setWorker running inside ?_ nofun nofun nofun
    rw [waits]
    exact ⟨nofun, nofun⟩
  | unheard here =>
    refine sync.walks running ?_ nofun (.inr rfl)
    rw [here]
    rfl
  | notifiedAll here =>
    have woken := sync.wakeAll
    have empty := sync.past (by rw [here]; rfl)
    refine { woken with past := fun _ => empty, finished := ?_, awake := ?_ }
    · intro v inside ended
      rcases woken.finished v inside ended with flag | ⟨-, empty⟩
      · exact .inl flag
      · exact .inr ⟨rfl, empty⟩
    · intro _ _ v _ waits
      cases at' : s.worker v <;> simp [State.wakeAll, Worker.wake, at'] at waits
  | stops inside here because =>
    refine sync.setWorker running inside ?_ nofun (fun _ => ?_) nofun
    · rcases here with here | here <;> rw [here] <;> exact ⟨nofun, nofun⟩
    · rcases because with stopped | flag | ⟨shut, goes | empty⟩
      · exact .inl (sync.interrupted_of_stopped stopped)
      · exact .inl flag
      · exact .inr ⟨shut, sync.go goes⟩
      · exact .inr ⟨shut, empty⟩
  | waits inside here awake =>
    refine sync.setWorker running inside (by rw [here]; exact ⟨nofun, nofun⟩) nofun nofun ?_
    intro _ cpp ended
    have open' := awake cpp
    rw [State.shut, ended] at open'
    cases open'
  | @popped w rel rest inside here next =>
    have taken : ({ s with queue := rest } : State).Sync lang workers := by
      refine { sync with finished := ?_, go := ?_, report := ?_ }
      · intro v inside' ended
        rcases sync.finished v inside' ended with flag | ⟨-, empty⟩
        · exact .inl flag
        · rw [next] at empty
          cases empty
      · intro goes
        rw [sync.go goes] at next
        cases next
      · exact sync.report
    exact taken.setWorker running inside (by rw [here]; exact ⟨nofun, nofun⟩) nofun nofun nofun
  | locks inside here rust free => exact sync.locks running inside here rust free
  | received inside here next =>
    refine sync.unlocks running inside here nofun (fun empty => ?_) nofun
    rw [next] at empty
    cases empty
  | drained inside here empty shut =>
    exact sync.unlocks running inside here nofun id fun _ => .inr ⟨shut, empty⟩
  | skipped inside here unreadable =>
    exact sync.setWorker running inside (by rw [here]; exact ⟨nofun, nofun⟩) nofun nofun nofun
  | computed inside here readable read =>
    exact sync.setWorker running inside (by rw [here]; exact ⟨nofun, nofun⟩) nofun nofun nofun
  | hashed inside here readable read =>
    exact sync.result running inside (by rw [here]; exact ⟨nofun, nofun⟩) _
  | sent inside here =>
    exact sync.result running inside (by rw [here]; exact ⟨nofun, nofun⟩) _
  | sigint flag here =>
    refine { sync with finished := fun _ _ _ => .inl rfl, flagged := fun _ => rfl, report := ?_ }
    intro r reported
    rw [show s.report = some r from reported] at running
    cases running
  | requested here =>
    exact { sync with flagged := fun _ => sync.flagged (.inl here) }
  | wokeAll here =>
    exact { sync.wakeAll with flagged := nofun }
  | collected first joined =>
    refine { sync with flagged := ?_, collected := fun _ => joined.1, report := ?_ }
    · intro flagged
      cases lang with
      | cpp => rcases flagged with flagged | flagged <;> cases flagged
      | _ => exact sync.flagged flagged
    · intro r reported
      rw [show s.report = some r from reported] at running
      cases running
  | checked all =>
    refine { sync with report := fun r reported => ⟨all, ?_⟩ }
    exact (Option.some.inj reported).symm
  | spurious cpp inside here =>
    exact sync.setWorker running inside (by rw [here]; exact ⟨nofun, nofun⟩) nofun nofun nofun

end Sync

/-! Where the files are. -/

/-- How many of them are somewhere. -/
def total (workers : ℕ) (s : State) (rel : Bytes) : ℕ :=
  (s.results.map Line.rel).count rel + ∑ w ∈ Finset.range workers, (s.worker w).held rel +
    s.queue.count rel + s.walker.held rel + (filesOf s.todo).count rel

structure Data (lang : Language) (workers : ℕ) (root : Root) (s : State) : Prop where
  counted : ∀ rel, root.content rel ≠ none →
    s.total workers rel ≤ (filesOf (root.walk lang)).count rel ∧
      (s.interrupted = false → s.total workers rel = (filesOf (root.walk lang)).count rel)
  lines : ∀ line ∈ s.results, root.lineOf line.rel = some line
  sending : ∀ w line, s.worker w = .sending line → root.lineOf line.rel = some line

namespace Data

/-- A step that loses no file that can be read, unless the run is interrupted. -/
theorem of (data : s.Data lang workers root)
    (total : ∀ rel, root.content rel ≠ none → t.total workers rel ≤ s.total workers rel ∧
      (t.interrupted = false →
        s.interrupted = false ∧ s.total workers rel ≤ t.total workers rel))
    (lines : ∀ line ∈ t.results, line ∉ s.results → root.lineOf line.rel = some line)
    (sending : ∀ w line, t.worker w = .sending line → s.worker w ≠ .sending line →
      root.lineOf line.rel = some line) : t.Data lang workers root := by
  refine ⟨fun rel readable => ?_, fun line member => ?_, fun w line here => ?_⟩
  · obtain ⟨most, all⟩ := data.counted rel readable
    obtain ⟨less, same⟩ := total rel readable
    refine ⟨less.trans most, fun flag => ?_⟩
    obtain ⟨before, more⟩ := same flag
    rw [le_antisymm less more, all before]
  · by_cases before : line ∈ s.results
    · exact data.lines line before
    · exact lines line member before
  · by_cases before : s.worker w = .sending line
    · exact data.sending w line before
    · exact sending w line here before

/-- A step that moves files from one place to another. -/
theorem moves (data : s.Data lang workers root)
    (total : ∀ rel, root.content rel ≠ none → t.total workers rel = s.total workers rel)
    (flag : t.interrupted = s.interrupted)
    (lines : ∀ line ∈ t.results, line ∉ s.results → root.lineOf line.rel = some line)
    (sending : ∀ w line, t.worker w = .sending line → s.worker w = .sending line) :
    t.Data lang workers root := by
  refine data.of (fun rel readable => ?_) lines fun w line now before => ?_
  · have same := total rel readable
    exact ⟨same.le, fun clear => ⟨flag ▸ clear, same.ge⟩⟩
  · exact absurd (sending w line now) before

end Data

theorem total_setWorker (s : State) (inside : w < workers) (x : Worker) (rel : Bytes) :
    (s.setWorker w x).total workers rel + (s.worker w).held rel =
      s.total workers rel + x.held rel := by
  have sum := sum_update (Worker.held rel) s.worker inside x
  simp only [total, setWorker]
  omega

theorem total_wakeAll (s : State) (rel : Bytes) :
    s.wakeAll.total workers rel = s.total workers rel := by
  simp only [total, wakeAll, Worker.held_wake]

theorem sending_setWorker (x : Worker) (other : ∀ line, x ≠ .sending line) {v : ℕ}
    {line : Line} (here : Function.update s.worker w x v = .sending line) :
    s.worker v = .sending line := by
  rcases eq_or_ne v w with rfl | apart
  · rw [Function.update_self] at here
    exact absurd here (other line)
  · rwa [Function.update_of_ne apart] at here

/-- A worker whose file is read has its line. -/
theorem lineOf_of_reads {rel content : Bytes} {reads : List Bytes}
    (readable : root.content rel = some content) (read : Reads content reads) :
    root.lineOf rel = some ⟨rel, hashFile reads⟩ := by
  rw [Root.lineOf, readable, hashFile_eq read]
  rfl

namespace Data

/-- A worker moves. -/
theorem setWorker (data : s.Data lang workers root) (inside : w < workers) {x : Worker}
    (held : ∀ rel, root.content rel ≠ none → x.held rel = (s.worker w).held rel)
    (sending : ∀ line, x = .sending line → root.lineOf line.rel = some line) :
    (s.setWorker w x).Data lang workers root := by
  refine data.of (fun rel readable => ?_) (fun _ now before => absurd now before) ?_
  · have moved := s.total_setWorker inside x rel
    have same := held rel readable
    exact ⟨by omega, fun clear => ⟨clear, by omega⟩⟩
  · intro v line now before
    rcases eq_or_ne v w with rfl | apart
    · exact sending line ((Function.update_self ..).symm.trans now)
    · exact absurd ((Function.update_of_ne apart ..).symm.trans now) before

theorem wakeAll (data : s.Data lang workers root) : s.wakeAll.Data lang workers root := by
  refine data.moves (fun rel _ => s.total_wakeAll rel) rfl
    (fun _ now before => absurd now before) fun v line now => ?_
  change (s.worker v).wake = _ at now
  cases here : s.worker v <;> rw [here] at now <;> first | exact now | cases now

/-- A worker hands its result in. -/
theorem result (data : s.Data lang workers root) (inside : w < workers) {line : Line}
    (held : ∀ rel, (s.worker w).held rel = if line.rel = rel then 1 else 0)
    (right : root.lineOf line.rel = some line) :
    ({ s.setWorker w .looking with results := s.results ++ [line] } : State).Data
      lang workers root := by
  refine data.moves (fun rel _ => ?_) rfl ?_ fun v other => sending_setWorker .looking nofun
  · have moved := s.total_setWorker inside .looking rel
    rw [held rel] at moved
    simp only [total, State.setWorker, Worker.held, List.map_append, List.count_append,
      List.map_singleton, List.count_singleton, beq_iff_eq] at moved ⊢
    omega
  · intro other member before
    rcases List.mem_append.mp member with old | new
    · exact absurd old before
    · rw [List.mem_singleton.mp new]
      exact right

theorem keeps {a : Action} (data : s.Data lang workers root)
    (taken : s.step lang workers root a = some t) : t.Data lang workers root := by
  obtain ⟨running, effect⟩ := effect_of_step taken
  cases effect with
  | quit flag here =>
    refine data.of (fun rel readable => ⟨?_, fun clear => ?_⟩)
      (fun _ now before => absurd now before) fun _ _ now before => absurd now before
    · simp only [total, Walker.held, filesOf, List.filterMap_nil, List.count_nil]
      omega
    · rw [show s.interrupted = false from clear] at flag
      cases flag
  | walked flag here all =>
    refine data.moves (fun rel _ => ?_) rfl (fun _ now before => absurd now before) fun _ _ => id
    simp only [total, here, all, Walker.held]
  | met flag here next =>
    refine data.moves (fun rel _ => ?_) rfl (fun _ now before => absurd now before) fun _ _ => id
    simp only [total, here, next, Walker.held, filesOf, List.filterMap_cons, Visit.file?,
      List.count_cons, beq_iff_eq]
    omega
  | passed flag here next none =>
    refine data.moves (fun rel _ => ?_) rfl (fun _ now before => absurd now before) fun _ _ => id
    simp only [total, here, next, filesOf, List.filterMap_cons, none]
  | close here =>
    refine data.moves (fun rel _ => ?_) rfl (fun _ now before => absurd now before) fun _ _ => id
    cases lang <;> simp only [total, here] <;> rfl
  | queued here other =>
    refine data.moves (fun rel _ => ?_) rfl (fun _ now before => absurd now before) fun _ _ => id
    cases lang <;> simp [total, here, Walker.held, List.count_append, List.count_singleton] <;>
      omega
  | @given mine w here goes inside waits =>
    refine data.moves (fun rel _ => ?_) rfl (fun _ now before => absurd now before) fun v line =>
      sending_setWorker (.hashing mine) nofun
    have moved := s.total_setWorker inside (.hashing mine) rel
    rw [waits] at moved
    simp only [total, State.setWorker, here, Worker.held, Walker.held] at moved ⊢
    omega
  | @notified w here inside waits =>
    refine data.moves (fun rel _ => ?_) rfl (fun _ now before => absurd now before) fun v line =>
      sending_setWorker .looking nofun
    have moved := s.total_setWorker inside .looking rel
    rw [waits] at moved
    simp only [total, State.setWorker, here, Worker.held, Walker.held] at moved ⊢
    omega
  | unheard here =>
    refine data.moves (fun rel _ => ?_) rfl (fun _ now before => absurd now before) fun _ _ => id
    simp only [total, here, Walker.held]
  | notifiedAll here =>
    refine data.wakeAll.moves (fun rel _ => ?_) rfl (fun _ now before => absurd now before)
      fun _ _ => id
    simp only [total, State.wakeAll, here, Walker.held]
  | stops inside here because =>
    refine data.setWorker inside (fun rel _ => ?_) nofun
    rcases here with here | here <;> rw [here] <;> rfl
  | waits inside here awake =>
    exact data.setWorker inside (fun rel _ => by rw [here]; rfl) nofun
  | @popped w mine rest inside here next =>
    refine data.moves (fun rel _ => ?_) rfl (fun _ now before => absurd now before) fun v line =>
      sending_setWorker (.hashing mine) nofun
    have moved := s.total_setWorker inside (.hashing mine) rel
    rw [here] at moved
    simp only [total, State.setWorker, next, Worker.held, List.count_cons, beq_iff_eq] at moved ⊢
    omega
  | locks inside here rust free =>
    have moved : (s.setWorker _ .receiving).Data lang workers root :=
      data.setWorker inside (fun rel _ => by rw [here]; rfl) nofun
    exact { moved with }
  | @received w mine rest inside here next =>
    refine data.moves (fun rel _ => ?_) rfl (fun _ now before => absurd now before) fun v line =>
      sending_setWorker (.hashing mine) nofun
    have moved := s.total_setWorker inside (.hashing mine) rel
    rw [here] at moved
    simp only [total, State.setWorker, next, Worker.held, List.count_cons, beq_iff_eq] at moved ⊢
    omega
  | drained inside here empty shut =>
    have moved : (s.setWorker _ .finished).Data lang workers root :=
      data.setWorker inside (fun rel _ => by rw [here]; rfl) nofun
    exact { moved with }
  | skipped inside here unreadable =>
    refine data.setWorker inside (fun rel readable => ?_) nofun
    rw [here]
    refine (if_neg ?_).symm
    rintro rfl
    exact readable unreadable
  | computed inside here readable read =>
    refine data.setWorker inside (fun rel _ => by rw [here]; rfl) fun line same => ?_
    cases same
    exact lineOf_of_reads readable read
  | hashed inside here readable read =>
    exact data.result inside (fun rel => by rw [here]; rfl) (lineOf_of_reads readable read)
  | sent inside here =>
    exact data.result inside (fun rel => by rw [here]; rfl) (data.sending _ _ here)
  | sigint flag here =>
    exact data.of (fun rel _ => ⟨le_rfl, nofun⟩) (fun _ now before => absurd now before)
      fun _ _ now before => absurd now before
  | requested here => exact { data with }
  | wokeAll here => exact { data.wakeAll with }
  | collected first joined => exact { data with }
  | checked all => exact { data with }
  | spurious cpp inside here =>
    exact data.setWorker inside (fun rel _ => by rw [here]; rfl) nofun

end Data

end State

end LinuxSys.Parhash
