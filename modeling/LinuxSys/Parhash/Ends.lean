import LinuxSys.Parhash.Inv

/-! # Why parhash comes to an end

Every step but a spurious wake-up leaves less to do, and as long as there is no report some thread
has a step to take: a walker that is not at its end, or a worker.
-/

namespace LinuxSys.Parhash

open Lib

/-- The steps that are left to the walker, the wake-ups of its notifications among them. -/
def Walker.work (workers : ℕ) : Walker → ℕ
  | walking => workers + 3
  | handing _ => workers + 11
  | notifying => workers + 5
  | closing => workers + 2
  | closed => workers + 1
  | ended => 0

def Worker.work : Worker → ℕ
  | looking => 3
  | waiting => 2
  | receiving => 1
  | hashing _ => 5
  | sending _ => 4
  | finished => 0

def Watcher.work (workers : ℕ) : Watcher → ℕ
  | flagged => workers + 2
  | stopping => workers + 1
  | _ => 0

/-- A spurious wake-up sends its worker to sleep once more. -/
def Action.cost : Action → ℕ
  | spurious _ => 2
  | _ => 0

/-- What the program does of itself. -/
def Action.own : Action → Bool
  | sigint | spurious _ => false
  | _ => true

theorem Worker.work_wake (x : Worker) : x.wake.work ≤ x.work + 1 := by
  cases x <;> simp [wake, work]

namespace State

variable {lang : Language} {workers : ℕ} {root : Root} {s t : State} {w : ℕ}

def work (workers : ℕ) (s : State) : ℕ :=
  9 * s.todo.length + s.walker.work workers + 5 * s.queue.length +
    ∑ w ∈ Finset.range workers, (s.worker w).work + (if s.interrupted then 0 else workers + 3) +
    s.watcher.work workers + (if s.collected then 0 else 1) + (if s.report = none then 1 else 0)

theorem work_setWorker (s : State) (inside : w < workers) (x : Worker) :
    (s.setWorker w x).work workers + (s.worker w).work = s.work workers + x.work := by
  have sum := sum_update Worker.work s.worker inside x
  dsimp only [work, setWorker]
  omega

theorem work_wakeAll (workers : ℕ) (s : State) :
    s.wakeAll.work workers ≤ s.work workers + workers := by
  have sum : ∑ w ∈ Finset.range workers, (s.worker w).wake.work ≤
      ∑ w ∈ Finset.range workers, ((s.worker w).work + 1) :=
    Finset.sum_le_sum fun w _ => (s.worker w).work_wake
  rw [Finset.sum_add_distrib, Finset.sum_const, Finset.card_range, nsmul_one] at sum
  dsimp only [work, wakeAll]
  push_cast at sum
  omega

theorem work_step {a : Action} (taken : s.step lang workers root a = some t) :
    t.work workers + 1 ≤ s.work workers + a.cost := by
  obtain ⟨running, effect⟩ := effect_of_step taken
  cases effect with
  | quit flag here =>
    rcases here with here | ⟨-, rel, here⟩ <;>
      simp only [work, here, Walker.work, List.length_nil, Action.cost] <;> omega
  | walked flag here all =>
    simp only [work, here, all, Walker.work, List.length_nil, Action.cost]
    omega
  | met flag here next =>
    simp only [work, here, next, Walker.work, List.length_cons, Action.cost]
    omega
  | passed flag here next none =>
    simp only [work, here, next, Walker.work, List.length_cons, Action.cost]
    omega
  | close here =>
    cases lang <;> simp [work, here, Walker.work, Action.cost] <;> omega
  | queued here other =>
    cases lang <;> simp [work, here, Walker.work, Action.cost] <;> omega
  | @given mine w here goes inside waits =>
    have moved := s.work_setWorker inside (.hashing mine)
    rw [waits] at moved
    simp only [work, setWorker, here, Worker.work, Walker.work, Action.cost] at moved ⊢
    omega
  | @notified w here inside waits =>
    have moved := s.work_setWorker inside .looking
    rw [waits] at moved
    simp only [work, setWorker, here, Worker.work, Walker.work, Action.cost] at moved ⊢
    omega
  | unheard here =>
    simp only [work, here, Walker.work, Action.cost]
    omega
  | notifiedAll here =>
    have woken := s.work_wakeAll workers
    simp only [work, wakeAll, here, Walker.work, Action.cost] at woken ⊢
    omega
  | @stops w a inside here because =>
    have moved := s.work_setWorker inside .finished
    rcases here with here | here <;> rw [here] at moved <;> simp only [Worker.work] at moved <;>
      omega
  | @waits w inside here awake =>
    have moved := s.work_setWorker inside .waiting
    rw [here] at moved
    simp only [Worker.work, Action.cost] at moved ⊢
    omega
  | @popped w mine rest inside here next =>
    have moved := s.work_setWorker inside (.hashing mine)
    rw [here] at moved
    simp only [work, setWorker, next, Worker.work, List.length_cons, Action.cost] at moved ⊢
    omega
  | @locks w inside here rust free =>
    have moved := s.work_setWorker inside .receiving
    rw [here] at moved
    simp only [work, setWorker, Worker.work, Action.cost] at moved ⊢
    omega
  | @received w mine rest inside here next =>
    have moved := s.work_setWorker inside (.hashing mine)
    rw [here] at moved
    simp only [work, setWorker, next, Worker.work, List.length_cons, Action.cost] at moved ⊢
    omega
  | @drained w inside here empty shut =>
    have moved := s.work_setWorker inside .finished
    rw [here] at moved
    simp only [work, setWorker, Worker.work, Action.cost] at moved ⊢
    omega
  | @skipped w mine reads inside here unreadable =>
    have moved := s.work_setWorker inside .looking
    rw [here] at moved
    simp only [Worker.work, Action.cost] at moved ⊢
    omega
  | @computed w mine content reads inside here readable read =>
    have moved := s.work_setWorker inside (.sending ⟨mine, hashFile reads⟩)
    rw [here] at moved
    simp only [Worker.work, Action.cost] at moved ⊢
    omega
  | @hashed w mine content reads inside here readable read =>
    have moved := s.work_setWorker inside .looking
    rw [here] at moved
    simp only [work, setWorker, Worker.work, Action.cost] at moved ⊢
    omega
  | @sent w line inside here =>
    have moved := s.work_setWorker inside .looking
    rw [here] at moved
    simp only [work, setWorker, Worker.work, Action.cost] at moved ⊢
    omega
  | sigint flag here =>
    cases lang <;> simp [work, flag, here, Watcher.work, Action.cost] <;> omega
  | requested here =>
    simp only [work, here, Watcher.work, Action.cost]
    omega
  | wokeAll here =>
    have woken := s.work_wakeAll workers
    simp only [work, wakeAll, here, Watcher.work, Action.cost] at woken ⊢
    omega
  | collected first joined =>
    obtain ⟨-, -, flagged, stopping⟩ := joined
    have none : s.watcher.work workers = 0 := by
      cases here : s.watcher <;> first | rfl | exact absurd here ‹_›
    simp only [work, first, Action.cost]
    cases lang <;> simp [Watcher.work] <;> omega
  | checked all =>
    simp [work, running, Action.cost]
  | @spurious w cpp inside here =>
    have moved := s.work_setWorker inside .looking
    rw [here] at moved
    simp only [Worker.work, Action.cost] at moved ⊢
    omega

/-- Some thread can go on. -/
def Live (lang : Language) (workers : ℕ) (root : Root) (s : State) : Prop :=
  ∃ a, a.own = true ∧ (s.step lang workers root a).isSome

theorem reads_singletons (content : Bytes) : Reads content (content.map fun b => [b]) := by
  refine ⟨?_, fun buf member => ?_⟩
  · induction content with
    | nil => rfl
    | cons b rest ih => rw [List.map_cons, List.flatten_cons, ih, List.singleton_append]
  · obtain ⟨b, -, rfl⟩ := List.mem_map.mp member
    exact ⟨nofun, show 1 ≤ kBuf by decide⟩

/-- A worker that does not wait goes on. -/
theorem live_of_worker (running : s.report = none) (inside : w < workers)
    (finished : s.worker w ≠ .finished) (waiting : s.worker w ≠ .waiting)
    (receiving : s.worker w ≠ .receiving) : s.Live lang workers root := by
  cases here : s.worker w with
  | looking =>
    refine ⟨.look w, rfl, ?_⟩
    rw [step, if_pos running]
    simp only [here, inside, and_self, if_true, Option.isSome_some]
  | hashing rel =>
    cases readable : root.content rel with
    | none =>
      refine ⟨.hash w [], rfl, ?_⟩
      rw [step, if_pos running]
      simp only [inside, if_true, hash, here, readable, Option.isSome_some]
    | some content =>
      refine ⟨.hash w (content.map fun b => [b]), rfl, ?_⟩
      rw [step, if_pos running]
      simp only [inside, if_true, hash, here, readable, reads_singletons content]
      split <;> rfl
  | sending line =>
    refine ⟨.send w, rfl, ?_⟩
    rw [step, if_pos running]
    simp only [inside, if_true, here, Option.isSome_some]
  | waiting => exact absurd here waiting
  | receiving => exact absurd here receiving
  | finished => exact absurd here finished

/-- In Rust the holder of the mutex goes on when the channel is closed. -/
theorem live_of_receiving (running : s.report = none) (inside : w < workers)
    (here : s.worker w = .receiving) (rust : lang = .rust) (shut : s.shut = true) :
    s.Live lang workers root := by
  subst rust
  refine ⟨.receive w, rfl, ?_⟩
  rw [step, if_pos running]
  simp only [inside, if_true, receive, here]
  split
  · rfl
  · simp only [shut, if_true, Option.isSome_some]

/-- When the walk is over, a worker that has not returned goes on. -/
theorem live_of_ended (sync : s.Sync lang workers) (running : s.report = none)
    (over' : s.walker = .ended) (inside : w < workers) (finished : s.worker w ≠ .finished) :
    s.Live lang workers root := by
  have shut : s.shut = true := by
    rw [State.shut, over']
    rfl
  cases here : s.worker w with
  | receiving =>
    exact live_of_receiving running inside here (sync.rust w inside here) shut
  | waiting =>
    cases lang with
    | cpp => exact absurd here (sync.awake rfl over' w inside)
    | rust =>
      cases holder : s.holder with
      | none =>
        refine ⟨.receive w, rfl, ?_⟩
        rw [step, if_pos running]
        simp only [inside, if_true, receive, here, holder, Option.isSome_some]
      | some v =>
        obtain ⟨among, receives⟩ := (sync.owned v).mpr holder
        exact live_of_receiving running among receives rfl shut
    | go =>
      refine ⟨.receive w, rfl, ?_⟩
      rw [step, if_pos running]
      simp only [inside, if_true, receive, here, shut, or_true, Option.isSome_some]
  | finished => exact absurd here finished
  | _ =>
    refine live_of_worker running inside finished ?_ ?_ <;> rw [here] <;> rintro ⟨⟩

/-- When all workers have returned and the walk is over, the main thread goes on. -/
theorem live_of_finished (running : s.report = none) (over' : s.walker = .ended)
    (all : ∀ w < workers, s.worker w = .finished) : s.Live lang workers root := by
  by_cases joined : s.Joined lang workers
  · cases first : s.collected with
    | false =>
      refine ⟨.collect, rfl, ?_⟩
      rw [step, if_pos running]
      simp only [first, joined, and_self, if_true, Option.isSome_some]
    | true =>
      refine ⟨.check, rfl, ?_⟩
      rw [step, if_pos running]
      simp only [first, if_true, Option.isSome_some]
  · refine ⟨.watch, rfl, ?_⟩
    rw [step, if_pos running]
    cases here : s.watcher with
    | flagged => rfl
    | stopping => rfl
    | _ =>
      refine absurd ⟨all, fun _ => over', ?_, ?_⟩ joined <;> rw [here] <;> exact nofun

/-- As long as there is no report, some thread can go on. -/
theorem live_of_sync (sync : s.Sync lang workers) (some' : 0 < workers)
    (running : s.report = none) : s.Live lang workers root := by
  cases here : s.walker with
  | walking =>
    refine ⟨.walk, rfl, ?_⟩
    rw [step, if_pos running]
    simp only [walk, here]
    split
    · rfl
    · split <;> rfl
  | handing rel =>
    by_cases goes : lang = .go
    · subst goes
      by_cases flag : s.interrupted = true
      · refine ⟨.walk, rfl, ?_⟩
        rw [step, if_pos running]
        simp only [walk, here, flag, and_self, if_true, Option.isSome_some]
      · cases first : s.worker 0 with
        | waiting =>
          refine ⟨.hand 0, rfl, ?_⟩
          rw [step, if_pos running]
          simp only [hand, here, some', first, and_self, if_true, Option.isSome_some]
        | receiving => cases sync.rust 0 some' first
        | finished =>
          rcases sync.finished 0 some' first with set | ⟨shut, -⟩
          · exact absurd set flag
          · rw [State.shut, here] at shut
            cases shut
        | _ => refine live_of_worker running some' ?_ ?_ ?_ <;> rw [first] <;> rintro ⟨⟩
    · refine ⟨.hand 0, rfl, ?_⟩
      rw [step, if_pos running]
      cases lang with
      | go => exact absurd rfl goes
      | _ => simp only [hand, here, Option.isSome_some]
  | notifying =>
    by_cases sleeper : ∃ w < workers, s.worker w = .waiting
    · obtain ⟨w, inside, waits⟩ := sleeper
      refine ⟨.notify w, rfl, ?_⟩
      rw [step, if_pos running]
      simp only [notify, here, inside, waits, and_self, if_true, Option.isSome_some]
    · have none : ∀ w < workers, s.worker w ≠ .waiting := fun w inside waits =>
        sleeper ⟨w, inside, waits⟩
      refine ⟨.notify 0, rfl, ?_⟩
      rw [step, if_pos running]
      simp only [notify, here]
      split
      · rfl
      · rfl
  | closing =>
    refine ⟨.walk, rfl, ?_⟩
    rw [step, if_pos running]
    simp only [walk, here, Option.isSome_some]
  | closed =>
    refine ⟨.notify 0, rfl, ?_⟩
    rw [step, if_pos running]
    simp only [notify, here, Option.isSome_some]
  | ended =>
    by_cases all : ∀ w < workers, s.worker w = .finished
    · exact live_of_finished running here all
    · push Not at all
      obtain ⟨w, inside, busy⟩ := all
      exact live_of_ended sync running here inside busy

end State

end LinuxSys.Parhash
