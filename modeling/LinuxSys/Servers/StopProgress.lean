import LinuxSys.Servers.StopPath

/-! # The threaded servers exit after SIGINT

Whatever the clients have done, some step of the server's own threads is enabled while the stop path
is clear, and each such step leaves less work: the main thread moves on, or a worker that holds a
lock gives it back, or the worker that is joined gets closer to its end.
-/

namespace LinuxSys.Servers.Threads

open Lib Chatterd

/-- How far a worker is from its end when it reads no more frames; `n` bounds a broadcast. -/
def Phase.rank (n : ℕ) : Phase → ℕ
  | .absent | .done => 0
  | .starting => 2 * n + 6
  | .adding | .welcoming _ => 2 * n + 5
  | .reading => 2 * n + 4
  | .naming _ | .asking _ => 4 * n + 7
  | .ready _ _ last => (if last then 0 else 2 * n + 4) + 2 * n + 2
  | .sending _ targets last => (if last then 0 else 2 * n + 4) + 2 * targets.length + 1
  | .writing _ _ _ targets last => (if last then 0 else 2 * n + 4) + 2 * targets.length + 2
  | .removing => 2 * n + 3

/-- How far the main thread is from its exit, with the worker it has yet to start. -/
def Main.rank (n : ℕ) : Main → ℕ
  | .adding _ => 4 * n + 13
  | .spawning _ => 4 * n + 12
  | .polling => 2 * n + 5
  | .stopping => 2 * n + 4
  | .shutting todo => todo.length + n + 3
  | .joining todo | .leaving todo => todo.length + 1

namespace State

def work (s : State) : ℕ :=
  (if s.status = .running then 1 else 0) + s.main.rank s.count +
    ∑ j ∈ Finset.range s.count, (s.phase j).rank s.count

variable {d : Design} {s t : State}

theorem work_main_lt (same : t.status = s.status ∧ t.count = s.count ∧ t.phase = s.phase)
    (less : t.main.rank s.count < s.main.rank s.count) : t.work < s.work := by
  obtain ⟨status, count, phase⟩ := same
  simp only [work, status, count, phase]
  omega

theorem work_turn_lt {i : ℕ} {p : Phase} (inside : i < s.count)
    (same : t.status = s.status ∧ t.count = s.count ∧ t.main = s.main)
    (phase : t.phase = Function.update s.phase i p)
    (less : p.rank s.count < (s.phase i).rank s.count) : t.work < s.work := by
  obtain ⟨status, count, main⟩ := same
  have sum := sum_update (Phase.rank s.count) s.phase inside p
  simp only [work, status, count, main, phase]
  omega

theorem work_ended_lt {status : Status} (running : s.status = .running)
    (ended : status ≠ .running) : ({ s with status } : State).work < s.work := by
  simp only [work, running, if_neg ended, if_true]
  omega

theorem work_spawn_lt {i : ℕ} (inside : i < s.count) (absent : s.phase i = .absent)
    (main : s.main = .spawning i) :
    ({ s.setPhase i .starting with main := .polling } : State).work < s.work := by
  have sum := sum_update (Phase.rank s.count) s.phase inside .starting
  have before : Phase.rank s.count .absent = 0 := rfl
  have after : Phase.rank s.count .starting = 2 * s.count + 6 := rfl
  rw [absent, before, after] at sum
  simp only [work, setPhase, main, Main.rank]
  omega

end State

/-- SIGINT is not taken back. -/
theorem stop_of_effect {d : Design} {s t : State} {a : Action} (effect : Effect d s a t)
    (stopped : s.stop = true) : t.stop = true := by
  cases effect <;> first | exact stopped | rfl

namespace State

/-- A step of the server's own that makes its work less. -/
def Advances (d : Design) (s : State) : Prop :=
  ∃ a t, a.own = true ∧ near d s a ∧ s.act d a = some t ∧ t.work < s.work

namespace Clear

variable {d : Design} {s : State}

/-- A write that does not wait for its client comes to its end. -/
theorem advances_write (clear : s.Clear d) (running : s.status = .running) {i c : ℕ} {left : Bytes}
    (target : (s.phase i).target i = some (c, left)) (heard : (s.conn c).deaf = false) :
    s.Advances d := by
  have inside : i < s.count := clear.inv.counted i fun absent => by
    rw [absent] at target
    cases target
  have call : ∃ w, (s.conn c).allows left w = true ∧ Phase.more (w.rest left) = none := by
    by_cases empty : left = []
    · exact ⟨.intr, rfl, by rw [empty]; rfl⟩
    · cases broken : (s.conn c).broken with
      | true => exact ⟨.pipe, broken, rfl⟩
      | false =>
        rw [Conn.deaf, broken, Bool.not_false, Bool.and_true] at heard
        refine ⟨.count left.length, ?_, ?_⟩
        · simp [Conn.allows, heard, broken, List.length_pos_iff.mpr empty]
        · rw [Wrote.rest, List.drop_length]
          rfl
  obtain ⟨w, allowed, finished⟩ := call
  by_cases killed : d = .tcpCpp ∧ w = .pipe
  · refine ⟨.write i w, { s with status := .killed }, rfl, trivial, ?_,
      work_ended_lt running (by simp)⟩
    simp only [State.act, target, if_pos allowed, if_pos killed]
  · refine ⟨.write i w, s.wrote i c left w, rfl, trivial, ?_, ?_⟩
    · simp only [State.act, target, if_pos allowed, if_neg killed]
    · refine work_turn_lt inside ⟨rfl, rfl, rfl⟩ rfl ?_
      rcases Phase.target_eq_some target with ⟨here, -⟩ | ⟨frame, targets, last, here⟩
      · rw [here, Phase.wrote_welcoming, finished]
        simp only [Phase.rank]
        omega
      · rw [here, Phase.wrote_writing, finished]
        simp only [Phase.rank]
        omega

/-- A broadcast of ch21 goes on while it holds the mutex. -/
theorem advances_cast (clear : s.Clear d) {i : ℕ} {frame : Bytes} {targets : List ℕ} {last : Bool}
    (here : s.phase i = .sending frame targets last) (tcp : d.threaded = false) :
    s.Advances d := by
  have inside : i < s.count := clear.inv.counted i (by simp [here])
  cases targets with
  | nil =>
    refine ⟨.finish i, _, rfl, trivial, by simp only [State.act, here]; rfl, ?_⟩
    refine work_turn_lt inside ⟨rfl, rfl, rfl⟩ rfl ?_
    rw [here]
    cases last <;> simp [Phase.rank]
  | cons c rest =>
    refine ⟨.next i, s.setPhase i (.writing frame c frame rest last), rfl, ?_, ?_, ?_⟩
    · rintro rfl
      cases tcp
    · simp [State.act, here, tcp]
    · refine work_turn_lt inside ⟨rfl, rfl, rfl⟩ rfl ?_
      rw [here]
      simp only [Phase.rank, List.length_cons]
      omega

theorem length_registry_le (clear : s.Clear d) : s.registry.length ≤ s.count := by
  have known : s.registry ⊆ List.range s.count := fun i member =>
    List.mem_range.mpr (clear.inv.lt_count member)
  simpa using (clear.inv.nodup.subperm known).length_le

/-- A worker that has just been started moves on, unless its lock is held. -/
theorem advances_start (clear : s.Clear d) {i : ℕ} (here : s.phase i = .starting)
    (free : (s.conn i).writer = none)
    (heard : d = .threadedRust → s.stop = true → (s.conn i).deaf = false) : s.Advances d := by
  have inside : i < s.count := clear.inv.counted i (by simp [here])
  cases d with
  | tcpCpp =>
    refine ⟨.start i, _, rfl, heard, by simp only [State.act, if_pos here]; rfl, ?_⟩
    refine work_turn_lt inside ⟨rfl, rfl, rfl⟩ rfl ?_
    rw [here]
    exact Nat.lt_succ_self _
  | tcpRust =>
    refine ⟨.start i, _, rfl, heard, by simp only [State.act, if_pos here]; rfl, ?_⟩
    refine work_turn_lt inside ⟨rfl, rfl, rfl⟩ rfl ?_
    rw [here]
    exact Nat.lt_succ_self _
  | threadedCpp =>
    refine ⟨.start i, _, rfl, heard, by simp only [State.act, if_pos here]; rfl, ?_⟩
    refine work_turn_lt inside ⟨rfl, rfl, rfl⟩ rfl ?_
    rw [here]
    exact Nat.lt_succ_self _
  | threadedRust =>
    refine ⟨.start i, _, rfl, heard, by simp only [State.act, if_pos here, if_pos free]; rfl, ?_⟩
    refine work_turn_lt inside ⟨rfl, rfl, rfl⟩ rfl ?_
    rw [here]
    exact Nat.lt_succ_self _

theorem advances_add (clear : s.Clear d) {i : ℕ} (here : s.phase i = .adding)
    (free : s.hub = none) : s.Advances d := by
  have inside : i < s.count := clear.inv.counted i (by simp [here])
  refine ⟨.add i, _, rfl, trivial, by simp only [State.act, if_pos (And.intro here free)]; rfl, ?_⟩
  refine work_turn_lt inside ⟨rfl, rfl, rfl⟩ rfl ?_
  rw [here]
  exact Nat.lt_succ_self _

/-- The worker that is joined moves on while no lock is held and nobody waits for a client. -/
theorem advances_worker (clear : s.Clear d) (running : s.status = .running)
    (stopped : s.stop = true) {todo : List ℕ} (main : s.main = .joining todo) {i : ℕ}
    (inside : i < s.count) (unfinished : s.phase i ≠ .done) (free : s.hub = none)
    (unheld : ∀ c, (s.conn c).writer = none) : s.Advances d := by
  have heard : ∀ c ∈ s.registry, (s.conn c).deaf = false := fun c member =>
    not_deaf_of_shut (clear.shut_of_member main member)
  cases here : s.phase i with
  | absent => exact absurd here (clear.present main inside)
  | starting =>
    refine clear.advances_start here (unheld i) fun rust _ => heard i ?_
    rw [clear.inv.member_iff (by simp [here]), here, rust]
    rfl
  | adding => exact clear.advances_add here free
  | welcoming left =>
    have target : (s.phase i).target i = some (i, left) := by rw [here]; rfl
    exact clear.advances_write running target (clear.not_deaf stopped main target)
  | reading =>
    have shut : (s.conn i).shut = true := by
      rcases clear.reached main inside with ended | shut | ⟨-, starting, -⟩
      · rw [here] at ended
        cases ended
      · exact shut
      · rw [here] at starting
        cases starting
    have ended : s.phase i = .reading ∧ ((s.conn i).closed = true ∨ (s.conn i).broken = true) :=
      ⟨here, .inr (by simp [Conn.broken, shut])⟩
    refine ⟨.eof i, _, rfl, trivial, by simp only [State.act, if_pos ended]; rfl, ?_⟩
    refine work_turn_lt inside ⟨rfl, rfl, rfl⟩ rfl ?_
    rw [here]
    exact Nat.lt_succ_self _
  | naming name =>
    have alone : s.namable d i = true := by
      cases d <;> simp [State.namable, free, unheld]
    refine ⟨.name i, _, rfl, trivial, by simp only [State.act, here, alone]; rfl, ?_⟩
    refine work_turn_lt inside ⟨rfl, rfl, rfl⟩ rfl ?_
    rw [here, afterName]
    split
    · simp only [Phase.rank]
      omega
    · simp only [Phase.rank, Bool.false_eq_true, if_false]
      omega
  | asking text =>
    refine ⟨.ask i, s.setPhase i (.ready (buildDeliver (s.conn i).nick text) none false), rfl,
      trivial, by simp [State.act, here, unheld], ?_⟩
    refine work_turn_lt inside ⟨rfl, rfl, rfl⟩ rfl ?_
    rw [here]
    simp only [Phase.rank, Bool.false_eq_true, if_false]
    omega
  | ready frame except last =>
    obtain ⟨order, same⟩ : ∃ order, order = s.registry.filter fun c => except ≠ some c := ⟨_, rfl⟩
    have fewer : order.length ≤ s.count := by
      rw [same]
      exact (List.length_filter_le _ _).trans clear.length_registry_le
    have ready : s.hub = none ∧ order.Perm (s.registry.filter fun c => except ≠ some c) :=
      ⟨free, .of_eq same⟩
    refine ⟨.lock i order, _, rfl, fun _ _ c member => ?_,
      by simp only [State.act, here, if_pos ready]; rfl, ?_⟩
    · rw [same] at member
      exact heard c (List.mem_filter.mp member).1
    · refine work_turn_lt inside ⟨rfl, rfl, rfl⟩ rfl ?_
      rw [here]
      simp only [Phase.rank]
      omega
  | sending frame targets last =>
    cases threaded : d.threaded with
    | false => exact clear.advances_cast here threaded
    | true =>
      cases targets with
      | nil =>
        refine ⟨.finish i, _, rfl, trivial, by simp only [State.act, here]; rfl, ?_⟩
        refine work_turn_lt inside ⟨rfl, rfl, rfl⟩ rfl ?_
        rw [here]
        cases last <;> simp [Phase.rank]
      | cons c rest =>
        refine ⟨.next i, _, rfl, fun rust _ e first => ?_,
          by simp only [State.act, here, threaded, if_true, if_pos (unheld c)]; rfl, ?_⟩
        · rw [here] at first
          cases first
          by_cases member : c ∈ s.registry
          · exact heard c member
          · refine clear.calm stopped i c ?_
            rw [State.Danger, rust, here]
            exact .inr ⟨member, List.mem_cons_self⟩
        · refine work_turn_lt inside ⟨rfl, rfl, rfl⟩ rfl ?_
          rw [here]
          simp only [Phase.rank, List.length_cons]
          omega
  | writing frame c left targets last =>
    have target : (s.phase i).target i = some (c, left) := by rw [here]; rfl
    exact clear.advances_write running target (clear.not_deaf stopped main target)
  | removing =>
    refine ⟨.remove i, _, rfl, fun threaded _ deaf => ?_,
      by simp only [State.act, if_pos (And.intro here free)]; rfl, ?_⟩
    · have member : i ∈ s.registry := by
        rw [clear.inv.member_iff (by simp [here]), here]
        simp [Design.member, threaded, Phase.alive]
      rw [heard i member] at deaf
      cases deaf
    · refine work_turn_lt inside ⟨rfl, rfl, rfl⟩ rfl ?_
      rw [here, afterRemove]
      split
      · exact Nat.succ_pos _
      · split
        · exact Nat.succ_pos _
        · simp only [Phase.rank, if_true]
          omega
  | done => exact absurd here unfinished

/-- While the main thread joins, somebody moves. -/
theorem advances_joining (clear : s.Clear d) (running : s.status = .running)
    (stopped : s.stop = true) {i : ℕ} {rest : List ℕ} (main : s.main = .joining (i :: rest)) :
    s.Advances d := by
  by_cases done : s.phase i = .done
  · refine ⟨.join, { s with main := .joining rest }, rfl, trivial, ?_, ?_⟩
    · simp only [State.act, main, if_pos done]
    · refine work_main_lt ⟨rfl, rfl, rfl⟩ ?_
      rw [main]
      exact Nat.lt_succ_self _
  · by_cases held : ∃ c k, (s.conn c).writer = some k
    · obtain ⟨c, k, held⟩ := held
      obtain ⟨-, left, target⟩ := clear.inv.writer c k held
      exact clear.advances_write running target (clear.not_deaf stopped main target)
    · have unheld : ∀ c, (s.conn c).writer = none := fun c =>
        Option.eq_none_iff_forall_ne_some.mpr fun k mine => held ⟨c, k, mine⟩
      cases hub : s.hub with
      | none =>
        exact clear.advances_worker running stopped main
          (clear.within _ (.inl main) i List.mem_cons_self) done hub unheld
      | some holder =>
        cases holder with
        | main =>
          obtain ⟨-, todo, shutting⟩ := clear.inv.hubMain.mp hub
          rw [main] at shutting
          cases shutting
        | worker k =>
          obtain ⟨tcp, casting⟩ := (clear.inv.hubWorker k).mp hub
          cases here : s.phase k with
          | sending frame targets last => exact clear.advances_cast here tcp
          | writing frame c left targets last =>
            have target : (s.phase k).target k = some (c, left) := by rw [here]; rfl
            exact clear.advances_write running target (clear.not_deaf stopped main target)
          | _ =>
            rw [here] at casting
            cases casting

/-- While the main thread waits for the mutex, its holder moves, or it gets it. -/
theorem advances_stopping (clear : s.Clear d) (running : s.status = .running)
    (stopped : s.stop = true) (main : s.main = .stopping) : s.Advances d := by
  have other := clear.inv.stopping main
  cases hub : s.hub with
  | some holder =>
    cases holder with
    | main =>
      obtain ⟨-, todo, shutting⟩ := clear.inv.hubMain.mp hub
      rw [main] at shutting
      cases shutting
    | worker k =>
      obtain ⟨tcp, casting⟩ := (clear.inv.hubWorker k).mp hub
      cases here : s.phase k with
      | sending frame targets last => exact clear.advances_cast here tcp
      | writing frame c left targets last =>
        have target : (s.phase k).target k = some (c, left) := by rw [here]; rfl
        refine clear.advances_write running target (clear.calm stopped k c ?_)
        rw [State.Danger, here]
        cases d with
        | tcpCpp => exact absurd rfl other
        | tcpRust => exact .inl rfl
        | threadedCpp => cases tcp
        | threadedRust => cases tcp
      | _ =>
        rw [here] at casting
        cases casting
  | none =>
    by_cases early : d = .tcpRust ∧ ∃ i, s.phase i = .starting ∨ s.phase i = .adding
    · obtain ⟨rust, i, starting | adding⟩ := early
      · have free : (s.conn i).writer = none := by
          refine Option.eq_none_iff_forall_ne_some.mpr fun k held => ?_
          have threaded := (clear.inv.writer i k held).1
          rw [rust] at threaded
          cases threaded
        exact clear.advances_start starting free fun no => by rw [rust] at no; cases no
      · exact clear.advances_add adding hub
    · have settled : d = .tcpRust → ∀ i < s.count, s.phase i ≠ .starting ∧ s.phase i ≠ .adding :=
        fun rust i _ => ⟨fun starting => early ⟨rust, i, .inl starting⟩,
          fun adding => early ⟨rust, i, .inr adding⟩⟩
      have ready : s.main = .stopping ∧ s.hub = none ∧ s.registry.Perm s.registry :=
        ⟨main, hub, .refl _⟩
      refine ⟨.lockAll s.registry, _, rfl, settled, by simp only [State.act, if_pos ready]; rfl, ?_⟩
      refine work_main_lt ⟨rfl, rfl, rfl⟩ ?_
      have fewer := clear.length_registry_le
      rw [main]
      simp only [Main.rank]
      omega

/-- As long as the server runs after SIGINT, it can move on by itself. -/
theorem advances (clear : s.Clear d) (running : s.status = .running) (stopped : s.stop = true) :
    s.Advances d := by
  cases main : s.main with
  | polling =>
    refine ⟨.sawStop, _, rfl, trivial, by
      simp only [State.act, if_pos (And.intro main stopped)]; rfl, ?_⟩
    refine work_main_lt ⟨rfl, rfl, rfl⟩ ?_
    rw [main]
    change Main.rank s.count (if d = .tcpCpp then .shutting (List.range s.count) else .stopping) < _
    split
    · simp only [Main.rank, List.length_range]
      omega
    · exact Nat.lt_succ_self _
  | adding i =>
    have threaded := clear.inv.added i main
    have free : s.hub = none := by
      refine Option.eq_none_iff_forall_ne_some.mpr fun holder held => ?_
      cases holder with
      | main =>
        obtain ⟨-, todo, shutting⟩ := clear.inv.hubMain.mp held
        rw [main] at shutting
        cases shutting
      | worker k => exact clear.inv.threaded_hub threaded k held
    refine ⟨.register, _, rfl, trivial, by simp only [State.act, main, if_pos free]; rfl, ?_⟩
    refine work_main_lt ⟨rfl, rfl, rfl⟩ ?_
    rw [main]
    exact Nat.lt_succ_self _
  | spawning i =>
    obtain ⟨inside, absent⟩ := clear.inv.fresh i (.inr main)
    refine ⟨.spawn, _, rfl, trivial, by simp only [State.act, main]; rfl, ?_⟩
    exact work_spawn_lt inside absent main
  | stopping => exact clear.advances_stopping running stopped main
  | shutting todo =>
    cases todo with
    | nil =>
      refine ⟨.shut, _, rfl, trivial, by simp only [State.act, main]; rfl, ?_⟩
      refine work_main_lt ⟨rfl, rfl, rfl⟩ ?_
      rw [main]
      simp only [Main.rank, List.length_range, List.length_nil]
      omega
    | cons c rest =>
      have less : (Main.shutting rest).rank s.count < s.main.rank s.count := by
        rw [main]
        simp only [Main.rank, List.length_cons]
        omega
      by_cases cpp : d = .tcpCpp
      · refine ⟨.shut, _, rfl, trivial, by simp only [State.act, main, if_pos cpp]; rfl, ?_⟩
        exact work_main_lt ⟨rfl, rfl, rfl⟩ less
      · by_cases held : d = .threadedRust ∧ (s.conn c).writer ≠ none
        · obtain ⟨rust, busy⟩ := held
          obtain ⟨k, held⟩ := Option.ne_none_iff_exists'.mp busy
          obtain ⟨-, left, target⟩ := clear.inv.writer c k held
          refine clear.advances_write running target (clear.calm stopped k c ?_)
          rw [State.Danger, rust]
          exact .inl ⟨left, target⟩
        · refine ⟨.shut, _, rfl, trivial, by
            simp only [State.act, main, if_neg cpp, if_neg held]; rfl, ?_⟩
          exact work_main_lt ⟨rfl, rfl, rfl⟩ less
  | joining todo =>
    cases todo with
    | nil =>
      refine ⟨.join, { s with status := .exited 0 }, rfl, trivial, ?_,
        work_ended_lt running (by simp)⟩
      simp only [State.act, main]
    | cons i rest => exact clear.advances_joining running stopped main
  | leaving todo =>
    obtain ⟨some', gone⟩ := clear.left todo main
    cases todo with
    | nil => exact absurd rfl some'
    | cons i rest =>
      have done := gone i (clear.within _ (.inr main) i List.mem_cons_self)
      refine ⟨.join, s.leave d rest, rfl, trivial, by simp only [State.act, main, if_pos done], ?_⟩
      cases rest with
      | nil => exact work_ended_lt running (by simp)
      | cons j rest =>
        refine work_main_lt ⟨rfl, rfl, rfl⟩ ?_
        rw [main]
        exact Nat.lt_succ_self _

theorem stops (clear : s.Clear d) (stopped : s.stop = true) : s.Stops d := by
  refine ⟨clear.not_wedged stopped, fun todo main i inside => clear.reached main inside, ?_⟩
  obtain ⟨acts, t, own, run, -, ended⟩ := @Machine.exists_run_within _ _ (server d)
    (fun s => s.Clear d ∧ s.stop = true) (fun s => s.status ≠ .running)
    (fun a => a.own = true) State.work (fun s here short => by
      have running := not_not.mp short
      obtain ⟨a, t, own, met, taken, less⟩ := here.1.advances running here.2
      refine ⟨a, t, own, ?_, ⟨here.1.keeps met (effect_of_act taken),
        stop_of_effect (effect_of_act taken) here.2⟩, less⟩
      simp only [server, if_pos running, taken]) _ ⟨clear, stopped⟩
  exact ⟨acts, t, own, run, ended⟩

end Clear

end State

end LinuxSys.Servers.Threads
