import LinuxSys.Capstone.Workload
import LinuxSys.Lib.Progress

/-! # The Asio arm of capstone ch56

All folds are posted to one strand before a thread runs it. The handlers of a strand start in order,
on whichever thread is free, and never two at a time; `run` returns when no handler is left or under
way.
-/

namespace LinuxSys.Capstone

open Lib

namespace Strand

/-- A handler under way, and what it has loaded. -/
structure Running where
  thread : ℕ
  task : ℕ
  round : ℕ
  loaded : Option UInt64
deriving DecidableEq, Repr

inductive Main where
  | creates (thread : ℕ)
  | joins (thread : ℕ)
  | reported (report : Report)
deriving DecidableEq, Repr

structure State where
  acc : UInt64
  queue : List (ℕ × ℕ)
  running : Option Running
  returned : ℕ → Bool
  main : Main

inductive Act where
  | main
  | thread (thread : ℕ)
deriving DecidableEq, Repr

/-- The threads that have been created. -/
def Main.created (tasks : ℕ) : Main → ℕ
  | .creates thread => thread
  | .joins _ | .reported _ => tasks

namespace State

variable (s : State)

/-- `ioc.run()` on a thread. -/
def run (thread : ℕ) : Option State :=
  match s.running with
  | some h =>
    if h.thread = thread then
      match h.loaded with
      | none => some { s with running := some { h with loaded := some s.acc } }
      | some value => some { s with acc := value + unit h.task h.round, running := none }
    else none
  | none =>
    match s.queue with
    | (task, round) :: rest =>
      some { s with queue := rest, running := some ⟨thread, task, round, none⟩ }
    | [] => some { s with returned := Function.update s.returned thread true }

def mainStep (tasks rounds : ℕ) : Option State :=
  match s.main with
  | .creates thread =>
    if thread < tasks then some { s with main := .creates (thread + 1) }
    else some { s with main := .joins 0 }
  | .joins thread =>
    if thread < tasks then
      if s.returned thread then some { s with main := .joins (thread + 1) } else none
    else some { s with main := .reported (reportArm tasks rounds s.acc) }
  | .reported _ => none

def step (tasks rounds : ℕ) : Act → Option State
  | .main => s.mainStep tasks rounds
  | .thread thread =>
    if thread < s.main.created tasks ∧ s.returned thread = false then s.run thread else none

end State

/-- The handlers in the order in which they are posted. -/
def posted (tasks rounds : ℕ) : List (ℕ × ℕ) :=
  (List.range tasks).flatMap fun t => (List.range rounds).map fun r => (t, r)

def arm (tasks rounds : ℕ) : Machine State Act :=
  ⟨⟨0, posted tasks rounds, none, fun _ => false, .creates 0⟩, fun s a => s.step tasks rounds a⟩

/-- The units of the handlers that have not stored. -/
def State.left (s : State) : List (ℕ × ℕ) :=
  match s.running with
  | some h => (h.task, h.round) :: s.queue
  | none => s.queue

def State.view (s : State) : Fold UInt64 := ⟨s.acc, s.left.map fun h => unit h.1 h.2⟩

structure Inv (tasks rounds : ℕ) (s : State) : Prop where
  fresh : ∀ h value, s.running = some h → h.loaded = some value → value = s.acc
  thread : ∀ h, s.running = some h →
    h.thread < s.main.created tasks ∧ s.returned h.thread = false
  returned : ∀ thread, s.returned thread → s.left = []
  nobody : tasks = 0 → s.left = []
  joined : ∀ thread, s.main = .joins thread → ∀ i < thread, s.returned i
  few : s.main.created tasks ≤ tasks
  reported : ∀ report, s.main = .reported report →
    report = reportArm tasks rounds s.acc ∧ s.left = []

section Steps

variable {tasks rounds thread : ℕ} {s q : State}

theorem inv_init : Inv tasks rounds (arm tasks rounds).init := by
  refine ⟨fun _ _ there => ?_, fun _ there => ?_, fun _ there => ?_, fun zero => ?_,
    fun _ joins => ?_, Nat.zero_le _, fun _ reports => ?_⟩
  · cases there
  · cases there
  · cases there
  · subst zero
    rfl
  · cases joins
  · cases reports

/-- With a handler left, nothing has returned and nothing is reported. -/
theorem Inv.busy (inv : Inv tasks rounds s) {handler : ℕ × ℕ} {rest : List (ℕ × ℕ)}
    (left : s.left = handler :: rest) :
    tasks ≠ 0 ∧ (∀ i, s.returned i ≠ true) ∧ ∀ report, s.main ≠ .reported report := by
  refine ⟨fun zero => ?_, fun i back => ?_, fun report reports => ?_⟩
  · rw [inv.nobody zero] at left
    cases left
  · rw [inv.returned i back] at left
    cases left
  · rw [(inv.reported report reports).2] at left
    cases left

/-- The handler under way loads, or stores and adds its unit. -/
theorem Inv.runHandler {h : Running} (inv : Inv tasks rounds s) (running : s.running = some h)
    (taken : s.run thread = some q) : Inv tasks rounds q ∧ s.view.Adds q.view := by
  have left : s.left = (h.task, h.round) :: s.queue := by rw [State.left, running]
  obtain ⟨some_task, returned, reported⟩ := inv.busy left
  have others := inv.thread h running
  have fresh := inv.fresh h
  obtain ⟨acc, queue, _, back, main⟩ := s
  dsimp only at running returned reported others fresh
  subst running
  simp only [State.run] at taken
  split_ifs at taken with mine
  cases loaded : h.loaded with
  | none =>
    simp only [loaded, Option.some.injEq] at taken
    subst taken
    refine ⟨⟨fun g value same here => ?_, fun g same => ?_, fun i done => absurd done (returned i),
      fun zero => absurd zero some_task, inv.joined, inv.few,
      fun report reports => absurd reports (reported report)⟩, .inl rfl⟩
    · cases same
      exact (Option.some.inj here).symm
    · cases same
      exact others
  | some value =>
    simp only [loaded, Option.some.injEq] at taken
    subst taken
    refine ⟨⟨fun _ _ same => (by cases same), fun _ same => (by cases same),
      fun i done => absurd done (returned i), fun zero => absurd zero some_task, inv.joined, inv.few,
      fun report reports => absurd reports (reported report)⟩,
      .inr ⟨unit h.task h.round, rfl, ?_⟩⟩
    exact congrArg (· + unit h.task h.round) (fresh value rfl loaded)

/-- A free thread takes the next handler, or returns. -/
theorem Inv.runNext (inv : Inv tasks rounds s) (running : s.running = none)
    (created : thread < s.main.created tasks) (active : s.returned thread = false)
    (taken : s.run thread = some q) : Inv tasks rounds q ∧ s.view.Adds q.view := by
  have left : s.left = s.queue := by rw [State.left, running]
  cases queue : s.queue with
  | cons handler rest =>
    obtain ⟨some_task, returned, reported⟩ := inv.busy (left.trans queue)
    obtain ⟨acc, _, _, back, main⟩ := s
    dsimp only at running queue created active returned reported
    subst running queue
    obtain rfl := Option.some.inj taken
    refine ⟨⟨fun g value same here => ?_, fun g same => ?_, fun i done => absurd done (returned i),
      fun zero => absurd zero some_task, inv.joined, inv.few,
      fun report reports => absurd reports (reported report)⟩, .inl rfl⟩
    · cases same
      cases here
    · cases same
      exact ⟨created, active⟩
  | nil =>
    have joined := inv.joined
    have reported := inv.reported
    obtain ⟨acc, _, _, back, main⟩ := s
    dsimp only at running queue joined reported
    subst running queue
    obtain rfl := Option.some.inj taken
    refine ⟨⟨fun _ _ same => (by cases same), fun _ same => (by cases same), fun _ _ => rfl,
      fun _ => rfl, fun upTo joins i below => ?_, inv.few, reported⟩, .inl rfl⟩
    dsimp only
    rw [Function.update_apply]
    split_ifs with same
    · rfl
    · exact joined upTo joins i below

theorem Inv.run (inv : Inv tasks rounds s) (created : thread < s.main.created tasks)
    (active : s.returned thread = false) (taken : s.run thread = some q) :
    Inv tasks rounds q ∧ s.view.Adds q.view := by
  cases running : s.running with
  | some h => exact inv.runHandler running taken
  | none => exact inv.runNext running created active taken

theorem Inv.mainStep (inv : Inv tasks rounds s) (taken : s.mainStep tasks rounds = some q) :
    Inv tasks rounds q ∧ s.view.Adds q.view := by
  have thread := inv.thread
  rw [State.mainStep] at taken
  cases main : s.main with
  | creates upTo =>
    rw [main] at taken thread
    dsimp only at taken
    split_ifs at taken with more
    · rw [← Option.some.inj taken]
      refine ⟨⟨inv.fresh, fun h same => ?_, inv.returned, inv.nobody, fun _ joins => (by cases joins),
        more, fun _ reports => (by cases reports)⟩, .inl rfl⟩
      exact ⟨Nat.lt_succ_of_lt (thread h same).1, (thread h same).2⟩
    · rw [← Option.some.inj taken]
      refine ⟨⟨inv.fresh, fun h same => ?_, inv.returned, inv.nobody, fun _ joins i below => ?_,
        Nat.le_refl _, fun _ reports => (by cases reports)⟩, .inl rfl⟩
      · have few := inv.few
        rw [main] at few
        exact ⟨Nat.lt_of_lt_of_le (thread h same).1 few, (thread h same).2⟩
      · cases joins
        exact absurd below (Nat.not_lt_zero i)
  | joins upTo =>
    rw [main] at taken thread
    dsimp only at taken
    split_ifs at taken with more back
    · rw [← Option.some.inj taken]
      refine ⟨⟨inv.fresh, thread, inv.returned, inv.nobody, fun _ joins i below => ?_,
        Nat.le_refl _, fun _ reports => (by cases reports)⟩, .inl rfl⟩
      cases joins
      rcases Nat.lt_succ_iff_lt_or_eq.mp below with below | rfl
      · exact inv.joined upTo main i below
      · exact back
    · rw [← Option.some.inj taken]
      refine ⟨⟨inv.fresh, thread, inv.returned, inv.nobody, fun _ joins => (by cases joins),
        Nat.le_refl _, fun report reports => ?_⟩, .inl rfl⟩
      cases reports
      refine ⟨rfl, ?_⟩
      rcases Nat.eq_zero_or_pos tasks with zero | some_task
      · exact inv.nobody zero
      · exact inv.returned 0 (inv.joined upTo main 0 (by omega))
  | reported report =>
    rw [main] at taken
    cases taken

theorem Inv.step {a : Act} (inv : Inv tasks rounds s) (taken : s.step tasks rounds a = some q) :
    Inv tasks rounds q ∧ s.view.Adds q.view := by
  cases a with
  | main => exact inv.mainStep taken
  | thread thread =>
    simp only [State.step] at taken
    split_ifs at taken with there
    exact inv.run there.1 there.2 taken

theorem units_posted (tasks rounds : ℕ) :
    ((posted tasks rounds).map fun h => unit h.1 h.2 : Multiset UInt64) = allUnits tasks rounds := by
  rw [posted, allUnits]
  have folds (t : ℕ) : (fun h : ℕ × ℕ => unit h.1 h.2) ∘ (fun r => (t, r)) = unit t := by
    simp only [Function.comp_def]
  induction List.range tasks with
  | nil => rfl
  | cons t rest ih =>
    rw [List.flatMap_cons, List.map_append, ← Multiset.coe_add, ih, List.map_cons, List.sum_cons,
      List.map_map, folds, unitsFrom, Nat.sub_zero, ← List.range_eq_range']

theorem total_init (tasks rounds : ℕ) :
    ((arm tasks rounds).init.view).total = expectedTotal tasks rounds := by
  rw [expectedTotal_eq_sum, ← units_posted]
  exact zero_add _

end Steps

/-! That it reports. -/

def Main.rank (tasks : ℕ) : Main → ℕ
  | .creates thread => (tasks - thread) + tasks + 2
  | .joins thread => tasks - thread + 1
  | .reported _ => 0

def Running.rank (h : Running) : ℕ := if h.loaded.isSome then 1 else 2

def State.rank (tasks : ℕ) (s : State) : ℕ :=
  s.main.rank tasks + 3 * s.queue.length + (s.running.map Running.rank).getD 0 +
    ∑ i ∈ Finset.range tasks, if s.returned i then 0 else 1

section Progress

variable {tasks rounds thread : ℕ} {s q : State}

theorem rank_of_run (inv : Inv tasks rounds s) (created : thread < s.main.created tasks)
    (active : s.returned thread = false) (taken : s.run thread = some q) :
    q.rank tasks < s.rank tasks := by
  have below : thread < tasks := Nat.lt_of_lt_of_le created inv.few
  obtain ⟨acc, queue, running, back, main⟩ := s
  cases running with
  | some h =>
    obtain ⟨owner, task, round, loaded⟩ := h
    simp only [State.run] at taken
    split_ifs at taken with mine
    cases loaded with
    | none | some =>
      obtain rfl := Option.some.inj taken
      simp [State.rank, Running.rank]
  | none =>
    cases queue with
    | cons handler rest =>
      obtain rfl := Option.some.inj taken
      simp only [State.rank, Running.rank, Option.map_some, Option.map_none, Option.getD_some,
        Option.getD_none, List.length_cons, Option.isSome_none, Bool.false_eq_true, if_false]
      omega
    | nil =>
      obtain rfl := Option.some.inj taken
      have sum := sum_update (fun done : Bool => if done then 0 else 1) back below true
      have awake : back thread = false := active
      simp only [awake, Bool.false_eq_true, if_false, if_true] at sum
      simp only [State.rank]
      omega

theorem rank_of_mainStep (taken : s.mainStep tasks rounds = some q) :
    q.rank tasks < s.rank tasks := by
  cases main : s.main with
  | creates upTo =>
    simp only [State.mainStep, main] at taken
    split_ifs at taken with more
    · rw [← Option.some.inj taken]
      simp only [State.rank, main, Main.rank]
      omega
    · rw [← Option.some.inj taken]
      simp only [State.rank, main, Main.rank]
      omega
  | joins upTo =>
    simp only [State.mainStep, main] at taken
    split_ifs at taken with more back
    · rw [← Option.some.inj taken]
      simp only [State.rank, main, Main.rank]
      omega
    · rw [← Option.some.inj taken]
      simp only [State.rank, main, Main.rank]
      omega
  | reported report => simp only [State.mainStep, main, reduceCtorEq] at taken

theorem exists_step (inv : Inv tasks rounds s) (short : ∀ report, s.main ≠ .reported report) :
    ∃ a, (s.step tasks rounds a).isSome := by
  cases main : s.main with
  | creates upTo =>
    refine ⟨.main, ?_⟩
    simp only [State.step, State.mainStep, main]
    split_ifs <;> rfl
  | joins upTo =>
    by_cases more : upTo < tasks
    · cases back : s.returned upTo with
      | true => exact ⟨.main, by simp [State.step, State.mainStep, main, more, back]⟩
      | false =>
        cases running : s.running with
        | some h =>
          -- whoever has the handler goes on
          refine ⟨.thread h.thread, ?_⟩
          rw [State.step, if_pos (inv.thread h running), State.run, running]
          dsimp only
          rw [if_pos rfl]
          cases h.loaded <;> rfl
        | none =>
          refine ⟨.thread upTo, ?_⟩
          rw [State.step, if_pos ⟨by rw [main]; exact more, back⟩, State.run, running]
          cases s.queue <;> rfl
    · exact ⟨.main, by simp [State.step, State.mainStep, main, more]⟩
  | reported report => exact absurd main (short report)

end Progress

theorem rank_init (tasks rounds : ℕ) :
    (arm tasks rounds).init.rank tasks = 3 * (tasks * rounds) + 3 * tasks + 2 := by
  have length : (posted tasks rounds).length = tasks * rounds := by
    simp [posted, List.length_flatMap]
  have threads : (∑ i ∈ Finset.range tasks, if (arm tasks rounds).init.returned i then 0 else 1) =
      tasks := by simp [arm]
  rw [State.rank, threads]
  change (tasks - 0) + tasks + 2 + 3 * (posted tasks rounds).length + 0 + tasks = _
  rw [length]
  omega

/-- Whichever threads take the handlers, the report is right, and every run goes on to it. -/
theorem strand_report (tasks rounds : ℕ) (acts : List Act) (s : State)
    (run : (arm tasks rounds).run? acts = some s) :
    (∀ report, s.main = .reported report →
        report = ⟨tasks * rounds, expectedTotal tasks rounds, true⟩) ∧
      acts.length ≤ 3 * (tasks * rounds) + 3 * tasks + 2 ∧
      ((∀ report, s.main ≠ .reported report) → ∃ a, ((arm tasks rounds).step s a).isSome) := by
  have falls (s : State) (a : Act) (q : State) (inv : Inv tasks rounds s)
      (taken : (arm tasks rounds).step s a = some q) :
      Inv tasks rounds q ∧ q.rank tasks + (if true then 1 else 0) ≤ s.rank tasks := by
    refine ⟨(inv.step taken).1, ?_⟩
    cases a with
    | main => exact rank_of_mainStep taken
    | thread thread =>
      simp only [arm, State.step] at taken
      split_ifs at taken with there
      exact rank_of_run inv there.1 there.2 taken
  obtain ⟨inv, total⟩ : Inv tasks rounds s ∧
      s.view.total = ((arm tasks rounds).init.view).total :=
    Machine.total_of_run (m := arm tasks rounds) (fun s a t kept taken => Inv.step kept taken)
      inv_init run
  refine ⟨fun report reports => ?_, ?_, exists_step inv⟩
  · obtain ⟨rfl, left⟩ := inv.reported report reports
    refine reportArm_of_total (f := s.view) (total.trans (total_init tasks rounds)) ?_
    rw [State.view, left]
    rfl
  · have count := (Machine.count_le_measure (State.rank tasks) falls inv_init run).2
    rw [List.filter_true, rank_init] at count
    omega

/-- Two tasks of one round, of which the second thread takes both. -/
theorem strand_report_two :
    ∃ s report, (arm 2 1).run? [.main, .main, .main, .thread 1, .thread 1, .thread 1, .thread 1,
        .thread 1, .thread 1, .thread 1, .thread 0, .main, .main, .main] = some s ∧
      s.main = .reported report ∧ report = ⟨2 * 1, expectedTotal 2 1, true⟩ := by
  obtain ⟨s, run, report, reports⟩ : ∃ s, (arm 2 1).run? [.main, .main, .main, .thread 1, .thread 1,
      .thread 1, .thread 1, .thread 1, .thread 1, .thread 1, .thread 0, .main, .main, .main] =
        some s ∧ ∃ report, s.main = .reported report := ⟨_, rfl, _, rfl⟩
  exact ⟨s, report, run, reports, (strand_report 2 1 _ s run).1 report reports⟩

end Strand

end LinuxSys.Capstone
