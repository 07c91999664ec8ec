import LinuxSys.Capstone.Workload
import LinuxSys.Lib.Progress
import LinuxSys.Lib.Table

/-! # The arms of capstone ch56 with a mutex

pthreads, the standard threads, Boost.Thread and the senders are one program: a thread for each task
locks, adds and unlocks once a round, and the main thread waits for all of them. An addition is a load
and a store, and the threads take turns anywhere.
-/

namespace LinuxSys.Capstone

open Lib

namespace Locked

/-- Where a thread stands in a round. -/
inductive Phase where
  | ready (round : ℕ)
  | locked (round : ℕ)
  | loaded (round : ℕ) (value : UInt64)
  | stored (round : ℕ)
  | ended
deriving DecidableEq, Repr

structure Thread where
  task : ℕ
  phase : Phase
deriving DecidableEq, Repr

inductive Main where
  | creates (task : ℕ)
  | joins (task : ℕ)
  | reported (report : Report)
deriving DecidableEq, Repr

structure State where
  acc : UInt64
  owner : Option ℕ
  threads : Table Thread.task
  main : Main
deriving DecidableEq

inductive Act where
  | main
  | thread (task : ℕ)
deriving DecidableEq, Repr

namespace State

variable (s : State)

def set (task : ℕ) (phase : Phase) : State := { s with threads := s.threads.set ⟨task, phase⟩ }

/-- A thread. -/
def run (rounds task : ℕ) : Phase → Option State
  | .ready round =>
    if round < rounds then
      match s.owner with
      | none => some { s.set task (.locked round) with owner := some task }
      | some _ => none
    else some (s.set task .ended)
  | .locked round => some (s.set task (.loaded round s.acc))
  | .loaded round value => some { s.set task (.stored round) with acc := value + unit task round }
  | .stored round => some { s.set task (.ready (round + 1)) with owner := none }
  | .ended => none

/-- The main thread creates the threads and waits for each. -/
def mainStep (tasks rounds : ℕ) : Option State :=
  match s.main with
  | .creates task =>
    if task < tasks then
      if fresh : s.threads.find task = none then
        some { s with
          threads := s.threads.insert ⟨task, .ready 0⟩ fresh
          main := .creates (task + 1) }
      else none
    else some { s with main := .joins 0 }
  | .joins task =>
    if task < tasks then
      if (s.threads.find task).map Thread.phase = some .ended then
        some { s with main := .joins (task + 1) }
      else none
    else some { s with main := .reported (reportArm tasks rounds s.acc) }
  | .reported _ => none

def step (tasks rounds : ℕ) : Act → Option State
  | .main => s.mainStep tasks rounds
  | .thread task => (s.threads.find task).bind fun t => s.run rounds task t.phase

end State

def arm (tasks rounds : ℕ) : Machine State Act :=
  ⟨⟨0, none, ⟨[], List.nodup_nil⟩, .creates 0⟩, fun s a => s.step tasks rounds a⟩

/-! The accumulator. -/

/-- What a thread still has to add. -/
def Thread.left (rounds : ℕ) (t : Thread) : Multiset UInt64 :=
  match t.phase with
  | .ready round | .locked round | .loaded round _ => unitsFrom rounds t.task round
  | .stored round => unitsFrom rounds t.task (round + 1)
  | .ended => 0

/-- The tasks that have a thread. -/
def Main.created (tasks : ℕ) : Main → ℕ
  | .creates task => task
  | .joins _ | .reported _ => tasks

/-- What no thread has been created for. -/
def unstarted (tasks rounds created : ℕ) : Multiset UInt64 :=
  ((List.range' created (tasks - created)).map fun task => unitsFrom rounds task 0).sum

def State.view (tasks rounds : ℕ) (s : State) : Fold UInt64 :=
  ⟨s.acc, s.threads.sum (Thread.left rounds) + unstarted tasks rounds (s.main.created tasks)⟩

/-- The mutex is with the thread that is inside, and what that has loaded is still there. -/
def Fine (rounds : ℕ) (owner : Option ℕ) (acc : UInt64) (t : Thread) : Prop :=
  match t.phase with
  | .ready _ | .ended => owner ≠ some t.task
  | .locked round => owner = some t.task ∧ round < rounds
  | .loaded round value => owner = some t.task ∧ round < rounds ∧ value = acc
  | .stored round => owner = some t.task ∧ round < rounds

structure Inv (tasks rounds : ℕ) (s : State) : Prop where
  fine : ∀ t ∈ s.threads, Fine rounds s.owner s.acc t
  held : ∀ task, s.owner = some task → ∃ t ∈ s.threads, t.task = task
  few : s.main.created tasks ≤ tasks
  created : ∀ task, (∃ t ∈ s.threads, t.task = task) ↔ task < s.main.created tasks
  joined : ∀ task, s.main = .joins task → ∀ t ∈ s.threads, t.task < task → t.phase = .ended
  reported : ∀ report, s.main = .reported report →
    report = reportArm tasks rounds s.acc ∧ ∀ t ∈ s.threads, t.phase = .ended

section Threads

variable {tasks rounds task : ℕ} {s q : State} {owner : Option ℕ} {acc : UInt64} {t : Thread}
  {phase : Phase}

/-- Whoever is not the owner is outside. -/
theorem fine_of_other {other : Option ℕ} {value : UInt64} (fine : Fine rounds owner acc t)
    (outside : owner ≠ some t.task) (still : other ≠ some t.task) : Fine rounds other value t := by
  cases phase : t.phase <;> simp_all [Fine]

/-- A thread takes a step. -/
theorem Inv.set (inv : Inv tasks rounds s) (here : s.threads.find task = some t)
    (active : t.phase ≠ .ended) (own : Fine rounds owner acc ⟨task, phase⟩)
    (others : ∀ u ∈ s.threads, u.task ≠ task → Fine rounds s.owner s.acc u →
      Fine rounds owner acc u)
    (held : ∀ holder, owner = some holder → holder = task ∨ s.owner = some holder) :
    Inv tasks rounds { s.set task phase with owner := owner, acc := acc } := by
  obtain ⟨member, same⟩ := Table.find_eq_some_iff.mp here
  have mem {u : Thread} : u ∈ s.threads.set ⟨task, phase⟩ ↔
      u = ⟨task, phase⟩ ∨ u ∈ s.threads ∧ u.task ≠ task := Table.mem_set here
  refine ⟨fun u there => ?_, fun holder owns => ?_, inv.few, fun other => ?_,
    fun upTo joins u there below => ?_, fun report reports => ?_⟩
  · rcases mem.mp there with rfl | ⟨there, apart⟩
    · exact own
    · exact others u there apart (inv.fine u there)
  · by_cases mine : holder = task
    · exact ⟨_, mem.mpr (.inl rfl), mine.symm⟩
    · obtain ⟨u, there, named⟩ := inv.held holder ((held holder owns).resolve_left mine)
      exact ⟨u, mem.mpr (.inr ⟨there, named ▸ mine⟩), named⟩
  · refine Iff.trans ⟨?_, ?_⟩ (inv.created other)
    · rintro ⟨u, there, named⟩
      rcases mem.mp there with rfl | ⟨there, -⟩
      · exact ⟨t, member, same.trans named⟩
      · exact ⟨u, there, named⟩
    · rintro ⟨u, there, named⟩
      by_cases mine : u.task = task
      · exact ⟨_, mem.mpr (.inl rfl), mine.symm.trans named⟩
      · exact ⟨u, mem.mpr (.inr ⟨there, mine⟩), named⟩
  · rcases mem.mp there with rfl | ⟨there, -⟩
    · exact absurd (inv.joined upTo joins t member (same ▸ below)) active
    · exact inv.joined upTo joins u there below
  · exact absurd ((inv.reported report reports).2 t member) active

/-- What a thread has left is what the table had. -/
theorem view_set (here : s.threads.find task = some t) :
    (State.view tasks rounds { s.set task phase with owner := owner, acc := acc }).left +
        t.left rounds =
      (s.view tasks rounds).left + Thread.left rounds ⟨task, phase⟩ := by
  have sum := Table.sum_set (Thread.left rounds) (a := ⟨task, phase⟩) here
  change (s.threads.set ⟨task, phase⟩).sum _ + unstarted tasks rounds _ + _ =
    s.threads.sum _ + unstarted tasks rounds _ + _
  rw [add_right_comm, sum, add_right_comm]
  rfl

/-- A step that leaves the accumulator leaves what there is to add. -/
theorem adds_of_same (here : s.threads.find task = some t)
    (same : Thread.left rounds ⟨task, phase⟩ = t.left rounds) :
    (s.view tasks rounds).Adds
      (State.view tasks rounds { s.set task phase with owner := owner, acc := s.acc }) := by
  have left : (State.view tasks rounds
      { s.set task phase with owner := owner, acc := s.acc }).left + t.left rounds =
        (s.view tasks rounds).left + Thread.left rounds ⟨task, phase⟩ := view_set here
  rw [same] at left
  exact .inl (congrArg (Fold.mk s.acc) (add_right_cancel left))

/-- A store adds the unit of its round. -/
theorem adds_of_unit (here : s.threads.find task = some t) {u : UInt64} (sum : acc = s.acc + u)
    (cons : t.left rounds = u ::ₘ Thread.left rounds ⟨task, phase⟩) :
    (s.view tasks rounds).Adds
      (State.view tasks rounds { s.set task phase with owner := owner, acc := acc }) := by
  have left : (State.view tasks rounds
      { s.set task phase with owner := owner, acc := acc }).left + t.left rounds =
        (s.view tasks rounds).left + Thread.left rounds ⟨task, phase⟩ := view_set here
  refine .inr ⟨u, ?_, sum⟩
  rw [cons, Multiset.add_cons, ← Multiset.cons_add] at left
  exact (add_right_cancel left).symm

theorem Inv.run (inv : Inv tasks rounds s) (here : s.threads.find task = some t)
    (taken : s.run rounds task t.phase = some q) :
    Inv tasks rounds q ∧ (s.view tasks rounds).Adds (q.view tasks rounds) := by
  obtain ⟨member, rfl⟩ := Table.find_eq_some_iff.mp here
  have fine := inv.fine t member
  rw [Fine] at fine
  cases at' : t.phase with
  | ready round =>
    rw [at'] at fine taken
    simp only [State.run] at taken
    split_ifs at taken with more
    · cases free : s.owner with
      | some holder => simp only [free, reduceCtorEq] at taken
      | none =>
        simp only [free, Option.some.injEq] at taken
        rw [← taken]
        refine ⟨inv.set here (by simp [at']) ⟨rfl, more⟩ (fun u _ other fine => ?_)
          (fun holder owns => .inl (Option.some.inj owns).symm), adds_of_same here ?_⟩
        · exact fine_of_other fine (by simp [free]) fun same => other (Option.some.inj same).symm
        · rw [Thread.left, Thread.left, at']
    · rw [← Option.some.inj taken]
      refine ⟨inv.set here (by simp [at']) fine (fun u _ _ fine => fine) (fun _ owns => .inr owns),
        adds_of_same here ?_⟩
      rw [Thread.left, Thread.left, at']
      exact (unitsFrom_of_le (Nat.le_of_not_lt more)).symm
  | locked round =>
    rw [at'] at fine taken
    rw [← Option.some.inj taken]
    refine ⟨inv.set here (by simp [at']) ⟨fine.1, fine.2, rfl⟩ (fun u _ _ fine => fine)
      (fun _ owns => .inr owns), adds_of_same here ?_⟩
    rw [Thread.left, Thread.left, at']
  | loaded round value =>
    rw [at'] at fine taken
    obtain ⟨owns, more, rfl⟩ := fine
    rw [← Option.some.inj taken]
    refine ⟨inv.set here (by simp [at']) ⟨owns, more⟩ (fun u _ other fine => ?_)
      (fun _ owns => .inr owns), adds_of_unit here rfl ?_⟩
    · have outside : s.owner ≠ some u.task := by
        rw [owns]
        exact fun same => other (Option.some.inj same).symm
      exact fine_of_other fine outside outside
    · rw [Thread.left, Thread.left, at']
      exact unitsFrom_eq_cons more
  | stored round =>
    rw [at'] at fine taken
    rw [← Option.some.inj taken]
    refine ⟨inv.set here (by simp [at']) (by simp [Fine]) (fun u _ other fine' => ?_)
      (fun holder owns => by cases owns), adds_of_same here ?_⟩
    · have outside : s.owner ≠ some u.task := by
        rw [fine.1]
        exact fun same => other (Option.some.inj same).symm
      exact fine_of_other fine' outside (by simp)
    · rw [Thread.left, Thread.left, at']
  | ended =>
    rw [at'] at taken
    cases taken

/-- A new thread takes up the units of its task. -/
theorem unstarted_eq_add (more : task < tasks) :
    unstarted tasks rounds task = unitsFrom rounds task 0 + unstarted tasks rounds (task + 1) := by
  obtain ⟨n, rfl⟩ := Nat.exists_eq_add_of_lt more
  have first : task + n + 1 - task = n + 1 := by omega
  have rest : task + n + 1 - (task + 1) = n := by omega
  rw [unstarted, unstarted, first, rest, List.range'_succ, List.map_cons, List.sum_cons]

theorem Inv.mainStep (inv : Inv tasks rounds s) (taken : s.mainStep tasks rounds = some q) :
    Inv tasks rounds q ∧ (s.view tasks rounds).Adds (q.view tasks rounds) := by
  have created := inv.created
  cases main : s.main with
  | creates task =>
    simp only [State.mainStep, main] at taken
    rw [main] at created
    split_ifs at taken with more fresh
    · rw [← Option.some.inj taken]
      refine ⟨⟨fun u there => ?_, fun holder owns => ?_, more, fun other => ?_,
        fun _ joins => (by cases joins), fun _ reports => (by cases reports)⟩, .inl ?_⟩
      · rcases (Table.mem_insert fresh).mp there with rfl | there
        · -- nobody has the mutex without being there
          intro owns
          obtain ⟨u, there, named⟩ := inv.held task owns
          exact Table.find_eq_none_iff.mp fresh u there named
        · exact inv.fine u there
      · obtain ⟨u, there, named⟩ := inv.held holder owns
        exact ⟨u, (Table.mem_insert fresh).mpr (.inr there), named⟩
      · constructor
        · rintro ⟨u, there, rfl⟩
          rcases (Table.mem_insert fresh).mp there with rfl | there
          · exact Nat.lt_succ_self task
          · exact Nat.lt_succ_of_lt ((created u.task).mp ⟨u, there, rfl⟩)
        · intro below
          rcases Nat.lt_succ_iff_lt_or_eq.mp below with below | rfl
          · obtain ⟨u, there, named⟩ := (created other).mpr below
            exact ⟨u, (Table.mem_insert fresh).mpr (.inr there), named⟩
          · exact ⟨_, (Table.mem_insert fresh).mpr (.inl rfl), rfl⟩
      · have sum := Table.sum_insert (Thread.left rounds) (a := ⟨task, .ready 0⟩) fresh
        have left : s.threads.sum (Thread.left rounds) + unstarted tasks rounds task =
            (s.threads.insert ⟨task, .ready 0⟩ fresh).sum (Thread.left rounds) +
              unstarted tasks rounds (task + 1) := by
          rw [sum, unstarted_eq_add more, Thread.left]
          abel
        rw [State.view, State.view, main]
        exact congrArg (Fold.mk s.acc) left.symm
    · rw [← Option.some.inj taken]
      have all : task = tasks := by
        have few := inv.few
        rw [main] at few
        exact Nat.le_antisymm few (Nat.le_of_not_lt more)
      subst all
      refine ⟨⟨inv.fine, inv.held, Nat.le_refl _, created, fun _ joins t _ below => ?_,
        fun _ reports => (by cases reports)⟩, .inl ?_⟩
      · cases joins
        exact absurd below (Nat.not_lt_zero _)
      · rw [State.view, State.view, main]
        rfl
  | joins task =>
    simp only [State.mainStep, main] at taken
    rw [main] at created
    split_ifs at taken with more ended
    · rw [← Option.some.inj taken]
      refine ⟨⟨inv.fine, inv.held, Nat.le_refl _, created, fun upTo joins t there below => ?_,
        fun _ reports => (by cases reports)⟩, .inl ?_⟩
      · cases joins
        rcases Nat.lt_succ_iff_lt_or_eq.mp below with below | rfl
        · exact inv.joined task main t there below
        · rw [Table.find_eq_some_iff.mpr ⟨there, rfl⟩] at ended
          exact Option.some.inj ended
      · rw [State.view, State.view, main]
        rfl
    · rw [← Option.some.inj taken]
      refine ⟨⟨inv.fine, inv.held, Nat.le_refl _, created, fun _ joins => (by cases joins),
        fun report reports => ?_⟩, .inl ?_⟩
      · cases reports
        refine ⟨rfl, fun t there => inv.joined task main t there ?_⟩
        exact Nat.lt_of_lt_of_le ((created t.task).mp ⟨t, there, rfl⟩) (Nat.le_of_not_lt more)
      · rw [State.view, State.view, main]
        rfl
  | reported report => simp only [State.mainStep, main, reduceCtorEq] at taken

theorem Inv.step {a : Act} (inv : Inv tasks rounds s) (taken : s.step tasks rounds a = some q) :
    Inv tasks rounds q ∧ (s.view tasks rounds).Adds (q.view tasks rounds) := by
  cases a with
  | main => exact inv.mainStep taken
  | thread task =>
    obtain ⟨t, here, runs⟩ := Option.bind_eq_some_iff.mp taken
    exact inv.run here runs

theorem inv_init : Inv tasks rounds (arm tasks rounds).init := by
  refine ⟨fun t there => ?_, fun _ owns => ?_, Nat.zero_le _, fun task => ?_, fun _ joins => ?_,
    fun _ reports => ?_⟩
  · cases there
  · cases owns
  · refine iff_of_false ?_ (Nat.not_lt_zero _)
    rintro ⟨t, there, -⟩
    cases there
  · cases joins
  · cases reports

end Threads

theorem total_init (tasks rounds : ℕ) :
    ((arm tasks rounds).init.view tasks rounds).total = expectedTotal tasks rounds := by
  rw [expectedTotal_eq_sum, allUnits, List.range_eq_range']
  exact (zero_add _).trans (congrArg Multiset.sum (zero_add _))

/-- Every run is one of the abstract machine, so every report is right. -/
theorem report_correct (tasks rounds : ℕ) (acts : List Act) (s : State) (report : Report)
    (run : (arm tasks rounds).run? acts = some s) (reported : s.main = .reported report) :
    report = ⟨tasks * rounds, expectedTotal tasks rounds, true⟩ := by
  obtain ⟨inv, total⟩ : Inv tasks rounds s ∧
      (s.view tasks rounds).total = ((arm tasks rounds).init.view tasks rounds).total :=
    Machine.total_of_run (m := arm tasks rounds) (fun s a t kept taken => Inv.step kept taken)
      inv_init run
  obtain ⟨rfl, ended⟩ := inv.reported report reported
  have left : (s.view tasks rounds).left = 0 := by
    have threads : s.threads.sum (Thread.left rounds) = 0 :=
      Table.sum_eq_zero fun t there => by rw [Thread.left, ended t there]
    have nobody : unstarted tasks rounds tasks = 0 := by
      rw [unstarted, Nat.sub_self]
      rfl
    rw [State.view, threads, reported]
    exact (zero_add _).trans nobody
  exact reportArm_of_total (f := s.view tasks rounds) (total.trans (total_init tasks rounds)) left

/-- Two tasks of one round, where the second overtakes. -/
theorem report_correct_two :
    ∃ s report, (arm 2 1).run? [.main, .main, .main, .thread 1, .thread 1, .thread 1, .thread 1,
        .thread 1, .thread 0, .thread 0, .thread 0, .thread 0, .thread 0, .main, .main, .main] =
          some s ∧ s.main = .reported report ∧ report = ⟨2 * 1, expectedTotal 2 1, true⟩ := by
  obtain ⟨s, run, reported⟩ : ∃ s, (arm 2 1).run? [.main, .main, .main, .thread 1, .thread 1,
      .thread 1, .thread 1, .thread 1, .thread 0, .thread 0, .thread 0, .thread 0, .thread 0, .main,
      .main, .main] = some s ∧ ∃ report, s.main = .reported report := ⟨_, rfl, _, rfl⟩
  obtain ⟨report, reported⟩ := reported
  exact ⟨s, report, run, reported, report_correct 2 1 _ s report run reported⟩

/-! That it reports. -/

def Thread.rank (rounds : ℕ) (t : Thread) : ℕ :=
  match t.phase with
  | .ready round => 4 * (rounds - round) + 1
  | .locked round => 4 * (rounds - round)
  | .loaded round _ => 4 * (rounds - round) - 1
  | .stored round => 4 * (rounds - round) - 2
  | .ended => 0

def Main.rank (tasks rounds : ℕ) : Main → ℕ
  | .creates task => (tasks - task) * (4 * rounds + 2) + tasks + 2
  | .joins task => tasks - task + 1
  | .reported _ => 0

def State.rank (tasks rounds : ℕ) (s : State) : ℕ :=
  s.main.rank tasks rounds + s.threads.sum (Thread.rank rounds)

section Progress

variable {tasks rounds task : ℕ} {s q : State} {t : Thread}

theorem rank_set {owner : Option ℕ} {acc : UInt64} {phase : Phase}
    (here : s.threads.find task = some t)
    (less : Thread.rank rounds ⟨task, phase⟩ < t.rank rounds) :
    State.rank tasks rounds { s.set task phase with owner := owner, acc := acc } <
      s.rank tasks rounds := by
  have sum := Table.sum_set (Thread.rank rounds) (a := ⟨task, phase⟩) here
  change s.main.rank tasks rounds + (s.threads.set ⟨task, phase⟩).sum _ <
    s.main.rank tasks rounds + s.threads.sum _
  omega

theorem rank_of_run (inv : Inv tasks rounds s) (here : s.threads.find task = some t)
    (taken : s.run rounds task t.phase = some q) : q.rank tasks rounds < s.rank tasks rounds := by
  obtain ⟨member, rfl⟩ := Table.find_eq_some_iff.mp here
  have fine := inv.fine t member
  rw [Fine] at fine
  cases at' : t.phase with
  | ready round =>
    rw [at'] at taken
    simp only [State.run] at taken
    split_ifs at taken with more
    · cases free : s.owner with
      | some holder => simp only [free, reduceCtorEq] at taken
      | none =>
        simp only [free, Option.some.injEq] at taken
        rw [← taken]
        refine rank_set here ?_
        simp only [Thread.rank, at']
        omega
    · rw [← Option.some.inj taken]
      refine rank_set here ?_
      simp only [Thread.rank, at']
      omega
  | locked round | loaded round _ | stored round =>
    rw [at'] at fine taken
    simp only at fine
    rw [← Option.some.inj taken]
    refine rank_set here ?_
    simp only [Thread.rank, at']
    omega
  | ended =>
    rw [at'] at taken
    cases taken

theorem rank_of_mainStep (taken : s.mainStep tasks rounds = some q) :
    q.rank tasks rounds < s.rank tasks rounds := by
  cases main : s.main with
  | creates task =>
    simp only [State.mainStep, main] at taken
    split_ifs at taken with more fresh
    · rw [← Option.some.inj taken]
      have sum := Table.sum_insert (Thread.rank rounds) (a := ⟨task, .ready 0⟩) fresh
      obtain ⟨n, rfl⟩ := Nat.exists_eq_add_of_lt more
      have first : task + n + 1 - task = n + 1 := by omega
      have rest : task + n + 1 - (task + 1) = n := by omega
      simp only [State.rank, main, Main.rank, sum, first, rest, Thread.rank, Nat.add_mul]
      omega
    · rw [← Option.some.inj taken]
      simp only [State.rank, main, Main.rank]
      omega
  | joins task =>
    simp only [State.mainStep, main] at taken
    split_ifs at taken with more ended
    · rw [← Option.some.inj taken]
      simp only [State.rank, main, Main.rank]
      omega
    · rw [← Option.some.inj taken]
      simp only [State.rank, main, Main.rank]
      omega
  | reported report => simp only [State.mainStep, main, reduceCtorEq] at taken

/-- The thread with the mutex goes on. -/
theorem holder_runs (inv : Inv tasks rounds s) {holder : ℕ} (owns : s.owner = some holder) :
    ∃ a, (s.step tasks rounds a).isSome := by
  obtain ⟨u, there, rfl⟩ := inv.held holder owns
  have fine := inv.fine u there
  refine ⟨.thread u.task, ?_⟩
  rw [State.step, Table.find_eq_some_iff.mpr ⟨there, rfl⟩, Option.bind_some]
  cases phase : u.phase <;> simp_all [Fine, State.run]

theorem exists_step (inv : Inv tasks rounds s) (short : ∀ report, s.main ≠ .reported report) :
    ∃ a, (s.step tasks rounds a).isSome := by
  cases main : s.main with
  | creates task =>
    refine ⟨.main, ?_⟩
    have fresh : s.threads.find task = none := by
      refine Table.find_eq_none_iff.mpr fun t there same => ?_
      have below := (inv.created task).mp ⟨t, there, same⟩
      rw [main] at below
      exact absurd below (Nat.lt_irrefl task)
    simp only [State.step, State.mainStep, main]
    split_ifs <;> rfl
  | joins task =>
    by_cases more : task < tasks
    · obtain ⟨t, there, rfl⟩ := (inv.created task).mpr (by rw [main]; exact more)
      have here := Table.find_eq_some_iff.mpr ⟨there, rfl⟩
      cases phase : t.phase with
      | ended =>
        refine ⟨.main, ?_⟩
        simp [State.step, State.mainStep, main, more, here, phase]
      | ready round =>
        cases owner : s.owner with
        | some holder => exact holder_runs inv owner
        | none =>
          refine ⟨.thread t.task, ?_⟩
          rw [State.step, here, Option.bind_some, phase, State.run, owner]
          split_ifs <;> rfl
      | locked | loaded | stored =>
        refine ⟨.thread t.task, ?_⟩
        rw [State.step, here, Option.bind_some, phase]
        rfl
    · refine ⟨.main, ?_⟩
      simp [State.step, State.mainStep, main, more]
  | reported report => exact absurd main (short report)

end Progress

/-- No run is longer than the bound, and none stops before the report. -/
theorem report_reached (tasks rounds : ℕ) (acts : List Act) (s : State)
    (run : (arm tasks rounds).run? acts = some s) :
    acts.length ≤ tasks * (4 * rounds + 2) + tasks + 2 ∧
      ((∀ report, s.main ≠ .reported report) →
        ∃ a, ((arm tasks rounds).step s a).isSome) := by
  have falls (s : State) (a : Act) (q : State) (inv : Inv tasks rounds s)
      (taken : (arm tasks rounds).step s a = some q) :
      Inv tasks rounds q ∧ q.rank tasks rounds + (if true then 1 else 0) ≤ s.rank tasks rounds := by
    refine ⟨(inv.step taken).1, ?_⟩
    cases a with
    | main => exact rank_of_mainStep taken
    | thread task =>
      obtain ⟨t, here, runs⟩ := Option.bind_eq_some_iff.mp taken
      exact rank_of_run inv here runs
  obtain ⟨inv, count⟩ := Machine.count_le_measure (State.rank tasks rounds) falls inv_init run
  refine ⟨?_, exists_step inv⟩
  have start : (arm tasks rounds).init.rank tasks rounds =
      tasks * (4 * rounds + 2) + tasks + 2 := rfl
  rw [List.filter_true] at count
  omega

/-- A main thread that has created one of two. -/
theorem report_reached_one :
    ∃ s, (arm 2 1).run? [.main] = some s ∧ [Act.main].length ≤ 2 * (4 * 1 + 2) + 2 + 2 ∧
      ((∀ report, s.main ≠ .reported report) → ∃ a, ((arm 2 1).step s a).isSome) := by
  obtain ⟨s, run⟩ : ∃ s, (arm 2 1).run? [.main] = some s := ⟨_, rfl⟩
  exact ⟨s, run, report_reached 2 1 _ s run⟩

end Locked

end LinuxSys.Capstone
