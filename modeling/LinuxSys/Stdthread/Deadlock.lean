import LinuxSys.Lib.BackOff

/-! # Two mutexes in opposing orders

The two deadlock cases of `stdthread` (ch51). `deadlock-safe` takes both mutexes by one
`std::scoped_lock`, which tries, backs off and retries; the standard leaves open in which order.
`deadlock-naive` takes them one after the other by two `std::lock_guard`s.
-/

namespace LinuxSys.Stdthread

open Lib

inductive Worker where
  | t1
  | t2
deriving DecidableEq, Repr

instance : Fintype Worker := ⟨{.t1, .t2}, fun t => by cases t <;> decide⟩

inductive Mutex where
  | a
  | b
deriving DecidableEq, Repr

/-- The mutexes as the threads name them. -/
def order : Worker → List Mutex
  | .t1 => [.a, .b]
  | .t2 => [.b, .a]

def caseDeadlockSafe (iters : ℕ) : BackOff Worker Mutex where
  wants := order
  rounds _ := iters
  nonempty t := by cases t <;> decide
  nodup t := by cases t <;> decide

/-- Wherever the two threads are, they can still return, and `done` is then the expected number; and
never do both have the two mutexes. -/
theorem deadlockSafe_of_run {iters : ℕ} {acts : List (BackOff.Act Worker Mutex)}
    {s : BackOff.State Worker Mutex}
    (run : (caseDeadlockSafe iters).machine.run? acts = some s) :
    (∃ more t, (caseDeadlockSafe iters).machine.runFrom? s more = some t ∧ t.Over ∧
        t.done = 2 * iters) ∧
      (s.Over → s.done = 2 * iters) ∧
      ∀ left held more mine, s.phase .t1 = .trying left held [] →
        s.phase .t2 ≠ .trying more mine [] := by
  have inv := BackOff.inv_of_run run
  have total : ∑ t, (caseDeadlockSafe iters).rounds t = 2 * iters := by
    change ∑ t : Worker, iters = 2 * iters
    rw [Finset.sum_const]
    rfl
  refine ⟨?_, fun ended => (inv.done_of_over ended).trans total, fun left held more mine through =>
    inv.exclusive (by decide) (show Mutex.a ∈ order .t1 by decide)
      (show Mutex.a ∈ order .t2 by decide) through⟩
  obtain ⟨rest, t, reached, last, ended⟩ := inv.exists_over
  exact ⟨rest, t, reached, ended, (last.done_of_over ended).trans total⟩

/-- Each thread gets its first mutex before the other tries it. -/
def crossed : List (BackOff.Act Worker Mutex) :=
  [.choose .t1 .a, .lock .t1, .choose .t2 .b, .lock .t2]

theorem deadlockSafe_of_run_crossed : ∃ s, (caseDeadlockSafe 50000).machine.run? crossed = some s ∧
    s.owner .a = some .t1 ∧ s.owner .b = some .t2 ∧ ∃ more t,
      (caseDeadlockSafe 50000).machine.runFrom? s more = some t ∧ t.Over ∧ t.done = 2 * 50000 := by
  refine ⟨_, rfl, rfl, rfl, ?_⟩
  have run : (caseDeadlockSafe 50000).machine.run? crossed = some _ := rfl
  exact (deadlockSafe_of_run run).1

namespace Naive

/-- Where a thread of `case_deadlock_naive` stands in its loop. -/
inductive Phase where
  | head
  | one
  | both
  | closing
deriving DecidableEq, Repr

structure State where
  phase : Worker → Phase
  owner : Mutex → Option Worker

def first : Worker → Mutex
  | .t1 => .a
  | .t2 => .b

def second : Worker → Mutex
  | .t1 => .b
  | .t2 => .a

def State.goto (s : State) (t : Worker) (phase : Phase) (m : Mutex) (owner : Option Worker) :
    State :=
  ⟨Function.update s.phase t phase, Function.update s.owner m owner⟩

/-- The next operation of a thread: it locks, or a guard unlocks. -/
def step (s : State) (t : Worker) : Option State :=
  match s.phase t with
  | .head => if s.owner (first t) = none then some (s.goto t .one (first t) (some t)) else none
  | .one => if s.owner (second t) = none then some (s.goto t .both (second t) (some t)) else none
  | .both => some (s.goto t .closing (second t) none)
  | .closing => some (s.goto t .head (first t) none)

def machine : Machine State Worker := ⟨⟨fun _ => .head, fun _ => none⟩, step⟩

/-- Nobody can go on. -/
def Stuck (s : State) : Prop := ∀ t, step s t = none

def held (t : Worker) : Phase → List Mutex
  | .head => []
  | .one => [first t]
  | .both => [first t, second t]
  | .closing => [first t]

def Inv (s : State) : Prop := ∀ m t, s.owner m = some t ↔ m ∈ held t (s.phase t)

section Steps

variable {s s' : State} {t : Worker}

theorem first_ne_second (t : Worker) : first t ≠ second t := by cases t <;> decide

/-- A thread locks or unlocks a mutex that no other one has. -/
theorem Inv.goto {phase : Phase} {m : Mutex} {owner : Option Worker} (inv : Inv s)
    (alone : ∀ u, s.owner m = some u → u = t)
    (mine : ∀ u, owner = some u ↔ u = t ∧ m ∈ held t phase)
    (rest : ∀ n, n ≠ m → (n ∈ held t phase ↔ n ∈ held t (s.phase t))) :
    Inv (s.goto t phase m owner) := by
  intro n u
  have owned := inv n u
  by_cases here : n = m
  · subst here
    by_cases same : u = t
    · subst same
      simpa [State.goto] using mine u
    · have not : s.owner n ≠ some u := fun other => same (alone u other)
      have gone : owner ≠ some u := fun other => same ((mine u).mp other).1
      simpa [State.goto, Function.update_of_ne same, gone] using fun has => not (owned.mpr has)
  · by_cases same : u = t
    · subst same
      simpa [State.goto, Function.update_of_ne here, rest n here] using owned
    · simpa [State.goto, Function.update_of_ne here, Function.update_of_ne same] using owned

theorem Inv.step (inv : Inv s) (taken : step s t = some s') : Inv s' := by
  have distinct := first_ne_second t
  rw [Naive.step] at taken
  cases here : s.phase t with
  | head =>
    simp only [here] at taken
    split_ifs at taken with free
    obtain rfl := Option.some.inj taken
    refine inv.goto (fun u other => ?_) (fun u => ?_) fun n other => ?_
    · cases free.symm.trans other
    · simp [held, eq_comm]
    · simp [held, here, other]
  | one =>
    simp only [here] at taken
    split_ifs at taken with free
    obtain rfl := Option.some.inj taken
    refine inv.goto (fun u other => ?_) (fun u => ?_) fun n other => ?_
    · cases free.symm.trans other
    · simp [held, eq_comm]
    · simp [held, here, other]
  | both =>
    simp only [here] at taken
    obtain rfl := Option.some.inj taken
    have has : s.owner (second t) = some t := (inv _ _).mpr (by simp [held, here])
    refine inv.goto (fun u other => ?_) (fun u => ?_) fun n other => ?_
    · exact Option.some.inj (other.symm.trans has)
    · simp [held, distinct.symm]
    · simp [held, here, other]
  | closing =>
    simp only [here] at taken
    obtain rfl := Option.some.inj taken
    have has : s.owner (first t) = some t := (inv _ _).mpr (by simp [held, here])
    refine inv.goto (fun u other => ?_) (fun u => ?_) fun n other => ?_
    · exact Option.some.inj (other.symm.trans has)
    · simp [held]
    · simp [held, here, other]

theorem inv_of_run {acts : List Worker} (run : machine.run? acts = some s) : Inv s := by
  refine Machine.run?_keeps (fun m t => ?_) (fun s t s' inv (taken : Naive.step s t = some s') =>
    Inv.step inv taken) run
  simp [machine, held]

end Steps

end Naive

end LinuxSys.Stdthread
