import LinuxSys.Capstone.Workload
import LinuxSys.Lib.Progress
import LinuxSys.Lib.Table

/-! # The arms of capstone ch56 without a mutex

Coroutines and fibers keep the accumulator to themselves between two suspensions. The handlers of a
strand run on any of the threads, but never two at a time.
-/

namespace LinuxSys.Capstone

open Lib

/-! Coroutines. -/

/-- A coroutine or fiber waits in front of a round, or has run to its end. -/
inductive Frame where
  | suspended (round : ℕ)
  | final
deriving DecidableEq, Repr

structure FoldTask where
  task : ℕ
  frame : Frame
deriving DecidableEq, Repr

namespace FoldTask

variable (rounds : ℕ) (f : FoldTask)

def done : Bool := f.frame = .final

/-- The body up to the next suspension. -/
def resume (acc : UInt64) : FoldTask × UInt64 :=
  match f.frame with
  | .suspended round =>
    if round < rounds then (⟨f.task, .suspended (round + 1)⟩, acc + unit f.task round)
    else (⟨f.task, .final⟩, acc)
  | .final => (f, acc)

/-- What a task still has to add. -/
def left : Multiset UInt64 :=
  match f.frame with
  | .suspended round => unitsFrom rounds f.task round
  | .final => 0

/-- How often a task can be resumed. -/
def rank : ℕ :=
  match f.frame with
  | .suspended round => rounds - round + 1
  | .final => 0

end FoldTask

/-- One pass of the scheduler over the tasks, and whether it has resumed one. -/
def resumeAll (rounds : ℕ) : List FoldTask → UInt64 → List FoldTask × UInt64 × Bool
  | [], acc => ([], acc, false)
  | f :: rest, acc =>
    if f.done then
      let (rest, acc, progressed) := resumeAll rounds rest acc
      (f :: rest, acc, progressed)
    else
      let (f, acc) := f.resume rounds acc
      let (rest, acc, _) := resumeAll rounds rest acc
      (f :: rest, acc, true)

/-- `while (progressed)`. -/
def schedule (rounds : ℕ) : ℕ → List FoldTask → UInt64 → Option UInt64
  | 0, _, _ => none
  | fuel + 1, tasks, acc =>
    let (tasks, acc, progressed) := resumeAll rounds tasks acc
    if progressed then schedule rounds fuel tasks acc else some acc

def armCoroutine (tasks rounds fuel : ℕ) : Option Report :=
  (schedule rounds fuel ((List.range tasks).map fun t => ⟨t, .suspended 0⟩) 0).map
    (reportArm tasks rounds)

section Coroutine

variable {rounds : ℕ} {f : FoldTask}

def leftOf (rounds : ℕ) (tasks : List FoldTask) : Multiset UInt64 :=
  (tasks.map (FoldTask.left rounds)).sum

theorem adds_of_resume (rounds : ℕ) (acc : UInt64) :
    (Fold.mk acc (f.left rounds)).Adds
      ⟨(f.resume rounds acc).2, (f.resume rounds acc).1.left rounds⟩ := by
  obtain ⟨task, frame⟩ := f
  cases frame with
  | suspended round =>
    by_cases more : round < rounds
    · refine .inr ⟨unit task round, ?_, ?_⟩
      · simp only [FoldTask.left, FoldTask.resume, if_pos more]
        exact unitsFrom_eq_cons more
      · simp only [FoldTask.resume, if_pos more]
    · refine .inl ?_
      simp only [FoldTask.left, FoldTask.resume, if_neg more,
        unitsFrom_of_le (Nat.le_of_not_lt more)]
  | final => exact .inl rfl

theorem total_of_resume (acc : UInt64) :
    (f.resume rounds acc).2 + ((f.resume rounds acc).1.left rounds).sum =
      acc + (f.left rounds).sum :=
  Fold.total_of_adds (adds_of_resume rounds acc)

theorem rank_of_resume (rounds : ℕ) (active : f.done = false) (acc : UInt64) :
    (f.resume rounds acc).1.rank rounds + 1 = f.rank rounds := by
  obtain ⟨task, frame⟩ := f
  cases frame with
  | suspended round =>
    by_cases more : round < rounds
    · simp only [FoldTask.rank, FoldTask.resume, if_pos more]
      omega
    · simp only [FoldTask.rank, FoldTask.resume, if_neg more]
      omega
  | final => cases active

theorem rank_eq_zero_iff : f.rank rounds = 0 ↔ f.done := by
  obtain ⟨task, frame⟩ := f
  cases frame with
  | suspended round => simp [FoldTask.rank, FoldTask.done]
  | final => simp [FoldTask.rank, FoldTask.done]

theorem left_of_done (done : f.done) : f.left rounds = 0 := by
  obtain ⟨task, frame⟩ := f
  cases frame with
  | suspended round => cases done
  | final => rfl

theorem leftOf_eq_zero {tasks : List FoldTask} (below : ∀ f ∈ tasks, f.rank rounds ≤ 0) :
    leftOf rounds tasks = 0 := by
  refine List.sum_eq_zero fun units member => ?_
  obtain ⟨f, there, rfl⟩ := List.mem_map.mp member
  exact left_of_done (rank_eq_zero_iff.mp (Nat.le_zero.mp (below f there)))

/-- A pass keeps the total, resumes every task that is not done, and resumes none if all are. -/
theorem resumeAll_spec (rounds : ℕ) (tasks : List FoldTask) (acc : UInt64) :
    (resumeAll rounds tasks acc).2.1 + (leftOf rounds (resumeAll rounds tasks acc).1).sum =
        acc + (leftOf rounds tasks).sum ∧
      (∀ n, (∀ f ∈ tasks, f.rank rounds ≤ n + 1) →
        ∀ f ∈ (resumeAll rounds tasks acc).1, f.rank rounds ≤ n) ∧
      ((resumeAll rounds tasks acc).2.2 = false ↔ ∀ f ∈ tasks, f.done) := by
  induction tasks generalizing acc with
  | nil => exact ⟨rfl, fun _ _ _ member => (by cases member), by simp [resumeAll]⟩
  | cons f rest ih =>
    have cons (f : FoldTask) (l : List FoldTask) :
        (leftOf rounds (f :: l)).sum = (f.left rounds).sum + (leftOf rounds l).sum := by
      rw [leftOf, List.map_cons, List.sum_cons, Multiset.sum_add]
      rfl
    cases done : f.done with
    | true =>
      obtain ⟨total, rank, quiet⟩ := ih acc
      have pass : resumeAll rounds (f :: rest) acc =
          (f :: (resumeAll rounds rest acc).1, (resumeAll rounds rest acc).2) := by
        rw [resumeAll, if_pos done]
      rw [pass]
      refine ⟨?_, fun n below g member => ?_, ?_⟩
      · simp only [cons, left_of_done done, Multiset.sum_zero, zero_add]
        exact total
      · rcases List.mem_cons.mp member with rfl | member
        · rw [rank_eq_zero_iff.mpr done]
          exact Nat.zero_le n
        · exact rank n (fun h there => below h (List.mem_cons_of_mem f there)) g member
      · rw [List.forall_mem_cons, and_iff_right done]
        exact quiet
    | false =>
      obtain ⟨total, rank, -⟩ := ih (f.resume rounds acc).2
      have pass : resumeAll rounds (f :: rest) acc =
          ((f.resume rounds acc).1 :: (resumeAll rounds rest (f.resume rounds acc).2).1,
            (resumeAll rounds rest (f.resume rounds acc).2).2.1, true) := by
        rw [resumeAll, if_neg (by simp [done])]
      rw [pass]
      refine ⟨?_, fun n below g member => ?_, ?_⟩
      · simp only [cons]
        rw [add_left_comm, total, ← add_assoc, add_comm (Multiset.sum _), total_of_resume, add_assoc]
      · rcases List.mem_cons.mp member with rfl | member
        · have falls := rank_of_resume rounds done acc
          have top := below f List.mem_cons_self
          omega
        · exact rank n (fun h there => below h (List.mem_cons_of_mem f there)) g member
      · refine iff_of_false (by simp) fun all => ?_
        exact absurd (done.symm.trans (all f List.mem_cons_self)) Bool.false_ne_true

theorem schedule_succ (fuel : ℕ) (tasks : List FoldTask) (acc : UInt64) :
    schedule rounds (fuel + 1) tasks acc =
      if (resumeAll rounds tasks acc).2.2 then
        schedule rounds fuel (resumeAll rounds tasks acc).1 (resumeAll rounds tasks acc).2.1
      else some (resumeAll rounds tasks acc).2.1 := rfl

theorem schedule_of_done (fuel : ℕ) {tasks : List FoldTask} (done : ∀ f ∈ tasks, f.done)
    (acc : UInt64) :
    schedule rounds (fuel + 1) tasks acc = some (acc + (leftOf rounds tasks).sum) := by
  obtain ⟨total, rank, quiet⟩ := resumeAll_spec rounds tasks acc
  have below : ∀ f ∈ tasks, f.rank rounds ≤ 0 + 1 := fun f there => by
    rw [rank_eq_zero_iff.mpr (done f there)]
    exact Nat.zero_le _
  rw [leftOf_eq_zero (rank 0 below), Multiset.sum_zero, add_zero] at total
  rw [schedule_succ, if_neg (by rw [quiet.mpr done]; exact Bool.false_ne_true), total]

/-- Every pass lowers the ranks until all tasks are done. -/
theorem schedule_eq_some (n extra : ℕ) (tasks : List FoldTask) (acc : UInt64)
    (below : ∀ f ∈ tasks, f.rank rounds ≤ n) :
    schedule rounds (n + 1 + extra) tasks acc = some (acc + (leftOf rounds tasks).sum) := by
  induction n generalizing tasks acc with
  | zero =>
    rw [Nat.zero_add, Nat.add_comm]
    exact schedule_of_done extra
      (fun f there => rank_eq_zero_iff.mp (Nat.le_zero.mp (below f there))) acc
  | succ n ih =>
    obtain ⟨total, rank, quiet⟩ := resumeAll_spec rounds tasks acc
    have fuel : n + 1 + 1 + extra = (n + 1 + extra) + 1 := by omega
    rw [fuel]
    cases progressed : (resumeAll rounds tasks acc).2.2 with
    | true => rw [schedule_succ, if_pos progressed, ih _ _ (rank n below), total]
    | false => exact schedule_of_done _ (quiet.mp progressed) acc

end Coroutine

/-- The scheduler stops after `rounds + 2` passes, with the units of every task in its total. -/
theorem armCoroutine_eq (tasks rounds extra : ℕ) :
    armCoroutine tasks rounds (rounds + 2 + extra) =
      some ⟨tasks * rounds, expectedTotal tasks rounds, true⟩ := by
  have below : ∀ f ∈ (List.range tasks).map fun t => FoldTask.mk t (.suspended 0),
      f.rank rounds ≤ rounds + 1 := by
    intro f there
    obtain ⟨t, -, rfl⟩ := List.mem_map.mp there
    exact Nat.le_refl _
  have all : leftOf rounds ((List.range tasks).map fun t => FoldTask.mk t (.suspended 0)) =
      allUnits tasks rounds := by
    rw [leftOf, List.map_map]
    rfl
  rw [armCoroutine, schedule_eq_some (rounds + 1) extra _ 0 below, all, zero_add,
    ← expectedTotal_eq_sum, Option.map_some, reportArm, decide_eq_true rfl]

/-! Fibers. -/

namespace Fiber

/-- The main fiber joins the others in order; while it waits, any of them is resumed. -/
inductive Main where
  | joins (task : ℕ)
  | reported (report : Report)
deriving DecidableEq, Repr

structure State where
  acc : UInt64
  fibers : Table FoldTask.task
  main : Main
deriving DecidableEq

inductive Act where
  | main
  | fiber (task : ℕ)
deriving DecidableEq, Repr

/-- The fibers as they are launched. -/
def launched (tasks : ℕ) : Table FoldTask.task where
  entries := (List.range tasks).map fun t => ⟨t, .suspended 0⟩
  nodup := by
    rw [List.map_map]
    exact (List.map_id _).symm ▸ List.nodup_range

def State.step (tasks rounds : ℕ) (s : State) : Act → Option State
  | .main =>
    match s.main with
    | .joins task =>
      if task < tasks then
        if (s.fibers.find task).map FoldTask.done = some true then
          some { s with main := .joins (task + 1) }
        else none
      else some { s with main := .reported (reportArm tasks rounds s.acc) }
    | .reported _ => none
  | .fiber task =>
    match s.main, s.fibers.find task with
    | .joins _, some f =>
      if f.done then none
      else some { s with
        fibers := s.fibers.set (f.resume rounds s.acc).1
        acc := (f.resume rounds s.acc).2 }
    | _, _ => none

def arm (tasks rounds : ℕ) : Machine State Act :=
  ⟨⟨0, launched tasks, .joins 0⟩, fun s a => s.step tasks rounds a⟩

def State.view (rounds : ℕ) (s : State) : Fold UInt64 :=
  ⟨s.acc, s.fibers.sum (FoldTask.left rounds)⟩

structure Inv (tasks rounds : ℕ) (s : State) : Prop where
  launched : ∀ task, (∃ f ∈ s.fibers, f.task = task) ↔ task < tasks
  joined : ∀ task, s.main = .joins task → ∀ f ∈ s.fibers, f.task < task → f.done
  reported : ∀ report, s.main = .reported report →
    report = reportArm tasks rounds s.acc ∧ ∀ f ∈ s.fibers, f.done

section Steps

variable {tasks rounds task : ℕ} {s q : State}

theorem task_resume (rounds : ℕ) (f : FoldTask) (acc : UInt64) :
    (f.resume rounds acc).1.task = f.task := by
  obtain ⟨task, frame⟩ := f
  cases frame with
  | suspended round =>
    simp only [FoldTask.resume]
    split_ifs <;> rfl
  | final => rfl

theorem inv_init : Inv tasks rounds (arm tasks rounds).init := by
  refine ⟨fun task => ⟨?_, fun below => ?_⟩, fun _ joins _ _ below => ?_, fun _ reports => ?_⟩
  · rintro ⟨f, there, rfl⟩
    obtain ⟨t, below, rfl⟩ := List.mem_map.mp there
    exact List.mem_range.mp below
  · exact ⟨⟨task, .suspended 0⟩, List.mem_map.mpr ⟨task, List.mem_range.mpr below, rfl⟩, rfl⟩
  · cases joins
    exact absurd below (Nat.not_lt_zero _)
  · cases reports

/-- A fiber is resumed while the main fiber waits. -/
theorem Inv.fiber {f : FoldTask} (inv : Inv tasks rounds s) {upTo : ℕ} (main : s.main = .joins upTo)
    (here : s.fibers.find task = some f) (active : f.done = false) :
    Inv tasks rounds { s with
      fibers := s.fibers.set (f.resume rounds s.acc).1
      acc := (f.resume rounds s.acc).2 } := by
  obtain ⟨member, rfl⟩ := Table.find_eq_some_iff.mp here
  have same := task_resume rounds f s.acc
  rw [← same] at here
  refine ⟨fun other => Iff.trans ⟨?_, ?_⟩ (inv.launched other), fun k joins g there below => ?_,
    fun _ reports => ?_⟩
  · rintro ⟨g, there, rfl⟩
    rcases (Table.mem_set here).mp there with rfl | ⟨there, -⟩
    · exact ⟨f, member, same.symm⟩
    · exact ⟨g, there, rfl⟩
  · rintro ⟨g, there, rfl⟩
    by_cases mine : g.task = f.task
    · exact ⟨_, (Table.mem_set here).mpr (.inl rfl), same.trans mine.symm⟩
    · exact ⟨g, (Table.mem_set here).mpr (.inr ⟨there, same ▸ mine⟩), rfl⟩
  · rcases (Table.mem_set here).mp there with rfl | ⟨there, -⟩
    · have done := inv.joined k joins f member (same ▸ below)
      rw [active] at done
      cases done
    · exact inv.joined k joins g there below
  · cases main.symm.trans reports

theorem adds_of_fiber {f : FoldTask} (here : s.fibers.find task = some f) :
    (s.view rounds).Adds (State.view rounds { s with
      fibers := s.fibers.set (f.resume rounds s.acc).1
      acc := (f.resume rounds s.acc).2 }) := by
  obtain ⟨-, rfl⟩ := Table.find_eq_some_iff.mp here
  rw [← task_resume rounds f s.acc] at here
  have sum := Table.sum_set (FoldTask.left rounds) here
  rcases adds_of_resume rounds (f := f) s.acc with same | ⟨u, left, acc⟩
  · obtain ⟨acc, left⟩ := Fold.mk.inj same
    rw [left] at sum
    exact .inl (congrArg₂ Fold.mk acc (add_right_cancel sum))
  · dsimp only at left acc
    refine .inr ⟨u, ?_, acc⟩
    rw [left, Multiset.add_cons, ← Multiset.cons_add] at sum
    exact (add_right_cancel sum).symm

theorem Inv.step {a : Act} (inv : Inv tasks rounds s) (taken : s.step tasks rounds a = some q) :
    Inv tasks rounds q ∧ (s.view rounds).Adds (q.view rounds) := by
  cases main : s.main with
  | reported report => cases a <;> simp [State.step, main] at taken
  | joins upTo =>
    cases a with
    | fiber task =>
      cases here : s.fibers.find task with
      | none => simp [State.step, main, here] at taken
      | some f =>
        simp only [State.step, main, here] at taken
        split_ifs at taken with active
        rw [← Option.some.inj taken, ← main]
        exact ⟨inv.fiber main here (by simpa using active), adds_of_fiber here⟩
    | main =>
      simp only [State.step, main] at taken
      split_ifs at taken with more ended
      · rw [← Option.some.inj taken]
        refine ⟨⟨inv.launched, fun k joins f there below => ?_, fun _ reports => (by cases reports)⟩,
          .inl rfl⟩
        cases joins
        rcases Nat.lt_succ_iff_lt_or_eq.mp below with below | rfl
        · exact inv.joined upTo main f there below
        · rw [Table.find_eq_some_iff.mpr ⟨there, rfl⟩] at ended
          exact Option.some.inj ended
      · rw [← Option.some.inj taken]
        refine ⟨⟨inv.launched, fun _ joins => (by cases joins), fun report reports => ?_⟩, .inl rfl⟩
        cases reports
        refine ⟨rfl, fun f there => inv.joined upTo main f there ?_⟩
        exact Nat.lt_of_lt_of_le ((inv.launched f.task).mp ⟨f, there, rfl⟩) (Nat.le_of_not_lt more)

theorem total_init (tasks rounds : ℕ) :
    ((arm tasks rounds).init.view rounds).total = expectedTotal tasks rounds := by
  have all : (launched tasks).sum (FoldTask.left rounds) = allUnits tasks rounds := by
    rw [Table.sum, launched, List.map_map]
    rfl
  rw [expectedTotal_eq_sum, ← all]
  exact zero_add _

end Steps

def Main.rank (tasks : ℕ) : Main → ℕ
  | .joins task => tasks - task + 1
  | .reported _ => 0

def State.rank (tasks rounds : ℕ) (s : State) : ℕ :=
  s.main.rank tasks + s.fibers.sum (FoldTask.rank rounds)

section Progress

variable {tasks rounds : ℕ} {s q : State} {a : Act}

theorem rank_of_step (taken : s.step tasks rounds a = some q) :
    q.rank tasks rounds < s.rank tasks rounds := by
  cases main : s.main with
  | reported report => cases a <;> simp [State.step, main] at taken
  | joins upTo =>
    cases a with
    | fiber task =>
      cases here : s.fibers.find task with
      | none => simp [State.step, main, here] at taken
      | some f =>
        simp only [State.step, main, here] at taken
        split_ifs at taken with active
        rw [← Option.some.inj taken]
        have falls := rank_of_resume rounds (by simpa using active) s.acc
        obtain ⟨-, rfl⟩ := Table.find_eq_some_iff.mp here
        rw [← task_resume rounds f s.acc] at here
        have sum := Table.sum_set (FoldTask.rank rounds) here
        simp only [State.rank, main]
        omega
    | main =>
      simp only [State.step, main] at taken
      split_ifs at taken with more ended
      · rw [← Option.some.inj taken]
        simp only [State.rank, main, Main.rank]
        omega
      · rw [← Option.some.inj taken]
        simp only [State.rank, main, Main.rank]
        omega

theorem exists_step (inv : Inv tasks rounds s) (short : ∀ report, s.main ≠ .reported report) :
    ∃ a, (s.step tasks rounds a).isSome := by
  cases main : s.main with
  | reported report => exact absurd main (short report)
  | joins upTo =>
    by_cases more : upTo < tasks
    · obtain ⟨f, there, rfl⟩ := (inv.launched upTo).mpr more
      have here := Table.find_eq_some_iff.mpr ⟨there, rfl⟩
      cases done : f.done with
      | true => exact ⟨.main, by simp [State.step, main, more, here, done]⟩
      | false => exact ⟨.fiber f.task, by simp [State.step, main, here, done]⟩
    · exact ⟨.main, by simp [State.step, main, more]⟩

end Progress

theorem rank_init (tasks rounds : ℕ) :
    (arm tasks rounds).init.rank tasks rounds = tasks * (rounds + 1) + tasks + 1 := by
  have fibers : (launched tasks).sum (FoldTask.rank rounds) = tasks * (rounds + 1) := by
    rw [Table.sum, launched, List.map_map]
    have each : FoldTask.rank rounds ∘ (fun t => FoldTask.mk t (.suspended 0)) =
        fun _ => rounds + 1 := rfl
    simp [each]
  change tasks - 0 + 1 + (launched tasks).sum (FoldTask.rank rounds) = _
  rw [fibers]
  omega

/-- Whatever fiber the scheduler picks, the report is right, and every run goes on to it. -/
theorem fiber_report (tasks rounds : ℕ) (acts : List Act) (s : State)
    (run : (arm tasks rounds).run? acts = some s) :
    (∀ report, s.main = .reported report →
        report = ⟨tasks * rounds, expectedTotal tasks rounds, true⟩) ∧
      acts.length ≤ tasks * (rounds + 1) + tasks + 1 ∧
      ((∀ report, s.main ≠ .reported report) → ∃ a, ((arm tasks rounds).step s a).isSome) := by
  obtain ⟨inv, total⟩ : Inv tasks rounds s ∧
      (s.view rounds).total = ((arm tasks rounds).init.view rounds).total :=
    Machine.total_of_run (m := arm tasks rounds) (fun s a t kept taken => Inv.step kept taken)
      inv_init run
  refine ⟨fun report reports => ?_, ?_, exists_step inv⟩
  · obtain ⟨rfl, done⟩ := inv.reported report reports
    refine reportArm_of_total (f := s.view rounds) (total.trans (total_init tasks rounds)) ?_
    exact Table.sum_eq_zero fun f there => left_of_done (done f there)
  · have falls (s : State) (a : Act) (q : State) (inv : Inv tasks rounds s)
        (taken : (arm tasks rounds).step s a = some q) :
        Inv tasks rounds q ∧
          q.rank tasks rounds + (if true then 1 else 0) ≤ s.rank tasks rounds :=
      ⟨(inv.step taken).1, rank_of_step taken⟩
    have count := (Machine.count_le_measure (State.rank tasks rounds) falls inv_init run).2
    rw [List.filter_true, rank_init] at count
    omega

/-- Two fibers of one round, of which the second overtakes. -/
theorem fiber_report_two :
    ∃ s report, (arm 2 1).run? [.fiber 1, .fiber 1, .fiber 0, .fiber 0, .main, .main, .main] =
        some s ∧ s.main = .reported report ∧ report = ⟨2 * 1, expectedTotal 2 1, true⟩ := by
  obtain ⟨s, run, report, reports⟩ : ∃ s, (arm 2 1).run? [.fiber 1, .fiber 1, .fiber 0, .fiber 0,
      .main, .main, .main] = some s ∧ ∃ report, s.main = .reported report := ⟨_, rfl, _, rfl⟩
  exact ⟨s, report, run, reports, (fiber_report 2 1 _ s run).1 report reports⟩

end Fiber

end LinuxSys.Capstone
