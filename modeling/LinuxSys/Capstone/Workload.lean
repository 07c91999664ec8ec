import LinuxSys.Lib.Accumulate
import LinuxSys.Lib.Bytes
import Mathlib.Data.UInt

/-! # The workload of capstone ch56

Every model runs one function for all tasks and rounds and folds into one accumulator. The folds are
additions modulo `2 ^ 64`, so the total is the same in whatever order the units come.
-/

namespace LinuxSys.Capstone

open Lib

def kPayload : Bytes :=
  [0x54, 0x68, 0x65, 0x20, 0x71, 0x75, 0x69, 0x63, 0x6b, 0x20, 0x62, 0x72, 0x6f, 0x77, 0x6e, 0x2e]

def kFnvOffsetBasis : UInt64 := 0xcbf29ce484222325

def kFnvPrime : UInt64 := 0x00000100000001b3

def kTasks : ℕ := 8

def kRounds : ℕ := 5000

def fnv1a (data : Bytes) (seed : UInt64) : UInt64 :=
  data.foldl (fun h b => (h ^^^ b.toUInt64) * kFnvPrime) seed

def unit (task round : ℕ) : UInt64 :=
  let seed := kFnvOffsetBasis ^^^ (UInt64.ofNat task * 1000003 + UInt64.ofNat round)
  fnv1a kPayload seed

/-- The dullest possible way. -/
def expectedTotal (tasks rounds : ℕ) : UInt64 :=
  (List.range tasks).foldl
    (fun acc t => (List.range rounds).foldl (fun acc r => acc + unit t r) acc) 0

/-- What an arm prints of its total; the number of folds is always the product. -/
structure Report where
  folds : ℕ
  total : UInt64
  correct : Bool
deriving DecidableEq, Repr

def reportArm (tasks rounds : ℕ) (total : UInt64) : Report :=
  ⟨tasks * rounds, total, total = expectedTotal tasks rounds⟩

/-- The units of a task from a round on. -/
def unitsFrom (rounds task round : ℕ) : Multiset UInt64 :=
  (List.range' round (rounds - round)).map (unit task)

def allUnits (tasks rounds : ℕ) : Multiset UInt64 :=
  ((List.range tasks).map fun task => unitsFrom rounds task 0).sum

theorem unitsFrom_eq_cons {rounds task round : ℕ} (more : round < rounds) :
    unitsFrom rounds task round = unit task round ::ₘ unitsFrom rounds task (round + 1) := by
  obtain ⟨n, rfl⟩ := Nat.exists_eq_add_of_lt more
  have first : round + n + 1 - round = n + 1 := by omega
  have rest : round + n + 1 - (round + 1) = n := by omega
  rw [unitsFrom, unitsFrom, first, rest, List.range'_succ]
  rfl

theorem unitsFrom_of_le {rounds task round : ℕ} (done : rounds ≤ round) :
    unitsFrom rounds task round = 0 := by
  rw [unitsFrom, Nat.sub_eq_zero_of_le done]
  rfl

theorem foldl_add (l : List ℕ) (f : ℕ → UInt64) (acc : UInt64) :
    l.foldl (fun acc r => acc + f r) acc = acc + (l.map f).sum := by
  induction l generalizing acc with
  | nil => simp
  | cons r rest ih => rw [List.foldl_cons, ih, List.map_cons, List.sum_cons, add_assoc]

/-- All units of all tasks. -/
theorem expectedTotal_eq_sum (tasks rounds : ℕ) :
    expectedTotal tasks rounds = (allUnits tasks rounds).sum := by
  have task (t : ℕ) : (unitsFrom rounds t 0).sum = ((List.range rounds).map (unit t)).sum := by
    rw [unitsFrom, Nat.sub_zero, ← List.range_eq_range']
    rfl
  have inner (acc : UInt64) (t : ℕ) :
      (List.range rounds).foldl (fun acc r => acc + unit t r) acc =
        acc + (unitsFrom rounds t 0).sum := by
    rw [foldl_add, task]
  rw [expectedTotal]
  simp only [inner]
  rw [foldl_add, zero_add, allUnits]
  have sums := map_list_sum Multiset.sumAddMonoidHom
    ((List.range tasks).map fun task => unitsFrom rounds task 0)
  rw [List.map_map] at sums
  exact sums.symm

/-- A report is right once no units are left. -/
theorem reportArm_of_total {tasks rounds : ℕ} {f : Fold UInt64}
    (total : f.total = expectedTotal tasks rounds) (left : f.left = 0) :
    reportArm tasks rounds f.acc = ⟨tasks * rounds, expectedTotal tasks rounds, true⟩ := by
  have acc : f.acc = expectedTotal tasks rounds := by
    rw [← total, Fold.total, left, Multiset.sum_zero, add_zero]
  rw [reportArm, acc, decide_eq_true rfl]

end LinuxSys.Capstone
