import Mathlib.Data.Nat.Notation
import Mathlib.Tactic.SplitIfs

/-! # Raising a shared maximum

A loop that loads a shared number and replaces it by a greater one with a compare-exchange, which
may fail where another thread was faster and also where none was.
-/

namespace LinuxSys.Lib

/-- Where a thread stands that raises the number. -/
inductive Raise where
  | loading
  | swapping (seen : ℕ)
  | finished
deriving DecidableEq, Repr

namespace Raise

/-- The loop condition. -/
def check (now seen : ℕ) : Raise := if seen < now then .swapping seen else .finished

/-- One load or compare-exchange: the number, and where the thread stands. -/
def step (now : ℕ) (spurious : Bool) (shared : ℕ) : Raise → ℕ × Raise
  | .loading => (shared, check now shared)
  | .swapping seen =>
    if shared = seen ∧ ¬ spurious then (now, .finished) else (shared, check now shared)
  | .finished => (shared, .finished)

/-- A thread swaps for a greater number only. -/
def Fine (now : ℕ) (r : Raise) : Prop := ∀ seen, r = .swapping seen → seen < now

variable {now shared : ℕ} {spurious : Bool} {r : Raise}

theorem fine_check : Fine now (check now shared) := by
  intro seen same
  rw [check] at same
  split_ifs at same with less
  cases same
  exact less

theorem Fine.step (fine : Fine now r) : Fine now (r.step now spurious shared).2 := by
  cases r with
  | loading => exact fine_check
  | finished => exact fine
  | swapping seen =>
    rw [Raise.step]
    split_ifs
    · intro _ same
      cases same
    · exact fine_check

/-- The number never gets smaller. -/
theorem Fine.le_step (fine : Fine now r) : shared ≤ (r.step now spurious shared).1 := by
  cases r with
  | loading => exact Nat.le_refl _
  | finished => exact Nat.le_refl _
  | swapping seen =>
    rw [Raise.step]
    split_ifs with swaps
    · exact swaps.1 ▸ Nat.le_of_lt (fine seen rfl)
    · exact Nat.le_refl _

theorem step_eq (now : ℕ) (spurious : Bool) (shared : ℕ) (r : Raise) :
    (r.step now spurious shared).1 = shared ∨ (r.step now spurious shared).1 = now := by
  cases r with
  | loading => exact .inl rfl
  | finished => exact .inl rfl
  | swapping seen =>
    rw [step]
    split_ifs
    · exact .inr rfl
    · exact .inl rfl

/-- A thread that leaves the loop has raised the number far enough. -/
theorem le_of_finished (busy : r ≠ .finished)
    (ended : (r.step now spurious shared).2 = .finished) :
    now ≤ (r.step now spurious shared).1 := by
  have checked (ended : check now shared = .finished) : now ≤ shared := by
    rw [check] at ended
    split_ifs at ended with less
    exact Nat.not_lt.mp less
  cases r with
  | loading => exact checked ended
  | finished => exact absurd rfl busy
  | swapping seen =>
    rw [step] at ended ⊢
    split_ifs at ended ⊢ with swaps
    · exact Nat.le_refl _
    · exact checked ended

end Raise

end LinuxSys.Lib
