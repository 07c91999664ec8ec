import LinuxSys.Lib.Machine
import Mathlib.Algebra.BigOperators.Group.Multiset.Basic
import Mathlib.Tactic.Abel

/-! # Folding into one accumulator

Units are added to an accumulator one at a time, in any order. A machine of any kind that does
nothing else to the accumulator ends with the sum of the units, wherever it has taken them from.
-/

namespace LinuxSys.Lib

/-- What has been added up, and the units that are left. -/
structure Fold (M : Type*) where
  acc : M
  left : Multiset M

namespace Fold

variable {M : Type*} [AddCommMonoid M]

def total (f : Fold M) : M := f.acc + f.left.sum

/-- Nothing happens, or a unit is added. -/
def Adds (f g : Fold M) : Prop := g = f ∨ ∃ u, f.left = u ::ₘ g.left ∧ g.acc = f.acc + u

theorem total_of_adds {f g : Fold M} (adds : f.Adds g) : g.total = f.total := by
  rcases adds with rfl | ⟨u, left, acc⟩
  · rfl
  · rw [total, total, left, acc, Multiset.sum_cons, add_assoc]

end Fold

namespace Machine

variable {σ α M : Type*} [AddCommMonoid M] {m : Machine σ α} {inv : σ → Prop} {view : σ → Fold M}

/-- A machine whose steps add at most a unit keeps the total. -/
theorem total_of_run (keeps : ∀ s a t, inv s → m.step s a = some t → inv t ∧ (view s).Adds (view t))
    {s t : σ} {acts : List α} (start : inv s) (run : m.runFrom? s acts = some t) :
    inv t ∧ (view t).total = (view s).total := by
  have step (s' : σ) (a : α) (t' : σ) (kept : inv s' ∧ (view s').total = (view s).total)
      (taken : m.step s' a = some t') : inv t' ∧ (view t').total = (view s).total := by
    obtain ⟨next, adds⟩ := keeps s' a t' kept.1 taken
    exact ⟨next, (Fold.total_of_adds adds).trans kept.2⟩
  exact runFrom?_keeps step ⟨start, rfl⟩ run

end Machine

end LinuxSys.Lib
