import Mathlib.Data.Fintype.Card
import Mathlib.Data.List.Basic
import Mathlib.Logic.Equiv.Basic

/-! # Columns read by name

A line of names and a line of values; the value of a name stands where the name stands. If both
lines are moved alike, then a name that stands once keeps its value.
-/

namespace LinuxSys.Lib

variable {α β : Type*}

/-- The value of the first column with this name that both lines have. -/
def cell [DecidableEq α] (names : List α) (values : List β) (name : α) : Option β :=
  ((names.zip values).find? fun column => column.1 = name).map Prod.snd

/-- No name stands twice. -/
def Once (name : α) (names : List α) : Prop :=
  ∀ i j : ℕ, names[i]? = some name → names[j]? = some name → i = j

/-- What stands at a place stands where the permutation takes it. -/
def Moved (σ : Equiv.Perm ℕ) (left right : List α) : Prop :=
  ∀ i : ℕ, right[σ i]? = left[i]?

theorem Once.of_nodup {names : List α} (nodup : names.Nodup) (name : α) : Once name names := by
  intro i j at_i at_j
  obtain ⟨less, -⟩ := List.getElem?_eq_some_iff.mp at_i
  exact (List.getElem?_inj less nodup).mp (at_i.trans at_j.symm)

theorem Once.of_cons {name first : α} {names : List α} (once : Once name (first :: names)) :
    Once name names := by
  intro i j at_i at_j
  exact Nat.succ.inj (once (i + 1) (j + 1) at_i at_j)

namespace Moved

variable {σ : Equiv.Perm ℕ} {left right : List α}

theorem refl (line : List α) : Moved (Equiv.refl ℕ) line line := fun _ => rfl

/-- The places behind the end need not be looked at. -/
theorem of_lt {n : ℕ} (left_le : left.length ≤ n) (right_le : right.length ≤ n)
    (fixes : ∀ i, n ≤ i → σ i = i) (inside : ∀ i < n, right[σ i]? = left[i]?) :
    Moved σ left right := by
  intro i
  by_cases less : i < n
  · exact inside i less
  · have behind : n ≤ i := not_lt.mp less
    rw [fixes i behind, List.getElem?_eq_none (right_le.trans behind),
      List.getElem?_eq_none (left_le.trans behind)]

theorem symm (moved : Moved σ left right) : Moved σ.symm right left := by
  intro i
  rw [← moved (σ.symm i), Equiv.apply_symm_apply]

theorem mem_of_mem (moved : Moved σ left right) {a : α} (inside : a ∈ left) : a ∈ right := by
  obtain ⟨i, at_i⟩ := List.mem_iff_getElem?.mp inside
  exact List.mem_iff_getElem?.mpr ⟨σ i, (moved i).trans at_i⟩

theorem mem_iff (moved : Moved σ left right) {a : α} : a ∈ right ↔ a ∈ left :=
  ⟨moved.symm.mem_of_mem, moved.mem_of_mem⟩

theorem lt_length_iff (moved : Moved σ left right) (i : ℕ) :
    σ i < right.length ↔ i < left.length := by
  rw [← not_iff_not, not_lt, not_lt, ← List.getElem?_eq_none_iff, moved i,
    List.getElem?_eq_none_iff]

theorem length_eq (moved : Moved σ left right) : right.length = left.length := by
  have same : (Finset.range left.length).map σ.toEmbedding = Finset.range right.length := by
    ext j
    rw [Finset.mem_map_equiv, Finset.mem_range, Finset.mem_range, ← moved.lt_length_iff,
      Equiv.apply_symm_apply]
  have count := congrArg Finset.card same
  rw [Finset.card_map, Finset.card_range, Finset.card_range] at count
  exact count.symm

theorem eq_nil_iff (moved : Moved σ left right) : right = [] ↔ left = [] := by
  rw [← List.length_eq_zero_iff, moved.length_eq, List.length_eq_zero_iff]

theorem once {name : α} (moved : Moved σ left right) (once : Once name left) : Once name right := by
  intro i j at_i at_j
  rw [← moved.symm i] at at_i
  rw [← moved.symm j] at at_j
  exact σ.symm.injective (once _ _ at_i at_j)

end Moved

section Cell

variable [DecidableEq α] {name : α} {names : List α} {values : List β} {value : β}

theorem cell_eq_some_iff (once : Once name names) :
    cell names values name = some value ↔
      ∃ i : ℕ, names[i]? = some name ∧ values[i]? = some value := by
  induction names generalizing values with
  | nil => simp [cell]
  | cons first names ih =>
    cases values with
    | nil => simp [cell]
    | cons here values =>
      by_cases same : first = name
      · rw [cell, List.zip_cons_cons, List.find?_cons_of_pos (by simpa using same)]
        constructor
        · intro found
          exact ⟨0, congrArg some same, found⟩
        · rintro ⟨i, at_i, found⟩
          obtain rfl := once 0 i (congrArg some same) at_i
          exact found
      · rw [cell, List.zip_cons_cons, List.find?_cons_of_neg (by simpa using same)]
        refine (ih once.of_cons).trans ⟨?_, ?_⟩
        · rintro ⟨i, at_i, found⟩
          exact ⟨i + 1, at_i, found⟩
        · rintro ⟨i, at_i, found⟩
          cases i with
          | zero => exact absurd (Option.some.inj at_i) same
          | succ i => exact ⟨i, at_i, found⟩

/-- Columns that are moved alike keep their values. -/
theorem cell_moved {σ : Equiv.Perm ℕ} {names' : List α} {values' : List β} (once : Once name names)
    (names_moved : Moved σ names names') (values_moved : Moved σ values values') :
    cell names' values' name = cell names values name := by
  ext value
  rw [cell_eq_some_iff once, cell_eq_some_iff (names_moved.once once)]
  constructor
  · rintro ⟨j, at_j, found⟩
    exact ⟨σ.symm j, (names_moved.symm j).trans at_j, (values_moved.symm j).trans found⟩
  · rintro ⟨i, at_i, found⟩
    exact ⟨σ i, (names_moved i).trans at_i, (values_moved i).trans found⟩

end Cell

end LinuxSys.Lib
