import Mathlib.Algebra.BigOperators.Group.List.Basic
import Mathlib.Algebra.Group.Basic
import Mathlib.Data.List.Nodup
import Mathlib.Tactic.Abel

/-! # Tables

A list of records in which no two have the same key. A sum over the records changes by the record
that is put in, exchanged or taken out.
-/

namespace LinuxSys.Lib

/-- Records with distinct keys. -/
structure Table {κ α : Type*} (key : α → κ) where
  entries : List α
  nodup : (entries.map key).Nodup

namespace Table

section Decidable

variable {κ α : Type*} {key : α → κ} [DecidableEq α]

instance : DecidableEq (Table key) := fun s t =>
  decidable_of_iff (s.entries = t.entries) ⟨fun same => by cases s; cases t; cases same; rfl,
    fun same => by rw [same]⟩

end Decidable

variable {κ α : Type*} {key : α → κ} [DecidableEq κ]

instance : Membership α (Table key) := ⟨fun t a => a ∈ t.entries⟩

variable (t : Table key)

def find (k : κ) : Option α := t.entries.find? (key · = k)

omit [DecidableEq κ] in
theorem mem_def {t : Table key} {a : α} : a ∈ t ↔ a ∈ t.entries := Iff.rfl

theorem find_eq_none_iff {t : Table key} {k : κ} : t.find k = none ↔ ∀ a ∈ t, key a ≠ k := by
  simp [find, mem_def]

theorem find_eq_some_iff {t : Table key} {k : κ} {a : α} :
    t.find k = some a ↔ a ∈ t ∧ key a = k := by
  constructor
  · intro found
    exact ⟨List.mem_of_find?_eq_some found, by simpa using List.find?_some found⟩
  · rintro ⟨member, rfl⟩
    obtain ⟨entries, nodup⟩ := t
    induction entries with
    | nil => cases member
    | cons b rest ih =>
      rw [List.map_cons, List.nodup_cons] at nodup
      rcases List.mem_cons.mp member with rfl | member
      · exact List.find?_cons_of_pos (by simp)
      · have other : key b ≠ key a := fun same =>
          nodup.1 (same ▸ List.mem_map_of_mem member)
        exact (List.find?_cons_of_neg (by simpa using other)).trans (ih nodup.2 member)

theorem eq_of_key {t : Table key} {a b : α} (first : a ∈ t) (second : b ∈ t)
    (same : key a = key b) : a = b :=
  Option.some.inj ((find_eq_some_iff.mpr ⟨first, same⟩).symm.trans
    (find_eq_some_iff.mpr ⟨second, rfl⟩))

def insert (a : α) (fresh : t.find (key a) = none) : Table key where
  entries := a :: t.entries
  nodup := by
    rw [List.map_cons, List.nodup_cons]
    refine ⟨fun member => ?_, t.nodup⟩
    obtain ⟨b, there, same⟩ := List.mem_map.mp member
    exact find_eq_none_iff.mp fresh b there same

/-- The record takes the place of the one with its key. -/
def set (a : α) : Table key where
  entries := t.entries.map fun b => if key b = key a then a else b
  nodup := by
    have keys : (t.entries.map fun b => if key b = key a then a else b).map key =
        t.entries.map key := by
      rw [List.map_map]
      refine List.map_congr_left fun b _ => ?_
      by_cases same : key b = key a
      · rw [Function.comp_apply, if_pos same, same]
      · rw [Function.comp_apply, if_neg same]
    rw [keys]
    exact t.nodup

def remove (k : κ) : Table key where
  entries := t.entries.filter (key · ≠ k)
  nodup := t.nodup.sublist (List.filter_sublist.map key)

variable {t} {a b : α} {k : κ}

theorem mem_insert (fresh : t.find (key a) = none) : b ∈ t.insert a fresh ↔ b = a ∨ b ∈ t :=
  List.mem_cons

theorem mem_set (here : t.find (key a) = some b) {c : α} :
    c ∈ t.set a ↔ c = a ∨ c ∈ t ∧ key c ≠ key a := by
  obtain ⟨there, same⟩ := find_eq_some_iff.mp here
  constructor
  · intro member
    obtain ⟨d, old, rfl⟩ := List.mem_map.mp member
    by_cases equal : key d = key a
    · rw [if_pos equal]
      exact .inl rfl
    · rw [if_neg equal]
      exact .inr ⟨old, equal⟩
  · rintro (rfl | ⟨old, other⟩)
    · exact List.mem_map.mpr ⟨b, there, if_pos same⟩
    · exact List.mem_map.mpr ⟨c, old, if_neg other⟩

@[simp] theorem mem_remove : a ∈ t.remove k ↔ a ∈ t ∧ key a ≠ k := by
  simp [remove, mem_def]

section Sum

variable {M : Type*} [AddCommMonoid M] (f : α → M)

def sum (t : Table key) (f : α → M) : M := (t.entries.map f).sum

omit [DecidableEq κ] in
theorem sum_eq_zero {f : α → M} (zero : ∀ a ∈ t, f a = 0) : t.sum f = 0 := by
  refine List.sum_eq_zero fun x member => ?_
  obtain ⟨a, there, rfl⟩ := List.mem_map.mp member
  exact zero a there

theorem sum_insert (fresh : t.find (key a) = none) :
    (t.insert a fresh).sum f = f a + t.sum f := List.sum_cons

theorem sum_remove (here : t.find k = some a) : (t.remove k).sum f + f a = t.sum f := by
  obtain ⟨member, rfl⟩ := find_eq_some_iff.mp here
  clear here
  obtain ⟨entries, nodup⟩ := t
  simp only [sum, remove]
  induction entries with
  | nil => cases member
  | cons b rest ih =>
    rw [List.map_cons, List.nodup_cons] at nodup
    rcases List.mem_cons.mp member with rfl | member
    · have others : rest.filter (fun b => decide (key b ≠ key a)) = rest := by
        refine List.filter_eq_self.mpr fun b there => decide_eq_true fun same => ?_
        exact nodup.1 (same ▸ List.mem_map_of_mem there)
      rw [List.filter_cons_of_neg (by simp), others, List.map_cons, List.sum_cons, add_comm]
    · have other : key b ≠ key a := fun same => nodup.1 (same ▸ List.mem_map_of_mem member)
      rw [List.filter_cons_of_pos (by simpa using other), List.map_cons, List.sum_cons,
        List.map_cons, List.sum_cons, add_assoc, ih nodup.2 member]

theorem sum_set (here : t.find (key a) = some b) : (t.set a).sum f + f b = t.sum f + f a := by
  obtain ⟨member, same⟩ := find_eq_some_iff.mp here
  clear here
  obtain ⟨entries, nodup⟩ := t
  simp only [sum, set]
  induction entries with
  | nil => cases member
  | cons c rest ih =>
    rw [List.map_cons, List.nodup_cons] at nodup
    rcases List.mem_cons.mp member with rfl | member
    · have others : (rest.map fun c => if key c = key a then a else c) = rest := by
        refine (List.map_congr_left fun c there => if_neg fun equal => ?_).trans (List.map_id rest)
        exact nodup.1 ((same.trans equal.symm) ▸ List.mem_map_of_mem there)
      rw [List.map_cons, if_pos same, others, List.map_cons, List.sum_cons, List.map_cons,
        List.sum_cons]
      abel
    · have other : key c ≠ key a := fun equal =>
        nodup.1 ((equal.trans same.symm) ▸ List.mem_map_of_mem member)
      rw [List.map_cons, if_neg other, List.map_cons, List.sum_cons, List.map_cons, List.sum_cons,
        add_assoc, ih nodup.2 member, add_assoc]

end Sum

end Table

end LinuxSys.Lib
