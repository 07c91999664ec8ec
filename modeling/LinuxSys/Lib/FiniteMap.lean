import Mathlib.Data.Finset.Card
import Mathlib.Data.Finset.Insert
import Mathlib.Data.List.Induction
import Mathlib.Data.List.Nodup

/-! # Finite maps

A partial function with the finite set of its keys. The set is part of the map, so its number of
keys can be compared with a capacity.
-/

namespace LinuxSys.Lib

structure FiniteMap (K V : Type*) where
  find : K → Option V
  keys : Finset K
  mem_keys : ∀ k, k ∈ keys ↔ (find k).isSome

namespace FiniteMap

variable {K V : Type*}

def empty : FiniteMap K V where
  find _ := none
  keys := ∅
  mem_keys := by simp

@[simp] theorem find_empty (k : K) : (empty : FiniteMap K V).find k = none := rfl

variable [DecidableEq K]

/-- The map with a key's value set. -/
def insert (m : FiniteMap K V) (k : K) (v : V) : FiniteMap K V where
  find := fun key => if key = k then some v else m.find key
  keys := Insert.insert k m.keys
  mem_keys := by
    intro key
    rw [Finset.mem_insert, m.mem_keys]
    split
    · next same => simp [same]
    · next other => simp [other]

theorem find_insert (m : FiniteMap K V) (k key : K) (v : V) :
    (m.insert k v).find key = if key = k then some v else m.find key := rfl

omit [DecidableEq K] in
/-- Maps that find the same are the same. -/
theorem ext_find {m n : FiniteMap K V} (same : m.find = n.find) : m = n := by
  obtain ⟨find, keys, left⟩ := m
  obtain ⟨other, others, right⟩ := n
  obtain rfl : find = other := same
  obtain rfl : keys = others := by
    ext k
    rw [left, right]
  rfl

/-- The map of a list of pairs, in which a later pair replaces an earlier one of the same key. -/
def ofList (pairs : List (K × V)) : FiniteMap K V :=
  pairs.foldl (fun m pair => m.insert pair.1 pair.2) empty

theorem ofList_concat (pairs : List (K × V)) (pair : K × V) :
    ofList (pairs ++ [pair]) = (ofList pairs).insert pair.1 pair.2 := by
  rw [ofList, List.foldl_append]
  rfl

theorem mem_of_find_ofList {pairs : List (K × V)} {k : K} {v : V}
    (found : (ofList pairs).find k = some v) : (k, v) ∈ pairs := by
  induction pairs using List.reverseRecOn with
  | nil => cases found
  | append_singleton pairs pair ih =>
    rw [ofList_concat, find_insert] at found
    split at found
    · next same =>
      subst same
      obtain rfl := Option.some.inj found
      exact List.mem_append_right _ List.mem_cons_self
    · exact List.mem_append_left _ (ih found)

theorem find_ofList {pairs : List (K × V)} (distinct : (pairs.map Prod.fst).Nodup) {k : K} {v : V} :
    (ofList pairs).find k = some v ↔ (k, v) ∈ pairs := by
  refine ⟨mem_of_find_ofList, fun member => ?_⟩
  induction pairs using List.reverseRecOn with
  | nil => cases member
  | append_singleton pairs pair ih =>
    rw [List.map_append, List.nodup_append] at distinct
    rw [ofList_concat, find_insert]
    rcases List.mem_append.mp member with old | new
    · have other : k ≠ pair.1 := distinct.2.2 k (List.mem_map_of_mem old) pair.1 (by simp)
      rw [if_neg other]
      exact ih distinct.1 old
    · obtain rfl := List.mem_singleton.mp new
      rw [if_pos rfl]

end FiniteMap

end LinuxSys.Lib
