import Mathlib.Data.List.Basic

/-! # A mapping of a file

A region of memory as long as the file. An access that leaves the region faults: it has no result.
A write changes the cells that it names and no others.
-/

namespace LinuxSys.Lib.Mapping

variable {α : Type*}

/-- Read so many cells from an offset on. -/
def load (map : List α) (offset count : ℕ) : Option (List α) :=
  if offset + count ≤ map.length then some ((map.drop offset).take count) else none

/-- Write the cells from an offset on. -/
def store (map : List α) (offset : ℕ) (cells : List α) : Option (List α) :=
  if offset + cells.length ≤ map.length then
    some (map.take offset ++ cells ++ map.drop (offset + cells.length))
  else none

variable {map next cells : List α} {offset count : ℕ}

theorem load_eq_some (inside : offset + count ≤ map.length) :
    load map offset count = some ((map.drop offset).take count) := if_pos inside

theorem exists_store (inside : offset + cells.length ≤ map.length) :
    ∃ next, store map offset cells = some next := ⟨_, if_pos inside⟩

theorem length_of_store (written : store map offset cells = some next) :
    next.length = map.length := by
  obtain ⟨inside, same⟩ := Option.ite_none_right_eq_some.mp written
  obtain rfl := Option.some.inj same
  simp only [List.length_append, List.length_take, List.length_drop]
  omega

/-- The cells after a write. -/
theorem getElem?_of_store (written : store map offset cells = some next) (i : ℕ) :
    next[i]? = if offset ≤ i ∧ i < offset + cells.length then cells[i - offset]? else map[i]? := by
  obtain ⟨inside, same⟩ := Option.ite_none_right_eq_some.mp written
  obtain rfl := Option.some.inj same
  have front : (map.take offset).length = offset := List.length_take_of_le (by omega)
  have both : (map.take offset ++ cells).length = offset + cells.length := by
    rw [List.length_append, front]
  by_cases before : i < offset
  · rw [if_neg (by omega), List.append_assoc, List.getElem?_append_left (by omega),
      List.getElem?_take_of_lt before]
  · by_cases within : i < offset + cells.length
    · rw [if_pos (by omega), List.getElem?_append_left (by omega),
        List.getElem?_append_right (by omega), front]
    · rw [if_neg (by omega), List.getElem?_append_right (by omega), both, List.getElem?_drop]
      congr 1
      omega

/-- A write leaves the cells around it alone. -/
theorem getElem?_of_store_of_outside (written : store map offset cells = some next) {i : ℕ}
    (outside : i < offset ∨ offset + cells.length ≤ i) : next[i]? = map[i]? := by
  rw [getElem?_of_store written, if_neg (by omega)]

end LinuxSys.Lib.Mapping
