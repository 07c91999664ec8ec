import Mathlib.Data.List.Basic

/-! # A file of fixed-size records

Behind a header stand records of one size, one after another. Reading at a record's offset gives
that record, and writing there replaces it and nothing else.
-/

namespace LinuxSys.Lib.Records

variable {α : Type*}

/-- The record at `index`, behind `skip` leading bytes. -/
def read (skip size : ℕ) (data : List α) (index : ℕ) : List α :=
  (data.drop (skip + index * size)).take size

/-- The data with the bytes at the record's offset overwritten. -/
def write (skip size : ℕ) (data : List α) (index : ℕ) (record : List α) : List α :=
  data.take (skip + index * size) ++ record ++ data.drop (skip + index * size + size)

variable {skip size : ℕ} {header : List α} {records : List (List α)}

theorem length_flatten (sized : ∀ r ∈ records, r.length = size) :
    records.flatten.length = records.length * size := by
  induction records with
  | nil => simp
  | cons r rest ih =>
    have first := sized r List.mem_cons_self
    have tail := ih fun s member => sized s (List.mem_cons_of_mem r member)
    rw [List.flatten_cons, List.length_append, first, tail, List.length_cons, Nat.succ_mul,
      Nat.add_comm]

/-- The data around a record. -/
theorem flatten_split (sized : ∀ r ∈ records, r.length = size) {index : ℕ}
    (inside : index < records.length) : ∃ left right, left.length = index * size ∧
      records.flatten = left ++ records[index] ++ right ∧
      ∀ record, (records.set index record).flatten = left ++ record ++ right := by
  induction records generalizing index with
  | nil => exact absurd inside (Nat.not_lt_zero index)
  | cons r rest ih =>
    have first := sized r List.mem_cons_self
    cases index with
    | zero => exact ⟨[], rest.flatten, by simp, by simp, by simp⟩
    | succ index =>
      have within : index < rest.length := Nat.lt_of_succ_lt_succ inside
      obtain ⟨left, right, size', whole, replaced⟩ :=
        ih (fun s member => sized s (List.mem_cons_of_mem r member)) within
      refine ⟨r ++ left, right, ?_, ?_, fun record => ?_⟩
      · rw [List.length_append, first, size', Nat.succ_mul, Nat.add_comm]
      · rw [List.flatten_cons, whole, List.getElem_cons_succ]
        simp only [List.append_assoc]
      · rw [List.set_cons_succ, List.flatten_cons, replaced]
        simp only [List.append_assoc]

theorem read_flatten (front : header.length = skip) (sized : ∀ r ∈ records, r.length = size)
    {index : ℕ} (inside : index < records.length) :
    read skip size (header ++ records.flatten) index = records[index] := by
  obtain ⟨left, right, before, whole, -⟩ := flatten_split sized inside
  have offset : (header ++ left).length = skip + index * size := by
    rw [List.length_append, front, before]
  rw [read, whole, ← offset]
  simp only [List.append_assoc]
  rw [← List.append_assoc, List.drop_left, List.take_left' (sized _ (List.getElem_mem inside))]

theorem write_flatten (front : header.length = skip) (sized : ∀ r ∈ records, r.length = size)
    {index : ℕ} (inside : index < records.length) (record : List α) :
    write skip size (header ++ records.flatten) index record =
      header ++ (records.set index record).flatten := by
  obtain ⟨left, right, before, whole, replaced⟩ := flatten_split sized inside
  have offset : (header ++ left).length = skip + index * size := by
    rw [List.length_append, front, before]
  have last : (header ++ left ++ records[index]).length = skip + index * size + size := by
    rw [List.length_append, offset, sized _ (List.getElem_mem inside)]
  rw [write, whole, replaced]
  have joined : header ++ (left ++ records[index] ++ right) =
      header ++ left ++ records[index] ++ right := by
    simp only [List.append_assoc]
  rw [joined, ← last, List.drop_left, ← offset, List.append_assoc (header ++ left),
    List.take_left]
  simp only [List.append_assoc]

end LinuxSys.Lib.Records
