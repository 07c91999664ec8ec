import Mathlib.Data.List.Basic
import Mathlib.Data.Nat.Bitwise

/-! # Bytes: a big-endian length and splitting at the first separator

The two ingredients of a length-prefixed text frame. A 16-bit big-endian field keeps a length
modulo 65536. Splitting at the first separator recovers a pair joined with it exactly when the
left part is free of it.
-/

namespace LinuxSys.Lib

abbrev Bytes := List UInt8

/-- What holds of all bytes of a text is decided along the text, not over all bytes there are. -/
instance (priority := 2000) decidableForallByte {p : UInt8 → Prop} [DecidablePred p] (text : Bytes) :
    Decidable (∀ b ∈ text, p b) := List.decidableBAll p text

instance (priority := 2000) decidableForallHead {p : UInt8 → Prop} [DecidablePred p]
    (head : Option UInt8) : Decidable (∀ b ∈ head, p b) := Option.decidableForallMem head

/-- The bytes of an ASCII text. -/
def ascii (text : String) : Bytes := text.toList.map fun c => UInt8.ofNat c.toNat

/-- The value of a big-endian 16-bit field. -/
def be16 (high low : UInt8) : ℕ := high.toNat <<< 8 ||| low.toNat

theorem be16_eq (high low : UInt8) : be16 high low = high.toNat * 256 + low.toNat := by
  have bound := low.toNat_lt
  rw [be16, ← Nat.shiftLeft_add_eq_or_of_lt (by omega), Nat.shiftLeft_eq]

theorem be16_lt (high low : UInt8) : be16 high low < 65536 := by
  have highBound := high.toNat_lt
  have lowBound := low.toNat_lt
  rw [be16_eq]
  omega

/-- The two stored bytes of a length are its value modulo 65536. -/
theorem be16_ofNat (length : ℕ) :
    be16 (UInt8.ofNat (length >>> 8)) (UInt8.ofNat length) = length % 65536 := by
  rw [be16_eq, UInt8.toNat_ofNat', UInt8.toNat_ofNat', Nat.shiftRight_eq_div_pow]
  omega

/-- A 32-bit little-endian field. -/
def le32 (n : ℕ) : Bytes :=
  [UInt8.ofNat n, UInt8.ofNat (n >>> 8), UInt8.ofNat (n >>> 16), UInt8.ofNat (n >>> 24)]

/-- The value of a little-endian field. -/
def leValue : Bytes → ℕ
  | [] => 0
  | b :: rest => b.toNat + 256 * leValue rest

theorem leValue_le32 {n : ℕ} (bound : n < 2 ^ 32) : leValue (le32 n) = n := by
  simp only [le32, leValue, UInt8.toNat_ofNat', Nat.shiftRight_eq_div_pow]
  omega

section SplitFirst

variable {α : Type*} [DecidableEq α]

/-- The parts before and after the first separator. -/
def splitFirst? (sep : α) : List α → Option (List α × List α)
  | [] => none
  | a :: rest =>
    if a = sep then some ([], rest)
    else (splitFirst? sep rest).map fun parts => (a :: parts.1, parts.2)

theorem splitFirst?_eq_some_iff {sep : α} {whole left right : List α} :
    splitFirst? sep whole = some (left, right) ↔ whole = left ++ sep :: right ∧ sep ∉ left := by
  induction whole generalizing left with
  | nil => simp [splitFirst?]
  | cons a rest ih =>
    rw [splitFirst?]
    split
    · next same =>
      subst same
      constructor
      · rintro ⟨rfl, rfl⟩
        exact ⟨rfl, List.not_mem_nil⟩
      · rintro ⟨equal, fresh⟩
        cases left with
        | nil => simp_all
        | cons b left =>
          obtain ⟨rfl, -⟩ := List.cons.inj equal
          exact absurd (List.mem_cons_self ..) fresh
    · next different =>
      simp only [Option.map_eq_some_iff, Prod.mk.injEq, Prod.exists]
      constructor
      · rintro ⟨front, back, found, rfl, rfl⟩
        obtain ⟨rfl, fresh⟩ := ih.mp found
        exact ⟨rfl, by simp [fresh, Ne.symm different]⟩
      · rintro ⟨equal, fresh⟩
        cases left with
        | nil => exact absurd (List.cons.inj equal).1 different
        | cons b left =>
          obtain ⟨rfl, rfl⟩ := List.cons.inj equal
          exact ⟨left, right, ih.mpr ⟨rfl, fun member => fresh (List.mem_cons_of_mem _ member)⟩,
            rfl, rfl⟩

theorem splitFirst?_eq_none_iff {sep : α} {whole : List α} :
    splitFirst? sep whole = none ↔ sep ∉ whole := by
  induction whole with
  | nil => simp [splitFirst?]
  | cons a rest ih =>
    rw [splitFirst?]
    split
    · next same => simp [same]
    · next different => simp [ih, Ne.symm different]

theorem splitFirst?_append {sep : α} {left : List α} (fresh : sep ∉ left) (right : List α) :
    splitFirst? sep (left ++ sep :: right) = some (left, right) :=
  splitFirst?_eq_some_iff.mpr ⟨rfl, fresh⟩

/-- The part before the first separator, or everything. -/
def before (sep : α) (whole : List α) : List α :=
  match splitFirst? sep whole with
  | some (left, _) => left
  | none => whole

theorem not_mem_before (sep : α) (whole : List α) : sep ∉ before sep whole := by
  unfold before
  split
  · next left right found => exact (splitFirst?_eq_some_iff.mp found).2
  · next absent => exact splitFirst?_eq_none_iff.mp absent

theorem length_before_le (sep : α) (whole : List α) : (before sep whole).length ≤ whole.length := by
  unfold before
  split
  · next left right found =>
    rw [(splitFirst?_eq_some_iff.mp found).1, List.length_append]
    exact Nat.le_add_right _ _
  · exact le_rfl

theorem before_of_not_mem {sep : α} {whole : List α} (fresh : sep ∉ whole) :
    before sep whole = whole := by
  simp only [before, splitFirst?_eq_none_iff.mpr fresh]

/-- With a separator appended, splitting always succeeds, at the first one present. -/
theorem splitFirst?_append_cons (sep : α) (left right : List α) :
    ∃ rest, splitFirst? sep (left ++ sep :: right) = some (before sep left, rest) := by
  cases found : splitFirst? sep left with
  | none =>
    have fresh := splitFirst?_eq_none_iff.mp found
    exact ⟨right, by rw [before_of_not_mem fresh, splitFirst?_append fresh]⟩
  | some parts =>
    obtain ⟨front, back⟩ := parts
    obtain ⟨rfl, fresh⟩ := splitFirst?_eq_some_iff.mp found
    refine ⟨back ++ sep :: right, ?_⟩
    rw [List.append_assoc, List.cons_append, splitFirst?_append fresh]
    simp only [before, found]

theorem before_append_cons {sep : α} {left : List α} (fresh : sep ∉ left) (right : List α) :
    before sep (left ++ sep :: right) = left := by
  simp only [before, splitFirst?_append fresh]

/-- The parts before and after the last separator. -/
def splitLast? (sep : α) (whole : List α) : Option (List α × List α) :=
  (splitFirst? sep whole.reverse).map fun parts => (parts.2.reverse, parts.1.reverse)

theorem splitLast?_append {sep : α} {right : List α} (left : List α) (fresh : sep ∉ right) :
    splitLast? sep (left ++ sep :: right) = some (left, right) := by
  have reversed : (left ++ sep :: right).reverse = right.reverse ++ sep :: left.reverse := by
    simp
  rw [splitLast?, reversed, splitFirst?_append (by simpa using fresh), Option.map_some,
    List.reverse_reverse, List.reverse_reverse]

end SplitFirst

/-- A text in a field of `size` bytes, filled up with NULs. -/
def padded (size : ℕ) (text : Bytes) : Bytes := text ++ List.replicate (size - text.length) 0

theorem padded_length {size : ℕ} {text : Bytes} (fits : text.length ≤ size) :
    (padded size text).length = size := by
  rw [padded, List.length_append, List.length_replicate]
  omega

theorem padded_getD (size : ℕ) (text : Bytes) (i : ℕ) :
    (padded size text).getD i 0 = text.getD i 0 := by
  simp only [padded, List.getD_eq_getElem?_getD]
  rcases Nat.lt_or_ge i text.length with inside | outside
  · rw [List.getElem?_append_left inside]
  · rw [List.getElem?_append_right outside, List.getElem?_eq_none outside,
      List.getElem?_replicate]
    split <;> rfl

theorem getElem?_padded {size i : ℕ} (text : Bytes) (inside : i < size) :
    (padded size text)[i]? = if i < text.length then text[i]? else some 0 := by
  rw [padded]
  split
  · next within => rw [List.getElem?_append_left within]
  · next after =>
    rw [List.getElem?_append_right (not_lt.mp after), List.getElem?_replicate, if_pos (by omega)]

/-- A text without NULs is read back from its field. -/
theorem before_padded {size : ℕ} {text : Bytes} (fresh : 0 ∉ text) :
    before 0 (padded size text) = text := by
  rw [padded]
  cases size - text.length with
  | zero => rw [List.replicate_zero, List.append_nil, before_of_not_mem fresh]
  | succ more => rw [List.replicate_succ, before_append_cons fresh]

end LinuxSys.Lib
