import Mathlib.Algebra.GroupWithZero.Nat
import Mathlib.Data.List.DropRight

/-! # Text as Python handles it

White space, `str.strip`, `str.splitlines` and `str.split` at a character. Pieces that are stripped
do not tell whether the whole was stripped before.
-/

namespace LinuxSys.Lib.PyText

abbrev Text := List Char

instance lawfulBEqText : LawfulBEq Text := inferInstance

/-- `str.isspace` of a character. -/
def isSpace (c : Char) : Bool :=
  let n := c.toNat
  (0x09 ≤ n && n ≤ 0x0D) || (0x1C ≤ n && n ≤ 0x20) || n = 0x85 || n = 0xA0 || n = 0x1680 ||
    (0x2000 ≤ n && n ≤ 0x200A) || n = 0x2028 || n = 0x2029 || n = 0x202F || n = 0x205F || n = 0x3000

def isLineBreak (c : Char) : Bool :=
  let n := c.toNat
  (0x0A ≤ n && n ≤ 0x0D) || (0x1C ≤ n && n ≤ 0x1E) || n = 0x85 || n = 0x2028 || n = 0x2029

def strip (text : Text) : Text := (text.dropWhile isSpace).rdropWhile isSpace

def splitlines : Text → List Text
  | [] => []
  | '\r' :: '\n' :: rest => [] :: splitlines rest
  | c :: rest =>
    if isLineBreak c then [] :: splitlines rest
    else
      match splitlines rest with
      | [] => [[c]]
      | line :: later => (c :: line) :: later

/-- A text with no white space at either end. -/
structure Trimmed (text : Text) : Prop where
  head : ∀ c, text.head? = some c → isSpace c = false
  last : ∀ c, text.getLast? = some c → isSpace c = false

section Strip

variable {text pad : Text}

theorem rdropWhile_append_of_pos {α : Type} {p : α → Bool} (all back : List α)
    (drops : ∀ a ∈ back, p a) : (all ++ back).rdropWhile p = all.rdropWhile p := by
  induction back using List.reverseRecOn with
  | nil => rw [List.append_nil]
  | append_singleton back a ih =>
    rw [← List.append_assoc, List.rdropWhile_concat_pos _ _ _ (drops a (by simp))]
    exact ih fun b member => drops b (List.mem_append_left _ member)

theorem strip_append_left (space : ∀ c ∈ pad, isSpace c) (text : Text) :
    strip (pad ++ text) = strip text := by
  rw [strip, List.dropWhile_append_of_pos space, strip]

theorem strip_append_right (space : ∀ c ∈ pad, isSpace c) (text : Text) :
    strip (text ++ pad) = strip text := by
  rw [strip, List.dropWhile_append, strip]
  split
  · next none =>
    rw [List.isEmpty_iff.mp none, List.rdropWhile_nil, List.dropWhile_eq_nil_iff.mpr space,
      List.rdropWhile_nil]
  · exact rdropWhile_append_of_pos _ _ space

theorem strip_of_trimmed (trimmed : Trimmed text) : strip text = text := by
  have front : text.dropWhile isSpace = text := by
    cases text with
    | nil => rfl
    | cons c rest => exact List.dropWhile_cons_of_neg (by simp [trimmed.head c rfl])
  rw [strip, front, List.rdropWhile_eq_self_iff]
  intro some
  simp [trimmed.last _ (List.getLast?_eq_some_getLast some)]

/-- White space around a text goes. -/
theorem strip_pads {back : Text} (front : ∀ c ∈ pad, isSpace c) (trimmed : Trimmed text)
    (behind : ∀ c ∈ back, isSpace c) : strip (pad ++ text ++ back) = text := by
  rw [strip_append_right behind, strip_append_left front, strip_of_trimmed trimmed]

theorem strip_eq_nil_iff : strip text = [] ↔ ∀ c ∈ text, isSpace c := by
  constructor
  · intro none
    rw [strip, List.rdropWhile_eq_nil_iff] at none
    have empty : text.dropWhile isSpace = [] := by
      cases left : text.dropWhile isSpace with
      | nil => rfl
      | cons c rest =>
        have first := List.head_dropWhile_not isSpace (by rw [left]; nofun)
        simp only [left, List.head_cons] at first
        rw [left] at none
        rw [none c List.mem_cons_self] at first
        cases first
    exact List.dropWhile_eq_nil_iff.mp empty
  · intro space
    rw [strip, List.dropWhile_eq_nil_iff.mpr space, List.rdropWhile_nil]

end Strip

section Split

variable {sep c : Char} {text : Text}

theorem length_splitOn (sep : Char) (text : Text) :
    (text.splitOn sep).length = text.count sep + 1 := by
  induction text with
  | nil => rfl
  | cons c rest ih =>
    rw [List.splitOn_cons_eq_if_modifyHead]
    split
    · next same => simp [beq_iff_eq.mp same, ih]
    · next other =>
      rw [List.length_modifyHead, ih, List.count_cons, if_neg other]

/-- Joined pieces are cut where each of them is. -/
theorem splitOn_intercalate_eq_flatMap {pieces : List Text} (some : pieces ≠ []) :
    ([sep].intercalate pieces).splitOn sep = pieces.flatMap fun piece => piece.splitOn sep := by
  induction pieces with
  | nil => exact absurd rfl some
  | cons piece rest ih =>
    cases rest with
    | nil => simp
    | cons next later =>
      rw [List.intercalate_cons_cons, List.append_assoc, List.singleton_append,
        List.splitOn_append_cons_self, ih (List.cons_ne_nil _ _)]
      rfl

theorem length_flatMap_splitOn (sep : Char) (pieces : List Text) :
    (pieces.flatMap fun piece => piece.splitOn sep).length =
      pieces.length + (pieces.map fun piece => piece.count sep).sum := by
  induction pieces with
  | nil => rfl
  | cons piece rest ih =>
    rw [List.flatMap_cons, List.length_append, length_splitOn, ih, List.length_cons, List.map_cons,
      List.sum_cons]
    omega

/-- There are as many cuts as pieces only if no piece is cut. -/
theorem not_mem_of_length_splitOn {pieces : List Text} (some : pieces ≠ [])
    (few : (([sep].intercalate pieces).splitOn sep).length = pieces.length) :
    ∀ piece ∈ pieces, sep ∉ piece := by
  rw [splitOn_intercalate_eq_flatMap some, length_flatMap_splitOn] at few
  intro piece member
  have none : (pieces.map fun piece => piece.count sep).sum = 0 := by omega
  exact List.count_eq_zero.mp
    (List.sum_eq_zero_iff_forall_eq_nat.mp none _ (List.mem_map_of_mem member))

theorem beq_sep_eq_false (space : isSpace c) (other : isSpace sep = false) : (c == sep) = false := by
  apply beq_eq_false_iff_ne.mpr
  rintro rfl
  rw [other] at space
  cases space

theorem map_strip_splitOn_cons (space : isSpace c) (other : isSpace sep = false) (text : Text) :
    ((c :: text).splitOn sep).map strip = (text.splitOn sep).map strip := by
  rw [List.splitOn_cons_eq_if_modifyHead, beq_sep_eq_false space other]
  cases cuts : text.splitOn sep with
  | nil => rfl
  | cons piece rest =>
    have pad : ∀ b ∈ [c], isSpace b := by simpa using space
    have front : strip (c :: piece) = strip piece := strip_append_left pad piece
    simp [front]

/-- A character behind a text is one behind its last piece. -/
theorem exists_splitOn_concat (different : (c == sep) = false) (text : Text) :
    ∃ front last, text.splitOn sep = front ++ [last] ∧
      (text ++ [c]).splitOn sep = front ++ [last ++ [c]] := by
  induction text with
  | nil =>
    refine ⟨[], [], rfl, ?_⟩
    rw [List.nil_append, List.splitOn_cons_eq_if_modifyHead, different]
    rfl
  | cons b rest ih =>
    obtain ⟨front, last, cuts, longer⟩ := ih
    rw [List.cons_append, List.splitOn_cons_eq_if_modifyHead, List.splitOn_cons_eq_if_modifyHead,
      cuts, longer]
    split
    · exact ⟨[] :: front, last, rfl, rfl⟩
    · cases front with
      | nil => exact ⟨[], b :: last, rfl, rfl⟩
      | cons piece front => exact ⟨(b :: piece) :: front, last, rfl, rfl⟩

theorem map_strip_splitOn_concat (space : isSpace c) (other : isSpace sep = false) (text : Text) :
    ((text ++ [c]).splitOn sep).map strip = (text.splitOn sep).map strip := by
  obtain ⟨front, last, cuts, longer⟩ := exists_splitOn_concat (beq_sep_eq_false space other) text
  have pad : ∀ b ∈ [c], isSpace b := by simpa using space
  rw [cuts, longer, List.map_append, List.map_append, List.map_singleton, List.map_singleton,
    strip_append_right pad]

theorem map_strip_splitOn_dropWhile (other : isSpace sep = false) (text : Text) :
    ((text.dropWhile isSpace).splitOn sep).map strip = (text.splitOn sep).map strip := by
  induction text with
  | nil => rfl
  | cons c rest ih =>
    rw [List.dropWhile_cons]
    split
    · next space => rw [ih, map_strip_splitOn_cons space other]
    · rfl

theorem map_strip_splitOn_rdropWhile (other : isSpace sep = false) (text : Text) :
    ((text.rdropWhile isSpace).splitOn sep).map strip = (text.splitOn sep).map strip := by
  induction text using List.reverseRecOn with
  | nil => rfl
  | append_singleton text c ih =>
    rw [List.rdropWhile_concat]
    split
    · next space => rw [ih, map_strip_splitOn_concat space other]
    · rfl

theorem map_strip_splitOn_strip (other : isSpace sep = false) (text : Text) :
    ((strip text).splitOn sep).map strip = (text.splitOn sep).map strip := by
  rw [strip, map_strip_splitOn_rdropWhile other, map_strip_splitOn_dropWhile other]

end Split

end LinuxSys.Lib.PyText
