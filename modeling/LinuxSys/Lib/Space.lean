import Mathlib.Data.List.Find
import LinuxSys.Lib.Utf8

/-! # White space around a text

White space is a list of words, the UTF-8 encodings of its characters, stripped from the front and
from the back. An ASCII character is no part of any longer word, so a text between ASCII characters
that are not white space is stripped of nothing.
-/

namespace LinuxSys.Lib

/-- Strip words from the front. -/
def dropWords (words : List Bytes) : Bytes → Bytes
  | [] => []
  | a :: rest =>
    match words.find? fun w => w.isPrefixOf (a :: rest) with
    | some w => dropWords words (rest.drop (w.length - 1))
    | none => a :: rest
termination_by text => text.length
decreasing_by
  simp only [List.length_drop, List.length_cons]
  omega

def trimWords (words : List Bytes) (text : Bytes) : Bytes :=
  (dropWords (words.map List.reverse) (dropWords words text).reverse).reverse

/-- The character stands in no longer word. -/
def Single (words : List Bytes) (c : UInt8) : Prop := ∀ w ∈ words, c ∈ w → w = [c]

section DropWords

variable {words : List Bytes} {c : UInt8}

theorem Single.reverse (single : Single words c) : Single (words.map List.reverse) c := by
  intro w member inside
  obtain ⟨v, here, rfl⟩ := List.mem_map.mp member
  rw [single v here (List.mem_reverse.mp inside)]
  rfl

@[simp] theorem dropWords_nil (words : List Bytes) : dropWords words [] = [] := by
  rw [dropWords]

theorem dropWords_of_some {w : Bytes} {a : UInt8} {rest : Bytes}
    (found : (words.find? fun w => w.isPrefixOf (a :: rest)) = some w) :
    dropWords words (a :: rest) = dropWords words (rest.drop (w.length - 1)) := by
  rw [dropWords]
  simp only [found]

theorem dropWords_of_none {a : UInt8} {rest : Bytes}
    (found : (words.find? fun w => w.isPrefixOf (a :: rest)) = none) :
    dropWords words (a :: rest) = a :: rest := by
  rw [dropWords]
  simp only [found]

/-- A character of its own is the word that is found where it stands. -/
theorem find?_cons_of_mem (single : Single words c) (whole : [] ∉ words) (member : [c] ∈ words)
    (rest : Bytes) : (words.find? fun w => w.isPrefixOf (c :: rest)) = some [c] := by
  cases found : words.find? fun w => w.isPrefixOf (c :: rest) with
  | none =>
    have other := List.find?_eq_none.mp found [c] member
    simp at other
  | some w =>
    have here := List.mem_of_find?_eq_some found
    have front : w.isPrefixOf (c :: rest) := by simpa using List.find?_some found
    rw [List.isPrefixOf_iff_prefix] at front
    cases w with
    | nil => exact absurd here whole
    | cons b w =>
      have same := (List.cons_prefix_cons.mp front).1
      rw [single _ here (by rw [same]; exact List.mem_cons_self)]

theorem dropWords_cons_of_mem (single : Single words c) (whole : [] ∉ words) (member : [c] ∈ words)
    (rest : Bytes) : dropWords words (c :: rest) = dropWords words rest := by
  rw [dropWords_of_some (find?_cons_of_mem single whole member rest)]
  rfl

theorem dropWords_cons_of_not_mem (single : Single words c) (whole : [] ∉ words)
    (absent : [c] ∉ words) (rest : Bytes) : dropWords words (c :: rest) = c :: rest := by
  apply dropWords_of_none
  rw [List.find?_eq_none]
  intro w here front
  rw [List.isPrefixOf_iff_prefix] at front
  cases w with
  | nil => exact whole here
  | cons b w =>
    have same := (List.cons_prefix_cons.mp front).1
    have one := single _ here (by rw [same]; exact List.mem_cons_self)
    exact absent (one ▸ here)

/-- A word in front of the text with the character behind it is in front of the text. -/
theorem find?_append_cons (single : Single words c) (a : UInt8) (rest right : Bytes) :
    (words.find? fun w => w.isPrefixOf (a :: (rest ++ c :: right))) =
      words.find? fun w => w.isPrefixOf (a :: rest) := by
  refine List.find?_congr fun w here => ?_
  rw [Bool.eq_iff_iff, List.isPrefixOf_iff_prefix, List.isPrefixOf_iff_prefix,
    ← List.cons_append]
  constructor
  · intro front
    rcases List.prefix_or_prefix_of_prefix front (List.prefix_append _ _) with short | ⟨more, rfl⟩
    · exact short
    · cases more with
      | nil => exact (List.append_nil (a :: rest)).symm ▸ List.prefix_rfl
      | cons b more =>
        have behind := (List.prefix_append_right_inj _).mp front
        have same := (List.cons_prefix_cons.mp behind).1
        have one := single _ here (by rw [same]; simp)
        simp at one
  · intro front
    exact front.trans (List.prefix_append _ _)

theorem find?_append_one (single : Single words c) (a : UInt8) (rest : Bytes) :
    (words.find? fun w => w.isPrefixOf (a :: (rest ++ [c]))) =
      words.find? fun w => w.isPrefixOf (a :: rest) :=
  find?_append_cons single a rest []

theorem dropWords_append_one (single : Single words c) (whole : [] ∉ words) (member : [c] ∈ words)
    (text : Bytes) : dropWords words (text ++ [c]) =
      if dropWords words text = [] then [] else dropWords words text ++ [c] := by
  have none : dropWords words [c] = [] := by
    rw [dropWords_cons_of_mem single whole member, dropWords_nil]
  induction text using dropWords.induct words with
  | case1 => rw [dropWords_nil, if_pos rfl, List.nil_append, none]
  | case2 a rest w found ih =>
    have front : w.isPrefixOf (a :: rest) := by simpa using List.find?_some found
    have inside : w.length - 1 ≤ rest.length := by
      have bound := (List.isPrefixOf_iff_prefix.mp front).length_le
      rw [List.length_cons] at bound
      omega
    rw [dropWords_of_some found, List.cons_append,
      dropWords_of_some ((find?_append_one single a rest).trans found),
      List.drop_append_of_le_length inside, ih]
  | case3 a rest found =>
    rw [dropWords_of_none found, List.cons_append,
      dropWords_of_none ((find?_append_one single a rest).trans found), if_neg (by simp)]

theorem nil_not_mem_reverse (whole : [] ∉ words) : [] ∉ words.map List.reverse := by
  intro inside
  obtain ⟨w, member, empty⟩ := List.mem_map.mp inside
  rw [List.reverse_eq_nil_iff.mp empty] at member
  exact whole member

theorem singleton_mem_reverse_iff : [c] ∈ words.map List.reverse ↔ [c] ∈ words := by
  constructor
  · intro inside
    obtain ⟨w, member, equal⟩ := List.mem_map.mp inside
    rw [List.reverse_eq_iff.mp equal] at member
    exact member
  · intro member
    exact List.mem_map.mpr ⟨[c], member, rfl⟩

/-- A white space character behind the text changes nothing. -/
theorem trimWords_append_one (single : Single words c) (whole : [] ∉ words) (member : [c] ∈ words)
    (text : Bytes) : trimWords words (text ++ [c]) = trimWords words text := by
  rw [trimWords, dropWords_append_one single whole member]
  split
  · next empty => rw [trimWords, empty]
  · rw [List.reverse_append]
    change (dropWords _ (c :: (dropWords words text).reverse)).reverse = _
    rw [dropWords_cons_of_mem single.reverse (nil_not_mem_reverse whole)
      (singleton_mem_reverse_iff.mpr member)]
    rfl

theorem dropWords_append_left {left : Bytes} (whole : [] ∉ words)
    (blank : ∀ b ∈ left, Single words b ∧ [b] ∈ words) (rest : Bytes) :
    dropWords words (left ++ rest) = dropWords words rest := by
  induction left with
  | nil => rfl
  | cons b left ih =>
    obtain ⟨single, member⟩ := blank b List.mem_cons_self
    rw [List.cons_append, dropWords_cons_of_mem single whole member]
    exact ih fun d later => blank d (List.mem_cons_of_mem b later)

theorem trimWords_blank {text : Bytes} (whole : [] ∉ words)
    (blank : ∀ b ∈ text, Single words b ∧ [b] ∈ words) : trimWords words text = [] := by
  have front := dropWords_append_left whole blank []
  rw [List.append_nil, dropWords_nil] at front
  rw [trimWords, front, List.reverse_nil, dropWords_nil, List.reverse_nil]

theorem dropWords_of_head {text : Bytes} (whole : [] ∉ words)
    (head : ∀ b ∈ text.head?, Single words b ∧ [b] ∉ words) : dropWords words text = text := by
  cases text with
  | nil => rw [dropWords_nil]
  | cons b rest =>
    obtain ⟨single, absent⟩ := head b rfl
    exact dropWords_cons_of_not_mem single whole absent rest

/-- A text between characters that are no white space is what is left within white space. -/
theorem trimWords_around {left text right : Bytes} (whole : [] ∉ words) (some : text ≠ [])
    (front : ∀ b ∈ left, Single words b ∧ [b] ∈ words)
    (back : ∀ b ∈ right, Single words b ∧ [b] ∈ words)
    (inner : ∀ b ∈ text, Single words b ∧ [b] ∉ words) :
    trimWords words (left ++ text ++ right) = text := by
  have first : dropWords words (left ++ text ++ right) = text ++ right := by
    rw [List.append_assoc, dropWords_append_left whole front]
    refine dropWords_of_head whole fun b head => ?_
    rw [List.head?_append_of_ne_nil _ some] at head
    exact inner b (List.mem_of_mem_head? head)
  have last : dropWords (words.map List.reverse) (right.reverse ++ text.reverse) =
      text.reverse := by
    rw [dropWords_append_left (nil_not_mem_reverse whole)]
    · refine dropWords_of_head (nil_not_mem_reverse whole) fun b head => ?_
      obtain ⟨single, absent⟩ := inner b (List.mem_reverse.mp (List.mem_of_mem_head? head))
      exact ⟨single.reverse, fun member => absent (singleton_mem_reverse_iff.mp member)⟩
    · intro b member
      obtain ⟨single, space⟩ := back b (List.mem_reverse.mp member)
      exact ⟨single.reverse, singleton_mem_reverse_iff.mpr space⟩
  rw [trimWords, first, List.reverse_append, last, List.reverse_reverse]

end DropWords

namespace Utf8

/-- The characters with the White_Space property. -/
def spaces : List Bytes :=
  [[0x09], [0x0A], [0x0B], [0x0C], [0x0D], [0x20], [0xC2, 0x85], [0xC2, 0xA0], [0xE1, 0x9A, 0x80],
    [0xE2, 0x80, 0x80], [0xE2, 0x80, 0x81], [0xE2, 0x80, 0x82], [0xE2, 0x80, 0x83],
    [0xE2, 0x80, 0x84], [0xE2, 0x80, 0x85], [0xE2, 0x80, 0x86], [0xE2, 0x80, 0x87],
    [0xE2, 0x80, 0x88], [0xE2, 0x80, 0x89], [0xE2, 0x80, 0x8A], [0xE2, 0x80, 0xA8],
    [0xE2, 0x80, 0xA9], [0xE2, 0x80, 0xAF], [0xE2, 0x81, 0x9F], [0xE3, 0x80, 0x80]]

theorem nil_not_mem_spaces : [] ∉ spaces := by decide

theorem single_spaces {c : UInt8} (ascii : c ≤ 0x7F) : Single spaces c := by
  have longer : ∀ w ∈ spaces, w.length = 1 ∨ ∀ b ∈ w, 0x7F < b := by simp [spaces]
  intro w member inside
  rcases longer w member with one | high
  · obtain ⟨b, rfl⟩ := List.length_eq_one_iff.mp one
    rw [List.mem_singleton.mp inside]
  · exact absurd (high c inside) (by simpa using ascii)

end Utf8

end LinuxSys.Lib
