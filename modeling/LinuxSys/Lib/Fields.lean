import Mathlib.Data.List.Forall2
import LinuxSys.Lib.Space

/-! # The fields of a text

White space, a list of words, cuts a text into pieces, and its fields are the pieces that are not
empty. A field is a text with no word in it. Lossy decoding keeps the cuts: white space starts with
a byte that starts a character, so it is part of no ill-formed piece.
-/

namespace LinuxSys.Lib

/-- Put a text in front of the first piece. -/
def glue (front : Bytes) : List Bytes → List Bytes
  | [] => []
  | piece :: later => (front ++ piece) :: later

/-- The pieces between the words. -/
def cuts (words : List Bytes) : Bytes → List Bytes
  | [] => [[]]
  | a :: rest =>
    match words.find? fun w => w.isPrefixOf (a :: rest) with
    | some w => [] :: cuts words (rest.drop (w.length - 1))
    | none => glue [a] (cuts words rest)
termination_by text => text.length
decreasing_by
  all_goals
    simp only [List.length_drop, List.length_cons]
    omega

def fields (words : List Bytes) (text : Bytes) : List Bytes :=
  (cuts words text).filter fun piece => piece ≠ []

/-- No word is in the text. -/
def Wordless (words : List Bytes) (text : Bytes) : Prop := ∀ w ∈ words, ¬ w <:+: text

section Cuts

variable {words : List Bytes} {c : UInt8} {text : Bytes}

@[simp] theorem cuts_nil (words : List Bytes) : cuts words [] = [[]] := by
  rw [cuts]

theorem cuts_of_some {w : Bytes} {a : UInt8} {rest : Bytes}
    (found : (words.find? fun w => w.isPrefixOf (a :: rest)) = some w) :
    cuts words (a :: rest) = [] :: cuts words (rest.drop (w.length - 1)) := by
  rw [cuts]
  simp only [found]

theorem cuts_of_none {a : UInt8} {rest : Bytes}
    (found : (words.find? fun w => w.isPrefixOf (a :: rest)) = none) :
    cuts words (a :: rest) = glue [a] (cuts words rest) := by
  rw [cuts]
  simp only [found]

theorem cuts_ne_nil (words : List Bytes) (text : Bytes) : cuts words text ≠ [] := by
  induction text using cuts.induct words with
  | case1 => rw [cuts_nil]; exact List.cons_ne_nil _ _
  | case2 a rest w found ih => rw [cuts_of_some found]; exact List.cons_ne_nil _ _
  | case3 a rest found ih =>
    rw [cuts_of_none found]
    cases pieces : cuts words rest with
    | nil => exact absurd pieces ih
    | cons piece later => exact List.cons_ne_nil _ _

theorem glue_append (front : Bytes) {left : List Bytes} (some : left ≠ []) (right : List Bytes) :
    glue front (left ++ right) = glue front left ++ right := by
  cases left with
  | nil => exact absurd rfl some
  | cons piece later => rfl

theorem glue_glue (front middle : Bytes) (pieces : List Bytes) :
    glue front (glue middle pieces) = glue (front ++ middle) pieces := by
  cases pieces with
  | nil => rfl
  | cons piece later => rw [glue, glue, glue, List.append_assoc]

/-- A character of its own cuts wherever it stands. -/
theorem cuts_append_cons (single : Single words c) (whole : [] ∉ words) (member : [c] ∈ words)
    (left right : Bytes) :
    cuts words (left ++ c :: right) = cuts words left ++ cuts words right := by
  induction left using cuts.induct words with
  | case1 =>
    rw [List.nil_append, cuts_of_some (find?_cons_of_mem single whole member right), cuts_nil]
    rfl
  | case2 a rest w found ih =>
    have front : w.isPrefixOf (a :: rest) := by simpa using List.find?_some found
    have inside : w.length - 1 ≤ rest.length := by
      have bound := (List.isPrefixOf_iff_prefix.mp front).length_le
      rw [List.length_cons] at bound
      omega
    rw [cuts_of_some found, List.cons_append,
      cuts_of_some ((find?_append_cons single a rest right).trans found),
      List.drop_append_of_le_length inside, ih]
    rfl
  | case3 a rest found ih =>
    rw [cuts_of_none found, List.cons_append,
      cuts_of_none ((find?_append_cons single a rest right).trans found), ih,
      glue_append _ (cuts_ne_nil words rest)]

theorem fields_append_cons (single : Single words c) (whole : [] ∉ words) (member : [c] ∈ words)
    (left right : Bytes) :
    fields words (left ++ c :: right) = fields words left ++ fields words right := by
  rw [fields, cuts_append_cons single whole member, List.filter_append]
  rfl

/-- A text without a word is cut nowhere; any other loses its words. -/
theorem cuts_cases (whole : [] ∉ words) (text : Bytes) :
    Wordless words text ∧ cuts words text = [text] ∨
      ¬ Wordless words text ∧ 1 < (cuts words text).length ∧
        (cuts words text).flatten.length < text.length := by
  induction text using cuts.induct words with
  | case1 =>
    refine .inl ⟨fun w here inside => ?_, cuts_nil words⟩
    rw [List.infix_nil.mp inside] at here
    exact whole here
  | case2 a rest w found ih =>
    have here := List.mem_of_find?_eq_some found
    have front : w.isPrefixOf (a :: rest) := by simpa using List.find?_some found
    refine .inr ⟨fun none => none w here (List.isPrefixOf_iff_prefix.mp front).isInfix, ?_, ?_⟩
    · rw [cuts_of_some found, List.length_cons]
      exact Nat.succ_lt_succ (List.length_pos_of_ne_nil (cuts_ne_nil words _))
    have shorter : (rest.drop (w.length - 1)).length ≤ rest.length := by
      rw [List.length_drop]
      exact Nat.sub_le _ _
    rw [cuts_of_some found, List.flatten_cons, List.nil_append, List.length_cons]
    rcases ih with ⟨-, one⟩ | ⟨-, -, fewer⟩
    · rw [one, List.flatten_singleton]
      exact Nat.lt_succ_of_le shorter
    · exact Nat.lt_succ_of_lt (fewer.trans_le shorter)
  | case3 a rest found ih =>
    rw [cuts_of_none found]
    rcases ih with ⟨none, one⟩ | ⟨some, more, fewer⟩
    · rw [one]
      refine .inl ⟨fun w here inside => ?_, rfl⟩
      rcases List.infix_cons_iff.mp inside with front | later
      · exact List.find?_eq_none.mp found w here (List.isPrefixOf_iff_prefix.mpr front)
      · exact none w here later
    · cases pieces : cuts words rest with
      | nil => exact absurd pieces (cuts_ne_nil words rest)
      | cons piece later =>
        rw [pieces] at more fewer
        rw [List.flatten_cons] at fewer
        refine .inr ⟨fun none => some fun w here inside => ?_, more, by simpa [glue] using fewer⟩
        exact none w here (List.infix_cons_iff.mpr (.inr inside))

theorem cuts_of_wordless (whole : [] ∉ words) (none : Wordless words text) :
    cuts words text = [text] := by
  rcases cuts_cases whole text with ⟨-, one⟩ | ⟨some, -⟩
  · exact one
  · exact absurd none some

theorem fields_of_wordless (whole : [] ∉ words) (none : Wordless words text) (some : text ≠ []) :
    fields words text = [text] := by
  rw [fields, cuts_of_wordless whole none, List.filter_cons_of_pos (by simpa using some),
    List.filter_nil]

/-- Texts with this character between them. -/
def joined (c : UInt8) : List Bytes → Bytes
  | [] => []
  | [text] => text
  | text :: rest => text ++ c :: joined c rest

theorem fields_joined (single : Single words c) (whole : [] ∉ words) (member : [c] ∈ words)
    {texts : List Bytes} (each : ∀ text ∈ texts, text ≠ [] ∧ Wordless words text) :
    fields words (joined c texts) = texts := by
  induction texts using joined.induct with
  | case1 =>
    rw [joined, fields, cuts_nil]
    rfl
  | case2 text =>
    obtain ⟨some, none⟩ := each text List.mem_cons_self
    exact fields_of_wordless whole none some
  | case3 text rest more ih =>
    obtain ⟨some, none⟩ := each text List.mem_cons_self
    rw [joined, fields_append_cons single whole member, fields_of_wordless whole none some,
      ih fun other later => each other (List.mem_cons_of_mem text later)]
    · rfl
    · exact more

theorem mem_of_mem_joined {b : UInt8} {texts : List Bytes} (inside : b ∈ joined c texts) :
    b = c ∨ ∃ text ∈ texts, b ∈ text := by
  induction texts using joined.induct with
  | case1 => cases inside
  | case2 text => exact .inr ⟨text, List.mem_cons_self, inside⟩
  | case3 text rest more ih =>
    rw [joined] at inside
    · rcases List.mem_append.mp inside with here | later
      · exact .inr ⟨text, List.mem_cons_self, here⟩
      · rcases List.mem_cons.mp later with same | later
        · exact .inl same
        · rcases ih later with same | ⟨other, member, here⟩
          · exact .inl same
          · exact .inr ⟨other, List.mem_cons_of_mem text member, here⟩
    · exact more

/-- Bytes that start no word are part of the piece they stand in front of. -/
theorem cuts_append_of_inner {front : Bytes} (inner : ∀ b ∈ front, ∀ w ∈ words, w.head? ≠ some b)
    (whole : [] ∉ words) (back : Bytes) :
    cuts words (front ++ back) = glue front (cuts words back) := by
  induction front with
  | nil =>
    cases pieces : cuts words back with
    | nil => exact absurd pieces (cuts_ne_nil words back)
    | cons piece later => rw [List.nil_append, pieces, glue, List.nil_append]
  | cons b front ih =>
    have none : (words.find? fun w => w.isPrefixOf (b :: (front ++ back))) = none := by
      rw [List.find?_eq_none]
      intro w here found
      cases w with
      | nil => exact whole here
      | cons first w =>
        have same := (List.cons_prefix_cons.mp (List.isPrefixOf_iff_prefix.mp found)).1
        exact inner b List.mem_cons_self _ here (congrArg some same)
    rw [List.cons_append, cuts_of_none none,
      ih fun d later => inner d (List.mem_cons_of_mem b later), glue_glue]
    rfl

end Cuts

namespace Utf8

/-- Two texts that are the same, or both of which have a byte outside ASCII. -/
def Alike (raw text : Bytes) : Prop :=
  raw = text ∨ (∃ b ∈ raw, 0x7F < b) ∧ ∃ b ∈ text, 0x7F < b

section Alike

variable {raw text : Bytes}

theorem Alike.refl (text : Bytes) : Alike text text := .inl rfl

theorem Alike.symm (alike : Alike raw text) : Alike text raw :=
  alike.imp Eq.symm And.symm

theorem Alike.append_left (alike : Alike raw text) (front : Bytes) :
    Alike (front ++ raw) (front ++ text) := by
  rcases alike with rfl | ⟨⟨b, inside, high⟩, d, within, other⟩
  · exact .inl rfl
  · exact .inr ⟨⟨b, List.mem_append_right _ inside, high⟩, d, List.mem_append_right _ within, other⟩

theorem Alike.of_ascii (alike : Alike raw text) (ascii : (∀ b ∈ raw, b ≤ 0x7F) ∨ ∀ b ∈ text, b ≤ 0x7F) :
    raw = text := by
  rcases alike with same | ⟨⟨b, inside, high⟩, d, within, other⟩
  · exact same
  · rcases ascii with low | low
    · exact absurd (low b inside) (by simpa using high)
    · exact absurd (low d within) (by simpa using other)

theorem Alike.ne_nil_iff (alike : Alike raw text) : raw ≠ [] ↔ text ≠ [] := by
  rcases alike with rfl | ⟨⟨b, inside, -⟩, d, within, -⟩
  · rfl
  · exact iff_of_true (List.ne_nil_of_mem inside) (List.ne_nil_of_mem within)

theorem alike_glue {front back : Bytes} {left right : List Bytes}
    (pieces : List.Forall₂ Alike left right)
    (fronts : ∀ raw text, Alike raw text → Alike (front ++ raw) (back ++ text)) :
    List.Forall₂ Alike (glue front left) (glue back right) := by
  cases pieces with
  | nil => exact .nil
  | cons first later => exact .cons (fronts _ _ first) later

theorem alike_of_foreign {front back : Bytes} (left : ∃ b ∈ front, 0x7F < b)
    (right : ∃ b ∈ back, 0x7F < b) (raw text : Bytes) : Alike (front ++ raw) (back ++ text) := by
  obtain ⟨b, inside, high⟩ := left
  obtain ⟨d, within, other⟩ := right
  exact .inr ⟨⟨b, List.mem_append_left _ inside, high⟩, d, List.mem_append_left _ within, other⟩

end Alike

section Lossy

variable {b low high : UInt8} {owed : ℕ} {rest : Bytes}

/-- White space is one well-formed character. -/
theorem space_start {w : Bytes} (member : (b :: w) ∈ spaces) : ∃ owed low high,
    lead b = some (owed, low, high) ∧ tails owed low high w = owed ∧ w.length = owed := by
  have each : ∀ w ∈ spaces, ∀ b ∈ w.head?, ∃ range ∈ lead b,
      tails range.1 range.2.1 range.2.2 w.tail = range.1 ∧ w.tail.length = range.1 := by decide
  obtain ⟨⟨owed, low, high⟩, seen, full, width⟩ := each _ member b rfl
  exact ⟨owed, low, high, seen, full, width⟩

theorem no_space_start (outside : (0x80 ≤ b ∧ b ≤ 0xBF) ∨ b = 0xEF) :
    ∀ w ∈ spaces, w.head? ≠ some b := by
  have each : ∀ w ∈ spaces, ∀ b ∈ w.head?, (b < 0x80 ∨ 0xBF < b) ∧ b ≠ 0xEF := by decide
  intro w member head
  obtain ⟨apart, other⟩ := each w member b head
  rcases outside with ⟨above, below⟩ | same
  · rcases apart with less | more
    · exact UInt8.lt_irrefl _ (UInt8.lt_of_lt_of_le less above)
    · exact UInt8.lt_irrefl _ (UInt8.lt_of_lt_of_le more below)
  · exact other same

/-- The counted continuation bytes are in their range. -/
theorem range_of_mem_tails {c : UInt8} {bytes : Bytes} (least : 0x80 ≤ low) (most : high ≤ 0xBF)
    (member : c ∈ bytes.take (tails owed low high bytes)) : 0x80 ≤ c ∧ c ≤ 0xBF := by
  induction owed generalizing low high bytes with
  | zero => simp [tails] at member
  | succ owed ih =>
    cases bytes with
    | nil => simp at member
    | cons b rest =>
      rw [tails] at member
      split at member
      · next inside =>
        rcases List.mem_cons.mp member with rfl | deeper
        · exact ⟨UInt8.le_trans least inside.1, UInt8.le_trans inside.2 most⟩
        · exact ih (by decide) (by decide) deeper
      · simp at member

theorem lead_range (seen : lead b = some (owed, low, high)) : 0x80 ≤ low ∧ high ≤ 0xBF := by
  unfold lead at seen
  split_ifs at seen <;> (cases seen; decide)

/-- What is skipped behind the first byte of a piece starts no white space. -/
theorem inner_tails (seen : lead b = some (owed, low, high)) :
    ∀ c ∈ rest.take (tails owed low high rest), ∀ w ∈ spaces, w.head? ≠ some c := by
  obtain ⟨least, most⟩ := lead_range seen
  exact fun c member => no_space_start (.inl (range_of_mem_tails least most member))

/-- White space in front of a text is its first character, which is whole. -/
theorem space_in_front {w : Bytes} (seen : lead b = some (owed, low, high)) (member : w ∈ spaces)
    (front : w <+: b :: rest) : tails owed low high rest = owed ∧ w = b :: rest.take owed := by
  cases w with
  | nil => exact absurd member nil_not_mem_spaces
  | cons d w =>
    obtain ⟨rfl, ⟨more, rfl⟩⟩ := List.cons_prefix_cons.mp front
    obtain ⟨owed', low', high', again, full, width⟩ := space_start member
    rw [again] at seen
    cases seen
    have whole := tails_take_append more full
    rw [List.take_of_length_le width.le] at whole
    exact ⟨whole, by rw [List.take_left' width]⟩

theorem cuts_piece (none : ∀ w ∈ spaces, ¬ w <+: b :: rest) {front back : Bytes}
    (parts : rest = front ++ back) (inner : ∀ c ∈ front, ∀ w ∈ spaces, w.head? ≠ some c) :
    cuts spaces (b :: rest) = glue (b :: front) (cuts spaces back) := by
  have missed : (spaces.find? fun w => w.isPrefixOf (b :: rest)) = Option.none := by
    rw [List.find?_eq_none]
    exact fun w here found => none w here (List.isPrefixOf_iff_prefix.mp found)
  rw [cuts_of_none missed, parts, cuts_append_of_inner inner nil_not_mem_spaces, glue_glue]
  rfl

theorem cuts_replacement (back : Bytes) :
    cuts spaces (replacement ++ back) = glue replacement (cuts spaces back) := by
  apply cuts_append_of_inner _ nil_not_mem_spaces
  intro c member
  apply no_space_start
  revert c
  decide

/-- A whole character is white space or not whatever is behind it. -/
theorem cuts_character (seen : lead b = some (owed, low, high))
    (full : tails owed low high rest = owed) :
    (∀ w ∈ spaces, w = b :: rest.take owed →
        cuts spaces (b :: rest) = [] :: cuts spaces (rest.drop owed)) ∧
      (b :: rest.take owed ∉ spaces →
        cuts spaces (b :: rest) = glue (b :: rest.take owed) (cuts spaces (rest.drop owed))) := by
  have fits : owed ≤ rest.length := by
    rw [← full]
    exact tails_le_length owed low high rest
  constructor
  · rintro w member rfl
    cases found : spaces.find? fun w => w.isPrefixOf (b :: rest) with
    | none =>
      refine absurd ?_ (List.find?_eq_none.mp found _ member)
      exact List.isPrefixOf_iff_prefix.mpr (List.cons_prefix_cons.mpr ⟨rfl, List.take_prefix _ _⟩)
    | some v =>
      have here := List.mem_of_find?_eq_some found
      have front : v.isPrefixOf (b :: rest) := by simpa using List.find?_some found
      have same := (space_in_front seen here (List.isPrefixOf_iff_prefix.mp front)).2
      rw [cuts_of_some found, same, List.length_cons, List.length_take, min_eq_left fits]
      rfl
  · intro other
    refine cuts_piece ?_ (List.take_append_drop owed rest).symm ?_
    · intro w member front
      exact other ((space_in_front seen member front).2 ▸ member)
    · have inner : ∀ c ∈ rest.take (tails owed low high rest), _ := inner_tails seen
      rwa [full] at inner

theorem foreign_of_tails (seen : lead b = some (owed, low, high))
    (partly : tails owed low high rest ≠ owed) : 0x7F < b := by
  by_contra low
  have ascii : b ≤ 0x7F := by simpa using low
  obtain rfl := ascii_of_lead_zero seen ascii
  exact partly (by rw [tails]; intros; contradiction)

/-- Lossy decoding makes no cut and removes none. -/
theorem cuts_lossy (bytes : Bytes) :
    List.Forall₂ Alike (cuts spaces bytes) (cuts spaces (lossy bytes)) := by
  have foreign : ∃ d ∈ replacement, 0x7F < d := ⟨0xEF, by decide, by decide⟩
  induction bytes using pieces_induction with
  | nil =>
    rw [lossy_nil, cuts_nil]
    exact .cons (Alike.refl []) .nil
  | bad b rest seen ih =>
    have none : ∀ w ∈ spaces, ¬ w <+: b :: rest := by
      intro w member front
      cases w with
      | nil => exact nil_not_mem_spaces member
      | cons d w =>
        obtain ⟨rfl, -⟩ := List.cons_prefix_cons.mp front
        obtain ⟨owed, low, high, some, -⟩ := space_start member
        rw [seen] at some
        cases some
    have high : 0x7F < b := by
      by_contra low
      rw [lead_ascii (by simpa using low)] at seen
      cases seen
    rw [lossy_cons_of_none rest seen, cuts_replacement,
      cuts_piece none (List.nil_append rest).symm fun c member => absurd member List.not_mem_nil]
    exact alike_glue ih fun raw text _ =>
      alike_of_foreign ⟨b, List.mem_cons_self, high⟩ foreign raw text
  | piece b rest owed low high seen ih =>
    rw [lossy_cons_of_some rest seen]
    split
    · next full =>
      rw [full] at ih ⊢
      have width : (rest.take owed).length = owed := by
        have bound := tails_le_length owed low high rest
        rw [List.length_take]
        omega
      have again := tails_take_append (lossy (rest.drop owed)) full
      rw [List.cons_append]
      have left := cuts_character seen full
      have right := cuts_character seen again
      rw [List.take_left' width, List.drop_left' width] at right
      by_cases space : b :: rest.take owed ∈ spaces
      · rw [left.1 _ space rfl, right.1 _ space rfl]
        exact .cons (Alike.refl []) ih
      · rw [left.2 space, right.2 space]
        exact alike_glue ih fun raw text alike => alike.append_left _
    · next partly =>
      have none : ∀ w ∈ spaces, ¬ w <+: b :: rest :=
        fun w member front => partly (space_in_front seen member front).1
      rw [cuts_replacement,
        cuts_piece none (List.take_append_drop (tails owed low high rest) rest).symm
          (inner_tails seen)]
      exact alike_glue ih fun raw text _ =>
        alike_of_foreign ⟨b, List.mem_cons_self, foreign_of_tails seen partly⟩ foreign raw text

theorem fields_lossy (bytes : Bytes) :
    List.Forall₂ Alike (fields spaces bytes) (fields spaces (lossy bytes)) := by
  refine List.rel_filter ?_ (cuts_lossy bytes)
  intro raw text alike
  simpa using alike.ne_nil_iff

end Lossy

end Utf8

end LinuxSys.Lib
