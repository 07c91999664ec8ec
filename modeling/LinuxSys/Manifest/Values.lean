import LinuxSys.Manifest.Document

/-! # Values of the manifest, written and read

A value is read as it was written but for the commas of a flow list: those between quotes cut, too.
-/

namespace LinuxSys.Manifest

open Lib PyText

theorem isSpace_keyChar {c : Char} (key : keyChar c) : isSpace c = false := by
  have bounds : 0x2D ≤ c.toNat ∧ c.toNat ≤ 0x7A := by
    rcases Bool.or_eq_true_iff.mp key with first | dash
    · rcases Bool.or_eq_true_iff.mp first with letter | line
      · have within {low high : UInt32} (inside : low ≤ c.val ∧ c.val ≤ high) :
            low.toNat ≤ c.toNat ∧ c.toNat ≤ high.toNat :=
          inside.imp UInt32.le_iff_toNat_le.mp UInt32.le_iff_toNat_le.mp
        rcases Bool.or_eq_true_iff.mp letter with alpha | digit
        · rcases Bool.or_eq_true_iff.mp alpha with upper | lower
          · have bounds : 65 ≤ c.toNat ∧ c.toNat ≤ 90 := within (of_decide_eq_true upper)
            omega
          · obtain ⟨low, high⟩ := Bool.and_eq_true_iff.mp lower
            have bounds : 97 ≤ c.toNat ∧ c.toNat ≤ 122 :=
              within ⟨of_decide_eq_true low, of_decide_eq_true high⟩
            omega
        · obtain ⟨low, high⟩ := Bool.and_eq_true_iff.mp digit
          have bounds : 48 ≤ c.toNat ∧ c.toNat ≤ 57 :=
            within ⟨of_decide_eq_true low, of_decide_eq_true high⟩
          omega
      · obtain rfl := of_decide_eq_true line
        decide
    · obtain rfl := of_decide_eq_true dash
      decide
  simp only [isSpace, Bool.or_eq_false_iff, Bool.and_eq_false_iff, decide_eq_false_iff_not]
  omega

theorem isSpace_quote {c : Char} (quote : isQuote c) : isSpace c = false := by
  rcases Bool.or_eq_true_iff.mp quote with single | double
  · rw [of_decide_eq_true single]
    rfl
  · rw [of_decide_eq_true double]
    rfl

theorem Pad.space {pad : Text} (blank : Pad pad) : ∀ c ∈ pad, isSpace c := by
  intro c member
  rcases blank c member with rfl | rfl
  · rfl
  · rfl

theorem Pad.comma {pad : Text} (blank : Pad pad) : ',' ∉ pad := by
  intro member
  rcases blank ',' member with same | same
  · cases same
  · cases same

/-! Scalars. -/

section Scalars

variable {flow : Bool} {s : Scalar}

theorem Plain.first_ne {text : Text} (plain : Plain flow text) {c : Char}
    (mark : c = '[' ∨ c = '\'' ∨ c = '"') : text.head? ≠ some c := by
  intro same
  obtain ⟨rest, rfl⟩ := List.head?_eq_some_iff.mp same
  have other : c ∈ indicators ∧ c ∉ "-?:".toList := by
    rcases mark with rfl | rfl | rfl
    · decide
    · decide
    · decide
  rcases plain.first c rest rfl with outside | ⟨inside, -⟩
  · exact outside other.1
  · exact other.2 inside

theorem Scalar.Sound.trimmed (sound : s.Sound flow) : Trimmed s.render := by
  cases s with
  | plain text => exact Plain.trimmed sound
  | quoted mark text =>
    have quote := isSpace_quote (Quoted.quote sound)
    constructor
    · rintro c ⟨⟩
      exact quote
    · intro c last
      have same : (mark :: (text ++ [mark])).getLast? = some mark := by
        rw [← List.cons_append, List.getLast?_concat]
      rw [Scalar.render, same] at last
      cases last
      exact quote

theorem Scalar.Sound.render_ne_nil (sound : s.Sound flow) : s.render ≠ [] := by
  cases s with
  | plain text => exact Plain.full sound
  | quoted mark text => exact List.cons_ne_nil _ _

theorem Scalar.Sound.head_ne (sound : s.Sound flow) : s.render.head? ≠ some '[' := by
  cases s with
  | plain text => exact Plain.first_ne sound (.inl rfl)
  | quoted mark text =>
    rintro ⟨⟩
    cases Quoted.quote sound

theorem unquote_quoted {mark : Char} (quote : isQuote mark) (text : Text) :
    unquote (mark :: (text ++ [mark])) = text := by
  have last : (mark :: (text ++ [mark])).getLast? = some mark := by
    rw [← List.cons_append, List.getLast?_concat]
  rw [unquote, if_pos ⟨by simp, by rw [last]; rfl, quote⟩, List.tail_cons, List.dropLast_concat]

theorem Scalar.Sound.unquote_render (sound : s.Sound flow) : unquote s.render = s.text := by
  cases s with
  | plain text =>
    have plain : Plain flow text := sound
    refine if_neg fun ⟨_, _, mark⟩ => ?_
    change text.head?.any isQuote at mark
    cases first : text.head? with
    | none =>
      rw [first] at mark
      cases mark
    | some c =>
      rw [first] at mark
      refine plain.first_ne (.inr ?_) first
      rcases Bool.or_eq_true_iff.mp mark with single | double
      · exact .inl (of_decide_eq_true single)
      · exact .inr (of_decide_eq_true double)
  | quoted mark text => exact unquote_quoted (Quoted.quote sound) text

theorem Scalar.Sound.comma_iff (sound : s.Sound true) : ',' ∈ s.render ↔ ',' ∈ s.text := by
  cases s with
  | plain text => exact Iff.rfl
  | quoted mark text =>
    have other : ',' ≠ mark := by
      rintro rfl
      cases Quoted.quote sound
    simp [Scalar.render, Scalar.text, other]

end Scalars

/-! Values. -/

section Values

/-- What a written value is read as. -/
def readBack : Written → Value
  | .scalar s => .scalar s.text
  | .nothing _ => .list []
  | .list items => .list ((([','].intercalate (items.map Item.render)).splitOn ',').map
      fun piece => unquote (strip piece))

theorem Item.Sound.strip_render {i : Item} (sound : i.Sound) : strip i.render = i.scalar.render :=
  strip_pads sound.before.space sound.scalar.trimmed sound.after.space

theorem strip_intercalate_ne_nil {items : List Item} (some : items ≠ [])
    (sound : ∀ i ∈ items, i.Sound) : strip ([','].intercalate (items.map Item.render)) ≠ [] := by
  obtain ⟨i, rest, rfl⟩ := List.exists_cons_of_ne_nil some
  have first := sound i List.mem_cons_self
  intro blank
  have space := strip_eq_nil_iff.mp blank
  have inside : ∀ c ∈ i.render, isSpace c := by
    intro c member
    refine space c ?_
    cases rest with
    | nil => simpa using member
    | cons next later =>
      rw [List.map_cons, List.map_cons, List.intercalate_cons_cons]
      simp [member]
  refine first.scalar.render_ne_nil ?_
  rw [← first.strip_render]
  exact strip_eq_nil_iff.mpr inside

theorem Item.Sound.comma_iff {i : Item} (sound : i.Sound) :
    ',' ∈ i.render ↔ ',' ∈ i.scalar.text := by
  rw [Item.render, List.mem_append, List.mem_append, or_iff_right sound.before.comma,
    or_iff_left sound.after.comma, sound.scalar.comma_iff]

theorem trimmed_brackets (inner : Text) : Trimmed ('[' :: (inner ++ [']'])) := by
  constructor
  · rintro c ⟨⟩
    rfl
  · intro c last
    rw [← List.cons_append, List.getLast?_concat] at last
    cases last
    rfl

theorem Written.Sound.trimmed {v : Written} (sound : v.Sound) : Trimmed v.render := by
  cases v with
  | scalar s => exact Scalar.Sound.trimmed sound
  | nothing pad => exact trimmed_brackets pad
  | list items => exact trimmed_brackets _

theorem parseValue_brackets {text : Text} (inner : Text)
    (stripped : strip text = '[' :: (inner ++ [']'])) :
    parseValue text = .ok (.list (parseItems (strip inner))) := by
  have last : ('[' :: (inner ++ [']'])).getLast? = some ']' := by
    rw [← List.cons_append, List.getLast?_concat]
  unfold parseValue
  simp only [stripped]
  rw [if_pos ⟨rfl, last⟩, List.tail_cons, List.dropLast_concat]

/-- Whatever stands around it. -/
theorem parseValue_of_strip {v : Written} (sound : v.Sound) {text : Text}
    (stripped : strip text = v.render) : parseValue text = .ok (readBack v) := by
  cases v with
  | scalar s =>
    have scalar : s.Sound false := sound
    change strip text = s.render at stripped
    unfold parseValue
    simp only [stripped]
    rw [if_neg fun both => scalar.head_ne both.1, if_neg scalar.render_ne_nil, scalar.unquote_render]
    rfl
  | nothing pad =>
    have blank : strip pad = [] := strip_eq_nil_iff.mpr (Pad.space sound)
    rw [parseValue_brackets pad stripped, blank]
    rfl
  | list items =>
    obtain ⟨some, items_sound⟩ := sound
    rw [parseValue_brackets _ stripped]
    have full := strip_intercalate_ne_nil some items_sound
    have cuts : ∀ text : Text, ((strip text).splitOn ',').map strip = (text.splitOn ',').map strip :=
      map_strip_splitOn_strip rfl
    rw [parseItems, if_neg full, readBack, ← Function.comp_def, ← List.map_map, cuts, List.map_map]

theorem readBack_eq_iff {v : Written} (sound : v.Sound) : readBack v = v.value ↔ v.NoCommas := by
  cases v with
  | scalar s => exact iff_of_true rfl trivial
  | nothing pad => exact iff_of_true rfl trivial
  | list items =>
    obtain ⟨some, items_sound⟩ := sound
    have pieces : items.map Item.render ≠ [] := by simpa using some
    constructor
    · intro same i member comma
      have lengths := congrArg List.length (Value.list.inj same)
      rw [List.length_map, List.length_map] at lengths
      have few : (([','].intercalate (items.map Item.render)).splitOn ',').length =
          (items.map Item.render).length := by rw [lengths, List.length_map]
      exact not_mem_of_length_splitOn pieces few _ (List.mem_map_of_mem member)
        ((items_sound i member).comma_iff.mpr comma)
    · intro none
      have fresh : ∀ piece ∈ items.map Item.render, ',' ∉ piece := by
        intro piece member
        obtain ⟨i, inside, rfl⟩ := List.mem_map.mp member
        exact fun comma => none i inside ((items_sound i inside).comma_iff.mp comma)
      rw [readBack, List.splitOn_intercalate ',' fresh pieces, List.map_map, Written.value]
      congr 1
      refine List.map_congr_left fun i inside => ?_
      have sound := items_sound i inside
      rw [Function.comp_apply, sound.strip_render, sound.scalar.unquote_render]

end Values

end LinuxSys.Manifest
