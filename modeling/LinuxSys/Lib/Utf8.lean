import LinuxSys.Lib.Lines

/-! # Lossy UTF-8 decoding

`lossy` copies well-formed characters and replaces each maximal ill-formed piece by U+FFFD, the
documented behaviour of a lossy conversion from bytes to text. It is the identity exactly on
valid UTF-8, its result is always valid, and it leaves every ASCII byte where it stands, so a
text split at an ASCII separator may be decoded before or after the split.
-/

namespace LinuxSys.Lib.Utf8

/-- What a first byte announces: the continuation bytes owed and the range of the next one. -/
def lead (b : UInt8) : Option (ℕ × UInt8 × UInt8) :=
  if b ≤ 0x7F then some (0, 0x80, 0xBF)
  else if 0xC2 ≤ b ∧ b ≤ 0xDF then some (1, 0x80, 0xBF)
  else if b = 0xE0 then some (2, 0xA0, 0xBF)
  else if b = 0xED then some (2, 0x80, 0x9F)
  else if 0xE1 ≤ b ∧ b ≤ 0xEF then some (2, 0x80, 0xBF)
  else if b = 0xF0 then some (3, 0x90, 0xBF)
  else if 0xF1 ≤ b ∧ b ≤ 0xF3 then some (3, 0x80, 0xBF)
  else if b = 0xF4 then some (3, 0x80, 0x8F)
  else none

/-- How many of the owed continuation bytes are there. -/
def tails : ℕ → UInt8 → UInt8 → Bytes → ℕ
  | owed + 1, low, high, b :: rest =>
    if low ≤ b ∧ b ≤ high then tails owed 0x80 0xBF rest + 1 else 0
  | _, _, _, _ => 0

/-- U+FFFD. -/
def replacement : Bytes := [0xEF, 0xBF, 0xBD]

/-- Copy well-formed characters, replace maximal ill-formed pieces. -/
def lossy : Bytes → Bytes
  | [] => []
  | b :: rest =>
    match lead b with
    | none => replacement ++ lossy rest
    | some (owed, low, high) =>
      (if tails owed low high rest = owed then b :: rest.take owed else replacement) ++
        lossy (rest.drop (tails owed low high rest))
termination_by bytes => bytes.length
decreasing_by all_goals simp only [List.length_cons, List.length_drop]; omega

/-- A sequence of well-formed characters. -/
def Valid : Bytes → Prop
  | [] => True
  | b :: rest =>
    match lead b with
    | none => False
    | some (owed, low, high) => tails owed low high rest = owed ∧ Valid (rest.drop owed)
termination_by bytes => bytes.length
decreasing_by simp only [List.length_cons, List.length_drop]; omega

theorem tails_le (owed : ℕ) (low high : UInt8) (bytes : Bytes) :
    tails owed low high bytes ≤ owed := by
  induction owed generalizing low high bytes with
  | zero => simp [tails]
  | succ owed ih =>
    cases bytes with
    | nil => simp [tails]
    | cons b rest =>
      have bound := ih 0x80 0xBF rest
      rw [tails]
      split <;> omega

theorem tails_le_length (owed : ℕ) (low high : UInt8) (bytes : Bytes) :
    tails owed low high bytes ≤ bytes.length := by
  induction owed generalizing low high bytes with
  | zero => simp [tails]
  | succ owed ih =>
    cases bytes with
    | nil => simp [tails]
    | cons b rest =>
      have bound := ih 0x80 0xBF rest
      rw [tails, List.length_cons]
      split <;> omega

/-- Owed bytes that are all there stay there whatever follows them. -/
theorem tails_take_append {owed : ℕ} {low high : UInt8} {bytes : Bytes} (later : Bytes)
    (full : tails owed low high bytes = owed) :
    tails owed low high (bytes.take owed ++ later) = owed := by
  induction owed generalizing low high bytes with
  | zero => simp [tails]
  | succ owed ih =>
    cases bytes with
    | nil => simp [tails] at full
    | cons b rest =>
      rw [tails] at full
      split at full
      · next inside =>
        rw [List.take_succ_cons, List.cons_append, tails, if_pos inside, ih (by omega)]
      · simp at full

theorem lead_ascii {b : UInt8} (ascii : b ≤ 0x7F) : lead b = some (0, 0x80, 0xBF) := by
  simp [lead, ascii]

theorem ascii_of_lead_zero {b low high : UInt8} {owed : ℕ} (seen : lead b = some (owed, low, high))
    (ascii : b ≤ 0x7F) : owed = 0 := by
  rw [lead_ascii ascii] at seen
  cases seen
  rfl

theorem lead_low {b low high : UInt8} {owed : ℕ} (seen : lead b = some (owed, low, high)) :
    0x7F < low := by
  unfold lead at seen
  split_ifs at seen <;> (cases seen; decide)

/-- A byte outside the expected range ends a run of continuation bytes. -/
theorem tails_append_cons {owed : ℕ} {low high c : UInt8} (bytes later : Bytes)
    (ascii : c ≤ 0x7F) (range : 0x7F < low) :
    tails owed low high (bytes ++ c :: later) = tails owed low high bytes := by
  induction owed generalizing low high bytes with
  | zero => simp [tails]
  | succ owed ih =>
    cases bytes with
    | nil =>
      have outside : ¬ (low ≤ c ∧ c ≤ high) := fun inside =>
        absurd (UInt8.lt_of_lt_of_le range (UInt8.le_trans inside.1 ascii)) (UInt8.lt_irrefl _)
      simp only [List.nil_append, tails, if_neg outside]
    | cons b rest =>
      simp only [List.cons_append, tails]
      rw [ih rest (by decide)]

/-- Every counted continuation byte is outside ASCII. -/
theorem not_ascii_of_mem_tails {owed : ℕ} {low high c : UInt8} {bytes : Bytes}
    (range : 0x7F < low) (member : c ∈ bytes.take (tails owed low high bytes)) : ¬ c ≤ 0x7F := by
  induction owed generalizing low high bytes with
  | zero => simp [tails] at member
  | succ owed ih =>
    cases bytes with
    | nil => simp at member
    | cons b rest =>
      rw [tails] at member
      split at member
      · next inside =>
        rcases List.mem_cons.mp member with rfl | deeper
        · intro ascii
          exact UInt8.lt_irrefl _ (UInt8.lt_of_lt_of_le range (UInt8.le_trans inside.1 ascii))
        · exact ih (by decide) deeper
      · simp at member

@[simp] theorem lossy_nil : lossy [] = [] := by rw [lossy]

theorem lossy_cons_of_none {b : UInt8} (rest : Bytes) (seen : lead b = none) :
    lossy (b :: rest) = replacement ++ lossy rest := by
  rw [lossy]
  simp only [seen]

theorem lossy_cons_of_some {b low high : UInt8} {owed : ℕ} (rest : Bytes)
    (seen : lead b = some (owed, low, high)) :
    lossy (b :: rest) =
      (if tails owed low high rest = owed then b :: rest.take owed else replacement) ++
        lossy (rest.drop (tails owed low high rest)) := by
  rw [lossy]
  simp only [seen]

theorem valid_nil : Valid [] := by
  rw [Valid]
  trivial

theorem valid_cons_of_some {b low high : UInt8} {owed : ℕ} {rest : Bytes}
    (seen : lead b = some (owed, low, high)) :
    Valid (b :: rest) ↔ tails owed low high rest = owed ∧ Valid (rest.drop owed) := by
  rw [Valid]
  simp only [seen]

theorem valid_of_ascii {bytes : Bytes} (ascii : ∀ b ∈ bytes, b ≤ 0x7F) : Valid bytes := by
  induction bytes with
  | nil => exact valid_nil
  | cons b rest ih =>
    have tail := ih fun c member => ascii c (List.mem_cons_of_mem b member)
    exact (valid_cons_of_some (lead_ascii (ascii b List.mem_cons_self))).mpr ⟨rfl, tail⟩

theorem not_valid_cons_of_none {b : UInt8} {rest : Bytes} (seen : lead b = none) :
    ¬ Valid (b :: rest) := by
  rw [Valid]
  simp only [seen, not_false_eq_true]

/-- Induction on a byte string along its characters and ill-formed pieces. -/
theorem pieces_induction {motive : Bytes → Prop} (nil : motive [])
    (bad : ∀ b rest, lead b = none → motive rest → motive (b :: rest))
    (piece : ∀ b rest owed low high, lead b = some (owed, low, high) →
      motive (rest.drop (tails owed low high rest)) → motive (b :: rest))
    (bytes : Bytes) : motive bytes := by
  induction size : bytes.length using Nat.strongRecOn generalizing bytes with
  | ind size' ih =>
    subst size
    cases bytes with
    | nil => exact nil
    | cons b rest =>
      cases seen : lead b with
      | none => exact bad b rest seen (ih _ (by simp) rest rfl)
      | some range =>
        obtain ⟨owed, low, high⟩ := range
        apply piece b rest owed low high seen
        exact ih _ (by simp only [List.length_drop, List.length_cons]; omega) _ rfl

theorem valid_replacement_append {bytes : Bytes} (valid : Valid bytes) :
    Valid (replacement ++ bytes) := by
  have seen : lead 0xEF = some (2, 0x80, 0xBF) := by decide
  exact (valid_cons_of_some seen).mpr ⟨rfl, valid⟩

/-- The result of a lossy conversion is valid. -/
theorem valid_lossy (bytes : Bytes) : Valid (lossy bytes) := by
  induction bytes using pieces_induction with
  | nil => rw [lossy_nil]; exact valid_nil
  | bad b rest seen ih =>
    rw [lossy_cons_of_none rest seen]
    exact valid_replacement_append ih
  | piece b rest owed low high seen ih =>
    rw [lossy_cons_of_some rest seen]
    split
    · next full =>
      have width : (rest.take owed).length = owed := by
        have bound := tails_le_length owed low high rest
        rw [List.length_take]
        omega
      rw [List.cons_append]
      refine (valid_cons_of_some seen).mpr ⟨tails_take_append _ full, ?_⟩
      rwa [List.drop_left' width]
    · exact valid_replacement_append ih

theorem lossy_of_valid {bytes : Bytes} (valid : Valid bytes) : lossy bytes = bytes := by
  induction bytes using pieces_induction with
  | nil => exact lossy_nil
  | bad b rest seen _ => exact absurd valid (not_valid_cons_of_none seen)
  | piece b rest owed low high seen ih =>
    obtain ⟨full, tail⟩ := (valid_cons_of_some seen).mp valid
    rw [full] at ih
    rw [lossy_cons_of_some rest seen, if_pos full, full, ih tail, List.cons_append,
      List.take_append_drop]

private theorem replacement_ne {b : UInt8} {rest later : Bytes}
    (equal : replacement ++ later = b :: rest) :
    lead b = some (2, 0x80, 0xBF) ∧ tails 2 0x80 0xBF rest = 2 := by
  obtain ⟨rfl, rfl⟩ := List.cons.inj equal
  exact ⟨by decide, rfl⟩

theorem valid_of_lossy {bytes : Bytes} (fixed : lossy bytes = bytes) : Valid bytes := by
  induction bytes using pieces_induction with
  | nil => exact valid_nil
  | bad b rest seen _ =>
    rw [lossy_cons_of_none rest seen] at fixed
    rw [(replacement_ne fixed).1] at seen
    cases seen
  | piece b rest owed low high seen ih =>
    rw [lossy_cons_of_some rest seen] at fixed
    split at fixed
    · next full =>
      rw [full] at fixed ih
      have tail : rest.take owed ++ lossy (rest.drop owed) = rest := (List.cons.inj fixed).2
      have same : lossy (rest.drop owed) = rest.drop owed :=
        List.append_cancel_left (tail.trans (List.take_append_drop owed rest).symm)
      exact (valid_cons_of_some seen).mpr ⟨full, ih same⟩
    · next partly =>
      obtain ⟨range, full⟩ := replacement_ne fixed
      rw [range] at seen
      cases seen
      exact absurd full partly

/-- A lossy conversion changes nothing exactly when the bytes are valid. -/
theorem lossy_eq_self_iff (bytes : Bytes) : lossy bytes = bytes ↔ Valid bytes :=
  ⟨valid_of_lossy, lossy_of_valid⟩

theorem map_lossy_eq_iff (texts : List Bytes) :
    texts.map lossy = texts ↔ ∀ text ∈ texts, Valid text := by
  have same : texts.map lossy = texts.map id ↔ ∀ text ∈ texts, lossy text = text :=
    List.map_inj_left
  rw [List.map_id] at same
  exact same.trans (forall₂_congr fun text _ => lossy_eq_self_iff text)

instance (bytes : Bytes) : Decidable (Valid bytes) :=
  decidable_of_iff _ (lossy_eq_self_iff bytes)

theorem lossy_lossy (bytes : Bytes) : lossy (lossy bytes) = lossy bytes :=
  lossy_of_valid (valid_lossy bytes)

theorem lossy_ascii_cons {c : UInt8} (ascii : c ≤ 0x7F) (rest : Bytes) :
    lossy (c :: rest) = c :: lossy rest := by
  rw [lossy_cons_of_some rest (lead_ascii ascii)]
  simp [tails]

/-- A lossy conversion may be made before or after a split at an ASCII byte. -/
theorem lossy_append_cons {c : UInt8} (ascii : c ≤ 0x7F) (left right : Bytes) :
    lossy (left ++ c :: right) = lossy left ++ c :: lossy right := by
  induction left using pieces_induction with
  | nil => rw [lossy_nil, List.nil_append, List.nil_append, lossy_ascii_cons ascii]
  | bad b rest seen ih =>
    rw [List.cons_append, lossy_cons_of_none _ seen, lossy_cons_of_none _ seen, ih,
      List.append_assoc]
  | piece b rest owed low high seen ih =>
    have bound := tails_le_length owed low high rest
    rw [List.cons_append, lossy_cons_of_some _ seen, lossy_cons_of_some _ seen,
      tails_append_cons _ _ ascii (lead_low seen), List.drop_append_of_le_length bound, ih,
      List.append_assoc]
    congr 1
    split
    · next full => rw [List.take_append_of_le_length (by omega)]
    · rfl

/-- The ASCII bytes of a lossy conversion are those of the bytes converted. -/
theorem mem_lossy_iff {c : UInt8} (ascii : c ≤ 0x7F) (bytes : Bytes) :
    c ∈ lossy bytes ↔ c ∈ bytes := by
  have absent : c ∉ replacement := by
    intro member
    simp only [replacement, List.mem_cons, List.not_mem_nil, or_false] at member
    rcases member with rfl | rfl | rfl <;> exact absurd ascii (by decide)
  induction bytes using pieces_induction with
  | nil => rw [lossy_nil]
  | bad b rest seen ih =>
    have other : c ≠ b := by
      rintro rfl
      rw [lead_ascii ascii] at seen
      cases seen
    have tail : c ∈ lossy rest ↔ c ∈ rest := ih
    rw [lossy_cons_of_none rest seen, List.mem_append, tail, List.mem_cons]
    simp [absent, other]
  | piece b rest owed low high seen ih =>
    have parts : c ∈ rest ↔ c ∈ rest.take (tails owed low high rest) ∨
        c ∈ rest.drop (tails owed low high rest) := by
      rw [← List.mem_append, List.take_append_drop]
    have tail : c ∈ lossy (rest.drop (tails owed low high rest)) ↔
        c ∈ rest.drop (tails owed low high rest) := ih
    rw [lossy_cons_of_some rest seen, List.mem_append, tail, List.mem_cons, parts]
    split
    · next full => rw [List.mem_cons, full, or_assoc]
    · next partly =>
      have other : c ≠ b := by
        rintro rfl
        have none := ascii_of_lead_zero seen ascii
        exact partly (by have := tails_le owed low high rest; omega)
      have outside : c ∉ rest.take (tails owed low high rest) := fun member =>
        not_ascii_of_mem_tails (lead_low seen) member ascii
      simp [absent, other, outside]

theorem lead_le {b low high : UInt8} {owed : ℕ} (seen : lead b = some (owed, low, high)) :
    owed ≤ 3 := by
  simp only [lead] at seen
  split_ifs at seen <;> cases seen <;> decide

/-- A lossy conversion shortens nothing. -/
theorem length_le_lossy (bytes : Bytes) : bytes.length ≤ (lossy bytes).length := by
  have width : replacement.length = 3 := rfl
  induction bytes using pieces_induction with
  | nil => rw [lossy_nil]
  | bad b rest seen ih =>
    rw [lossy_cons_of_none rest seen, List.length_append, List.length_cons]
    omega
  | piece b rest owed low high seen ih =>
    have least := lead_le seen
    have bound := tails_le owed low high rest
    have inside := tails_le_length owed low high rest
    rw [List.length_drop] at ih
    rw [lossy_cons_of_some rest seen, List.length_append, List.length_cons]
    split
    · next full =>
      rw [List.length_cons, List.length_take]
      omega
    · next partly => omega

theorem lossy_eq_nil_iff (bytes : Bytes) : lossy bytes = [] ↔ bytes = [] := by
  constructor
  · intro none
    have length := length_le_lossy bytes
    rw [none] at length
    exact List.length_eq_zero_iff.mp (Nat.le_zero.mp length)
  · rintro rfl
    exact lossy_nil

/-- Text around an ASCII byte is valid exactly when both sides are. -/
theorem valid_append_cons_iff {c : UInt8} (ascii : c ≤ 0x7F) (left right : Bytes) :
    Valid (left ++ c :: right) ↔ Valid left ∧ Valid right := by
  rw [← lossy_eq_self_iff, ← lossy_eq_self_iff, ← lossy_eq_self_iff, lossy_append_cons ascii]
  constructor
  · intro same
    have total := congrArg List.length same
    simp only [List.length_append, List.length_cons] at total
    have first := length_le_lossy left
    have last := length_le_lossy right
    obtain ⟨front, back⟩ := List.append_inj same (by omega)
    exact ⟨front, (List.cons.inj back).2⟩
  · rintro ⟨front, back⟩
    rw [front, back]

theorem valid_ascii_append {front : Bytes} (ascii : ∀ b ∈ front, b ≤ 0x7F) (back : Bytes) :
    Valid (front ++ back) ↔ Valid back := by
  induction front with
  | nil => rfl
  | cons b front ih =>
    rw [List.cons_append, ← ih fun c member => ascii c (List.mem_cons_of_mem b member)]
    exact (valid_append_cons_iff (ascii b List.mem_cons_self) [] (front ++ back)).trans
      (and_iff_right valid_nil)

/-- A lossy conversion goes line by line. -/
theorem cutLines_lossy {c : UInt8} (ascii : c ≤ 0x7F) (bytes : Bytes) :
    cutLines c (lossy bytes) = ((cutLines c bytes).1.map lossy, lossy (cutLines c bytes).2) := by
  induction bytes using @lines_induction _ _ c with
  | last bytes fresh =>
    rw [cutLines_of_not_mem fresh, cutLines_of_not_mem ((mem_lossy_iff ascii bytes).not.mpr fresh)]
    rfl
  | next line rest fresh ih =>
    have absent := (mem_lossy_iff ascii line).not.mpr fresh
    rw [lossy_append_cons ascii, cutLines_cons absent, cutLines_cons fresh, ih]
    rfl

end LinuxSys.Lib.Utf8
