import Mathlib.Data.Rat.Defs
import Mathlib.Algebra.Field.Rat
import Mathlib.Data.List.TakeWhile
import LinuxSys.Lib.Numeral
import LinuxSys.Lib.Utf8

/-! # JSON texts

A JSON text is read in two steps. The bytes are cut into tokens, where a string is decoded and a
number is the rational it stands for; and the tokens are those of a value. Different values have
different tokens, so a text has one value at most. Objects keep the order of their members.
-/

namespace LinuxSys.Lib

inductive Json where
  | null
  | bool (value : Bool)
  | number (value : ℚ)
  | string (value : Bytes)
  | array (items : List Json)
  | object (members : List (Bytes × Json))

namespace Json

inductive Token where
  /-- One of the six structural characters. -/
  | mark (b : UInt8)
  | null
  | bool (value : Bool)
  | number (value : ℚ)
  | string (value : Bytes)
deriving DecidableEq

/-! The tokens of a value. -/

def comma : Token := .mark 0x2C

def colon : Token := .mark 0x3A

/-- What is between an item and the one in front of it, if there is one. -/
def separator (first : Bool) : List Token := if first then [] else [comma]

mutual

def tokens : Json → List Token
  | null => [.null]
  | bool value => [.bool value]
  | number value => [.number value]
  | string value => [.string value]
  | array items => .mark 0x5B :: itemTokens true items
  | object members => .mark 0x7B :: memberTokens true members

/-- The rest of an array. -/
def itemTokens (first : Bool) : List Json → List Token
  | [] => [.mark 0x5D]
  | item :: rest => separator first ++ (item.tokens ++ itemTokens false rest)

/-- The rest of an object. -/
def memberTokens (first : Bool) : List (Bytes × Json) → List Token
  | [] => [.mark 0x7D]
  | (key, value) :: rest =>
    separator first ++ (.string key :: colon :: (value.tokens ++ memberTokens false rest))

end

/-! Strings. -/

def hexDigit (b : UInt8) : Option ℕ :=
  if isDigit b then some (b.toNat - 48)
  else if 0x41 ≤ b ∧ b ≤ 0x46 then some (b.toNat - 55)
  else if 0x61 ≤ b ∧ b ≤ 0x66 then some (b.toNat - 87)
  else none

/-- Four hexadecimal digits and what is behind them. -/
def hex4 : Bytes → Option (ℕ × Bytes)
  | a :: b :: c :: d :: rest =>
    match hexDigit a, hexDigit b, hexDigit c, hexDigit d with
    | some a, some b, some c, some d => some (((a * 16 + b) * 16 + c) * 16 + d, rest)
    | _, _, _, _ => none
  | _ => none

def encode (code : ℕ) : Bytes := String.utf8EncodeChar (Char.ofNat code)

/-- The second half of a surrogate pair. -/
def lowSurrogate : Bytes → Option (ℕ × Bytes)
  | a :: b :: rest => if a = 0x5C ∧ b = 0x75 then
      (hex4 rest).filter fun low => 0xDC00 ≤ low.1 ∧ low.1 ≤ 0xDFFF
    else none
  | _ => none

/-- What is behind the `u` of an escape; half a surrogate pair stands for nothing. -/
def unicode (text : Bytes) : Option (Bytes × Bytes) :=
  match hex4 text with
  | none => none
  | some (code, rest) =>
    if code < 0xD800 ∨ 0xDFFF < code then some (encode code, rest)
    else if code < 0xDC00 then
      (lowSurrogate rest).map fun low =>
        (encode (0x10000 + (code - 0xD800) * 0x400 + (low.1 - 0xDC00)), low.2)
    else none

def simpleEscape (b : UInt8) : Option UInt8 :=
  if b = 0x22 ∨ b = 0x5C ∨ b = 0x2F then some b
  else if b = 0x62 then some 0x08
  else if b = 0x66 then some 0x0C
  else if b = 0x6E then some 0x0A
  else if b = 0x72 then some 0x0D
  else if b = 0x74 then some 0x09
  else none

/-- What is behind the backslash. -/
def escape : Bytes → Option (Bytes × Bytes)
  | [] => none
  | b :: rest =>
    if b = 0x75 then unicode rest
    else (simpleEscape b).map fun c => ([c], rest)

theorem exists_of_hex4 {text left : Bytes} {code : ℕ} (read : hex4 text = some (code, left)) :
    ∃ digits, text = digits ++ left ∧ digits.length = 4 ∧ 0x22 ∉ digits := by
  rcases text with _ | ⟨a, _ | ⟨b, _ | ⟨c, _ | ⟨d, rest⟩⟩⟩⟩
  · cases read
  · cases read
  · cases read
  · cases read
  · rw [hex4] at read
    split at read
    · next first second third fourth =>
      cases read
      refine ⟨[a, b, c, d], rfl, rfl, fun member => ?_⟩
      rcases List.mem_cons.mp member with rfl | member
      · cases first
      rcases List.mem_cons.mp member with rfl | member
      · cases second
      rcases List.mem_cons.mp member with rfl | member
      · cases third
      obtain rfl := List.mem_singleton.mp member
      cases fourth
    · cases read

theorem exists_of_lowSurrogate {text left : Bytes} {code : ℕ}
    (read : lowSurrogate text = some (code, left)) :
    ∃ pair, text = pair ++ left ∧ 0x22 ∉ pair := by
  rcases text with _ | ⟨a, _ | ⟨b, tail⟩⟩
  · cases read
  · cases read
  · rw [lowSurrogate, Option.ite_none_right_eq_some] at read
    obtain ⟨⟨rfl, rfl⟩, read⟩ := read
    obtain ⟨digits, rfl, -, fresh⟩ := exists_of_hex4 (Option.filter_eq_some_iff.mp read).1
    refine ⟨0x5C :: 0x75 :: digits, rfl, fun member => ?_⟩
    exact fresh ((List.mem_cons.mp ((List.mem_cons.mp member).resolve_left
      (by decide))).resolve_left (by decide))

theorem exists_of_unicode {text c left : Bytes} (read : unicode text = some (c, left)) :
    ∃ used, text = used ++ left ∧ c.length ≤ used.length ∧ 0x22 ∉ used := by
  have short (code : ℕ) : (encode code).length ≤ 4 := by
    rw [encode, String.length_utf8EncodeChar]
    exact Char.utf8Size_le_four _
  rw [unicode] at read
  split at read
  · cases read
  · next code rest first =>
    obtain ⟨digits, rfl, four, fresh⟩ := exists_of_hex4 first
    split at read
    · obtain ⟨rfl, rfl⟩ := Prod.mk.inj (Option.some.inj read)
      exact ⟨digits, rfl, (short code).trans four.ge, fresh⟩
    · split at read
      · obtain ⟨low, second, same⟩ := Option.map_eq_some_iff.mp read
        obtain ⟨rfl, rfl⟩ := Prod.mk.inj same
        obtain ⟨pair, rfl, absent⟩ := exists_of_lowSurrogate second
        refine ⟨digits ++ pair, (List.append_assoc _ _ _).symm, ?_, ?_⟩
        · rw [List.length_append, four]
          exact (short _).trans (Nat.le_add_right 4 _)
        · exact List.not_mem_append fresh absent
      · cases read

/-- An escape decodes to no more bytes than it has behind the backslash, and a quote is in one only
if it is all of it. -/
theorem exists_of_escape {text c left : Bytes} (read : escape text = some (c, left)) :
    ∃ used, text = used ++ left ∧ used ≠ [] ∧ c.length ≤ used.length ∧
      (0x22 ∈ used → used = [0x22]) := by
  cases text with
  | nil => cases read
  | cons b rest =>
    rw [escape] at read
    split at read
    · next mark =>
      obtain ⟨used, rfl, short, fresh⟩ := exists_of_unicode read
      refine ⟨b :: used, rfl, List.cons_ne_nil b used, Nat.le_succ_of_le short, fun member => ?_⟩
      rcases List.mem_cons.mp member with rfl | member
      · cases mark
      · exact absurd member fresh
    · obtain ⟨e, -, same⟩ := Option.map_eq_some_iff.mp read
      obtain ⟨rfl, rfl⟩ := Prod.mk.inj same
      refine ⟨[b], rfl, List.cons_ne_nil b [], le_rfl, fun member => ?_⟩
      rw [List.mem_singleton.mp member]

theorem length_of_escape {text c left : Bytes} (read : escape text = some (c, left)) :
    left.length < text.length := by
  obtain ⟨used, rfl, some, -, -⟩ := exists_of_escape read
  rw [List.length_append]
  exact Nat.lt_add_of_pos_left (List.length_pos_of_ne_nil some)

/-- What is in front of the next quote that no escape takes, decoded, and what is behind it. -/
def stringBody : Bytes → Option (Bytes × Bytes)
  | [] => none
  | b :: rest =>
    if b = 0x22 then some ([], rest)
    else if b = 0x5C then
      match _read : escape rest with
      | some (c, left) => (stringBody left).map fun body => (c ++ body.1, body.2)
      | none => none
    else if b < 0x20 then none
    else (stringBody rest).map fun body => (b :: body.1, body.2)
termination_by text => text.length
decreasing_by
  · have shrinks := length_of_escape _read
    exact Nat.lt_succ_of_lt shrinks
  · exact Nat.lt_succ_self _

/-! Numbers. -/

/-- What is behind a point, if there is one. -/
def fraction : Bytes → Option (Bytes × Bytes)
  | [] => some ([], [])
  | b :: rest =>
    if b = 0x2E then
      if rest.takeWhile isDigit = [] then none
      else some (rest.takeWhile isDigit, rest.dropWhile isDigit)
    else some ([], b :: rest)

def exponent : Bytes → Option ℤ
  | [] => some 0
  | b :: rest =>
    if b = 0x65 ∨ b = 0x45 then
      let (negative, digits) := IntParser.sign ⟨true, true, 0, 0⟩ rest
      if digits = [] ∨ ¬ digits.all isDigit then none
      else some (IntParser.value negative digits)
    else none

def numberValue (run : Bytes) : Option ℚ :=
  let (negative, body) := IntParser.sign ⟨false, true, 0, 0⟩ run
  let whole := body.takeWhile isDigit
  if whole = [] ∨ (whole.head? = some 0x30 ∧ whole ≠ [0x30]) then none
  else
    match fraction (body.dropWhile isDigit) with
    | none => none
    | some (digits, rest) =>
      (exponent rest).map fun e =>
        (IntParser.value negative (whole ++ digits) : ℚ) * (10 : ℚ) ^ (e - digits.length : ℤ)

def numberByte (b : UInt8) : Bool :=
  isDigit b || b = 0x2D || b = 0x2B || b = 0x2E || b = 0x65 || b = 0x45

def wordByte (b : UInt8) : Bool := 0x61 ≤ b && b ≤ 0x7A

def wordToken (word : Bytes) : Option Token :=
  if word = ascii "null" then some .null
  else if word = ascii "true" then some (.bool true)
  else if word = ascii "false" then some (.bool false)
  else none

def isMark (b : UInt8) : Bool :=
  b = 0x5B || b = 0x5D || b = 0x7B || b = 0x7D || b = 0x2C || b = 0x3A

def isBlank (b : UInt8) : Bool := b = 0x20 || b = 0x09 || b = 0x0A || b = 0x0D

/-- The token at the front of a text that has no white space there, and what is behind it. -/
def token (text : Bytes) : Option (Token × Bytes) :=
  match text with
  | [] => none
  | b :: rest =>
    if b = 0x22 then (stringBody rest).map fun body => (.string body.1, body.2)
    else if isMark b then some (.mark b, rest)
    else if numberByte b then
      (numberValue (text.takeWhile numberByte)).map fun v =>
        (.number v, text.dropWhile numberByte)
    else (wordToken (text.takeWhile wordByte)).map fun t => (t, text.dropWhile wordByte)

theorem length_of_stringBody {text body left : Bytes}
    (read : stringBody text = some (body, left)) : left.length < text.length := by
  fun_induction stringBody text generalizing body with
  | case1 => cases read
  | case2 rest =>
    cases read
    exact Nat.lt_succ_self _
  | case3 rest c later escaped quote ih =>
    obtain ⟨tail, inner, same⟩ := Option.map_eq_some_iff.mp read
    cases same
    have shorter := ih inner
    have shrinks := length_of_escape escaped
    rw [List.length_cons]
    omega
  | case4 => cases read
  | case5 => cases read
  | case6 b rest quote slash high ih =>
    obtain ⟨tail, inner, same⟩ := Option.map_eq_some_iff.mp read
    cases same
    exact Nat.lt_succ_of_lt (ih inner)

theorem length_dropWhile_lt {p : UInt8 → Bool} {text : Bytes} (some : text.takeWhile p ≠ []) :
    (text.dropWhile p).length < text.length := by
  have parts := congrArg List.length (@List.takeWhile_append_dropWhile _ p text)
  have positive := List.length_pos_of_ne_nil some
  rw [List.length_append] at parts
  omega

theorem length_of_token {text left : Bytes} {t : Token} (read : token text = some (t, left)) :
    left.length < text.length := by
  cases text with
  | nil => cases read
  | cons b rest =>
    rw [token] at read
    split at read
    · obtain ⟨body, inner, same⟩ := Option.map_eq_some_iff.mp read
      cases same
      exact Nat.lt_succ_of_lt (length_of_stringBody inner)
    · split at read
      · cases read
        exact Nat.lt_succ_self _
      · split at read
        · next digit =>
          obtain ⟨v, -, same⟩ := Option.map_eq_some_iff.mp read
          cases same
          apply length_dropWhile_lt
          rw [List.takeWhile_cons_of_pos digit]
          exact List.cons_ne_nil _ _
        · obtain ⟨word, inner, same⟩ := Option.map_eq_some_iff.mp read
          cases same
          apply length_dropWhile_lt
          intro none
          rw [none] at inner
          cases inner

/-- The tokens of a text; white space between them is nothing. -/
def lex : Bytes → Option (List Token)
  | [] => some []
  | b :: rest =>
    if isBlank b then lex rest
    else
      match _read : token (b :: rest) with
      | some (t, left) => (lex left).map (t :: ·)
      | none => none
termination_by text => text.length
decreasing_by
  · exact Nat.lt_succ_self _
  · exact length_of_token _read

/-- The text is a JSON text, and this is its value. -/
structure Denotes (text : Bytes) (value : Json) : Prop where
  valid : Utf8.Valid text
  tokens : lex text = some value.tokens

/-! A string between quotes is read as itself exactly if it has no quote, backslash or control
character; one that ends in a backslash takes the quote, and then stops behind the comma. -/

def Plain (s : Bytes) : Prop := ∀ b ∈ s, b ≠ 0x22 ∧ b ≠ 0x5C ∧ 0x20 ≤ b

instance (s : Bytes) : Decidable (Plain s) :=
  inferInstanceAs (Decidable (∀ b ∈ s, b ≠ 0x22 ∧ b ≠ 0x5C ∧ 0x20 ≤ b))

theorem stringBody_quote (rest : Bytes) : stringBody (0x22 :: rest) = some ([], rest) := by
  rw [stringBody, if_pos rfl]

theorem stringBody_byte {b : UInt8} (quote : b ≠ 0x22) (slash : b ≠ 0x5C) (high : 0x20 ≤ b)
    (rest : Bytes) :
    stringBody (b :: rest) = (stringBody rest).map fun body => (b :: body.1, body.2) := by
  rw [stringBody, if_neg quote, if_neg slash, if_neg (UInt8.not_lt.mpr high)]

theorem stringBody_control {b : UInt8} (quote : b ≠ 0x22) (slash : b ≠ 0x5C) (low : b < 0x20)
    (rest : Bytes) : stringBody (b :: rest) = none := by
  rw [stringBody, if_neg quote, if_neg slash, if_pos low]

theorem stringBody_slash {rest body left : Bytes}
    (read : stringBody (0x5C :: rest) = some (body, left)) :
    ∃ c later tail, escape rest = some (c, later) ∧ stringBody later = some (tail, left) ∧
      body = c ++ tail := by
  rw [stringBody, if_neg (by decide), if_pos rfl] at read
  split at read
  · next c later escaped =>
    obtain ⟨inner, tail, same⟩ := Option.map_eq_some_iff.mp read
    obtain ⟨rfl, rfl⟩ := Prod.mk.inj same
    exact ⟨c, later, inner.1, escaped, tail, rfl⟩
  · cases read

theorem stringBody_plain {s : Bytes} (plain : Plain s) (rest : Bytes) :
    stringBody (s ++ 0x22 :: rest) = some (s, rest) := by
  induction s with
  | nil => exact stringBody_quote rest
  | cons b s ih =>
    obtain ⟨quote, slash, high⟩ := plain b List.mem_cons_self
    rw [List.cons_append, stringBody_byte quote slash high,
      ih fun other member => plain other (List.mem_cons_of_mem b member)]
    rfl

/-- Where the quote behind `s` is not part of what is split off, neither is anything else there. -/
theorem split_of_fresh {s used left tail : Bytes} (split : s ++ 0x22 :: tail = used ++ left)
    (fresh : 0x22 ∉ used) : ∃ later, s = used ++ later ∧ left = later ++ 0x22 :: tail := by
  rcases List.append_eq_append_iff.mp split with ⟨more, rfl, same⟩ | ⟨later, rfl, rfl⟩
  · cases more with
    | nil => exact ⟨[], by simp only [List.append_nil], same.symm⟩
    | cons b more =>
      obtain ⟨rfl, -⟩ := List.cons.inj same
      exact absurd (List.mem_append_right s List.mem_cons_self) fresh
  · exact ⟨later, rfl, rfl⟩

/-- What an escape takes of a string with its quote behind it. -/
theorem escape_cases {s tail c left : Bytes} (read : escape (s ++ 0x22 :: tail) = some (c, left)) :
    (s = [] ∧ left = tail) ∨
      ∃ used later, s = used ++ later ∧ left = later ++ 0x22 :: tail ∧ c.length ≤ used.length := by
  obtain ⟨used, split, some, short, taken⟩ := exists_of_escape read
  by_cases quote : 0x22 ∈ used
  · obtain rfl := taken quote
    cases s with
    | nil => exact Or.inl ⟨rfl, (List.cons.inj split).2.symm⟩
    | cons b s =>
      obtain ⟨rfl, same⟩ := List.cons.inj split
      exact Or.inr ⟨[0x22], s, rfl, same.symm, short⟩
  · obtain ⟨later, whole, same⟩ := split_of_fresh split quote
    exact Or.inr ⟨used, later, whole, same, short⟩

theorem stringBody_cases {s rest body left : Bytes}
    (read : stringBody (s ++ 0x22 :: 0x2C :: 0x22 :: rest) = some (body, left)) :
    body.length < s.length ∨ Plain s ∨
      (s.getLast? = some 0x5C ∧ body.getLast? = some 0x2C) := by
  induction size : s.length using Nat.strong_induction_on generalizing s body with
  | h n ih =>
    subst size
    cases s with
    | nil => exact Or.inr (Or.inl fun b member => absurd member List.not_mem_nil)
    | cons b s =>
      rw [List.cons_append] at read
      by_cases quote : b = 0x22
      · rw [quote, stringBody_quote] at read
        cases read
        exact Or.inl (Nat.succ_pos s.length)
      by_cases slash : b = 0x5C
      · subst slash
        obtain ⟨c, later, tail, escaped, inner, rfl⟩ := stringBody_slash read
        rcases escape_cases escaped with ⟨rfl, rfl⟩ | ⟨used, more, rfl, rfl, short⟩
        · rw [stringBody_byte (by decide) (by decide) (by decide), stringBody_quote] at inner
          cases inner
          exact Or.inr (Or.inr ⟨rfl, List.getLast?_concat⟩)
        · have length : more.length < (0x5C :: (used ++ more)).length := by
            rw [List.length_cons, List.length_append]
            omega
          have shorter (within : tail.length ≤ more.length) :
              (c ++ tail).length < (0x5C :: (used ++ more)).length := by
            simp only [List.length_cons, List.length_append]
            omega
          rcases ih more.length length inner rfl with less | plain | ends
          · exact Or.inl (shorter less.le)
          · rw [stringBody_plain plain] at inner
            cases inner
            exact Or.inl (shorter le_rfl)
          · refine Or.inr (Or.inr ⟨?_, ?_⟩)
            · rw [List.getLast?_cons, List.getLast?_append, ends.1]
              rfl
            · rw [List.getLast?_append, ends.2]
              rfl
      by_cases low : b < 0x20
      · rw [stringBody_control quote slash low] at read
        cases read
      · rw [stringBody_byte quote slash (UInt8.not_lt.mp low)] at read
        obtain ⟨inner, tail, same⟩ := Option.map_eq_some_iff.mp read
        obtain ⟨rfl, rfl⟩ := Prod.mk.inj same
        rcases ih s.length (Nat.lt_succ_self s.length) tail rfl with less | plain | ends
        · exact Or.inl (Nat.succ_lt_succ less)
        · refine Or.inr (Or.inl fun other member => ?_)
          rcases List.mem_cons.mp member with rfl | inside
          · exact ⟨quote, slash, UInt8.not_lt.mp low⟩
          · exact plain other inside
        · refine Or.inr (Or.inr ⟨?_, ?_⟩)
          · rw [List.getLast?_cons, ends.1]
            rfl
          · rw [List.getLast?_cons, ends.2]
            rfl

theorem plain_of_stringBody {s rest left : Bytes}
    (read : stringBody (s ++ 0x22 :: 0x2C :: 0x22 :: rest) = some (s, left)) : Plain s := by
  rcases stringBody_cases read with less | plain | ⟨slash, comma⟩
  · exact absurd less (Nat.lt_irrefl s.length)
  · exact plain
  · rw [slash] at comma
    cases comma

/-! One token after the other. -/

section Lex

variable {text rest : Bytes} {more : List Token}

theorem lex_cons_iff {b : UInt8} {t : Token} (blank : isBlank b = false) :
    lex (b :: rest) = some (t :: more) ↔
      ∃ left, token (b :: rest) = some (t, left) ∧ lex left = some more := by
  rw [lex, if_neg (by rw [blank]; exact Bool.false_ne_true)]
  split
  · next u left read =>
    rw [read, Option.map_eq_some_iff]
    constructor
    · rintro ⟨tail, inner, same⟩
      obtain ⟨rfl, rfl⟩ := List.cons.inj same
      exact ⟨left, rfl, inner⟩
    · rintro ⟨other, same, inner⟩
      cases same
      exact ⟨more, inner, rfl⟩
  · next none =>
    rw [none]
    constructor
    · intro empty
      cases empty
    · rintro ⟨left, empty, -⟩
      cases empty

theorem lex_of_token {b : UInt8} {t : Token} {left : Bytes} (blank : isBlank b = false)
    (read : token (b :: rest) = some (t, left)) :
    lex (b :: rest) = some (t :: more) ↔ lex left = some more := by
  rw [lex_cons_iff blank]
  constructor
  · rintro ⟨other, same, inner⟩
    rw [read] at same
    cases same
    exact inner
  · intro inner
    exact ⟨left, read, inner⟩

theorem lex_mark_iff {b : UInt8} (mark : isMark b) :
    lex (b :: rest) = some (.mark b :: more) ↔ lex rest = some more := by
  have shape : b ≠ 0x22 ∧ isBlank b = false := by
    simp only [isMark, Bool.or_eq_true, decide_eq_true_eq] at mark
    rcases mark with ((((rfl | rfl) | rfl) | rfl) | rfl) | rfl <;> decide
  apply lex_of_token shape.2
  rw [token, if_neg shape.1, if_pos mark]

theorem lex_string_iff {s : Bytes} (plain : Plain s) :
    lex (0x22 :: (s ++ 0x22 :: rest)) = some (.string s :: more) ↔ lex rest = some more := by
  apply lex_of_token rfl
  rw [token, if_pos rfl, stringBody_plain plain]
  rfl

/-- A string that nothing was done for, in front of another one. -/
theorem lex_name_iff {s : Bytes} :
    lex (0x22 :: (s ++ 0x22 :: 0x2C :: 0x22 :: rest)) = some (.string s :: more) ↔
      Plain s ∧ lex (0x2C :: 0x22 :: rest) = some more := by
  constructor
  · intro whole
    obtain ⟨left, read, -⟩ := (lex_cons_iff rfl).mp whole
    rw [token, if_pos rfl, Option.map_eq_some_iff] at read
    obtain ⟨body, inner, same⟩ := read
    cases same
    have plain := plain_of_stringBody inner
    exact ⟨plain, (lex_string_iff plain).mp whole⟩
  · rintro ⟨plain, inner⟩
    exact (lex_string_iff plain).mpr inner

theorem takeWhile_append_of_stop {p : UInt8 → Bool} (all : ∀ b ∈ text, p b)
    (stop : ∀ b ∈ rest.head?, ¬ p b) : (text ++ rest).takeWhile p = text := by
  rw [List.takeWhile_append_of_pos all]
  cases rest with
  | nil => exact List.append_nil text
  | cons b rest => rw [List.takeWhile_cons_of_neg (stop b rfl), List.append_nil]

theorem dropWhile_append_of_stop {p : UInt8 → Bool} (all : ∀ b ∈ text, p b)
    (stop : ∀ b ∈ rest.head?, ¬ p b) : (text ++ rest).dropWhile p = rest := by
  rw [List.dropWhile_append_of_pos all]
  cases rest with
  | nil => rfl
  | cons b rest => exact List.dropWhile_cons_of_neg (stop b rfl)

theorem lex_number_iff {v : ℚ} (some : text ≠ []) (all : ∀ b ∈ text, numberByte b)
    (value : numberValue text = Option.some v) (stop : ∀ b ∈ rest.head?, ¬ numberByte b) :
    lex (text ++ rest) = Option.some (.number v :: more) ↔ lex rest = Option.some more := by
  cases text with
  | nil => exact absurd rfl some
  | cons b tail =>
    have digit := all b List.mem_cons_self
    have quote : b ≠ 0x22 := by
      rintro rfl
      exact absurd digit (by decide)
    have mark : ¬ isMark b := by
      intro mark
      simp only [isMark, Bool.or_eq_true, decide_eq_true_eq] at mark
      rcases mark with ((((rfl | rfl) | rfl) | rfl) | rfl) | rfl <;> exact absurd digit (by decide)
    have blank : isBlank b = false := by
      rw [← Bool.not_eq_true]
      intro blank
      simp only [isBlank, Bool.or_eq_true, decide_eq_true_eq] at blank
      rcases blank with ((rfl | rfl) | rfl) | rfl <;> exact absurd digit (by decide)
    rw [List.cons_append]
    apply lex_of_token blank
    rw [token, if_neg quote, if_neg mark, if_pos digit, ← List.cons_append,
      takeWhile_append_of_stop all stop, dropWhile_append_of_stop all stop, value]
    rfl

theorem lex_word_iff {t : Token} (value : wordToken text = some t)
    (stop : ∀ b ∈ rest.head?, ¬ wordByte b) :
    lex (text ++ rest) = some (t :: more) ↔ lex rest = some more := by
  have words : text = ascii "null" ∨ text = ascii "true" ∨ text = ascii "false" := by
    rw [wordToken] at value
    split_ifs at value with null yes no
    · exact Or.inl null
    · exact Or.inr (Or.inl yes)
    · exact Or.inr (Or.inr no)
  have letters : ∀ b ∈ text, wordByte b := by
    rcases words with rfl | rfl | rfl <;> decide
  obtain ⟨b, tail, rfl, quote, mark, number, blank⟩ : ∃ b tail, text = b :: tail ∧ b ≠ 0x22 ∧
      ¬ isMark b ∧ ¬ numberByte b ∧ isBlank b = false := by
    rcases words with rfl | rfl | rfl <;> exact ⟨_, _, rfl, by decide⟩
  rw [List.cons_append]
  apply lex_of_token blank
  rw [token, if_neg quote, if_neg mark, if_neg number, ← List.cons_append,
    takeWhile_append_of_stop letters stop, dropWhile_append_of_stop letters stop, value]
  rfl

/-- Items written one after another. -/
def listed {α : Type*} (write : α → Bytes) (first : Bool) : List α → Bytes
  | [] => []
  | item :: items => (if first then [] else [0x2C]) ++ (write item ++ listed write false items)

/-- Where one item is read back exactly if it is good, so are all of them. -/
theorem lex_listed_iff {α : Type*} {write : α → Bytes} {value : α → Json} {good : α → Prop}
    (one : ∀ item rest more, lex (write item ++ rest) = some ((value item).tokens ++ more) ↔
      good item ∧ lex rest = some more) (first : Bool) (items : List α) :
    lex (listed write first items ++ 0x5D :: rest) =
        some (itemTokens first (items.map value) ++ more) ↔
      (∀ item ∈ items, good item) ∧ lex rest = some more := by
  induction items generalizing first with
  | nil =>
    refine (lex_mark_iff rfl).trans (and_iff_right ?_).symm
    rintro item ⟨⟩
  | cons item items ih =>
    have tail : lex (write item ++ (listed write false items ++ 0x5D :: rest)) =
          some ((value item).tokens ++ (itemTokens false (items.map value) ++ more)) ↔
        (∀ other ∈ item :: items, good other) ∧ lex rest = some more := by
      rw [one, ih, List.forall_mem_cons, and_assoc]
    cases first with
    | true =>
      simp only [listed, List.map_cons, itemTokens, List.append_assoc]
      exact tail
    | false =>
      simp only [listed, List.map_cons, itemTokens, List.append_assoc]
      exact (lex_mark_iff rfl).trans tail

theorem valid_listed_iff {α : Type*} {write : α → Bytes} {good : α → Prop}
    (one : ∀ item rest, Utf8.Valid (write item ++ rest) ↔ good item ∧ Utf8.Valid rest)
    (first : Bool) (items : List α) :
    Utf8.Valid (listed write first items ++ rest) ↔
      (∀ item ∈ items, good item) ∧ Utf8.Valid rest := by
  induction items generalizing first with
  | nil =>
    refine (and_iff_right ?_).symm
    rintro item ⟨⟩
  | cons item items ih =>
    have ascii : ∀ b ∈ (if first then [] else [0x2C] : Bytes), b ≤ 0x7F := by
      cases first <;> decide
    rw [listed, List.append_assoc, List.append_assoc, Utf8.valid_ascii_append ascii, one, ih,
      List.forall_mem_cons, and_assoc]

end Lex

/-! The numbers that the library prints. -/

theorem numberValue_of_sign {run tail digits : Bytes} {negative : Bool} {n : ℕ}
    (sign : IntParser.sign ⟨false, true, 0, 0⟩ run = (negative, decimal n ++ tail))
    (stop : ∀ b ∈ tail.head?, ¬ isDigit b) (behind : fraction tail = some (digits, [])) :
    numberValue run = some ((IntParser.value negative (decimal n ++ digits) : ℚ) *
      (10 : ℚ) ^ (-digits.length : ℤ)) := by
  have whole : (decimal n ++ tail).takeWhile isDigit = decimal n :=
    takeWhile_append_of_stop (fun b member => isDigit_of_mem_decimal member) stop
  have left : (decimal n ++ tail).dropWhile isDigit = tail :=
    dropWhile_append_of_stop (fun b member => isDigit_of_mem_decimal member) stop
  have good : ¬ (decimal n = [] ∨ ((decimal n).head? = some 0x30 ∧ decimal n ≠ [0x30])) := by
    rintro (none | ⟨zero, more⟩)
    · exact decimal_ne_nil n none
    · exact more (decimal_of_head zero)
  rw [numberValue, sign]
  dsimp only
  rw [whole, left, if_neg good, behind]
  dsimp only
  rw [exponent, Option.map_some, zero_sub]

theorem sign_minus (rest : Bytes) :
    IntParser.sign ⟨false, true, 0, 0⟩ (0x2D :: rest) = (true, rest) := rfl

theorem numberValue_decimalInt (n : ℤ) : numberValue (decimalInt n) = some (n : ℚ) := by
  have stop : ∀ b ∈ ([] : Bytes).head?, ¬ isDigit b := by
    rintro b ⟨⟩
  cases n with
  | ofNat n =>
    have sign := IntParser.sign_decimal ⟨false, true, 0, 0⟩ n []
    have value := numberValue_of_sign sign stop rfl
    rw [List.append_nil, List.length_nil, IntParser.value, digitsValue_decimal] at value
    rw [decimalInt, value]
    simp
  | negSucc n =>
    have sign := sign_minus (decimal (n + 1) ++ [])
    have value := numberValue_of_sign sign stop rfl
    rw [List.append_nil, List.length_nil, IntParser.value, digitsValue_decimal] at value
    rw [decimalInt, value]
    simp

/-- A number with a point. -/
theorem numberValue_point (negative : Bool) (n : ℕ) {digits : Bytes} (some : digits ≠ [])
    (all : ∀ b ∈ digits, isDigit b) :
    numberValue ((if negative then [0x2D] else []) ++ (decimal n ++ 0x2E :: digits)) =
      Option.some ((IntParser.value negative (decimal n ++ digits) : ℚ) *
        (10 : ℚ) ^ (-digits.length : ℤ)) := by
  have stop : ∀ b ∈ (0x2E :: digits).head?, ¬ isDigit b := by
    rintro b ⟨⟩
    decide
  have whole : digits.takeWhile isDigit = digits := List.takeWhile_eq_self_iff.mpr all
  have none : digits.dropWhile isDigit = [] := List.dropWhile_eq_nil_iff.mpr all
  have behind : fraction (0x2E :: digits) = Option.some (digits, []) := by
    rw [fraction, if_pos rfl, whole, if_neg some, none]
  cases negative with
  | true => exact numberValue_of_sign (sign_minus _) stop behind
  | false => exact numberValue_of_sign (IntParser.sign_decimal _ n _) stop behind

/-! Different values have different tokens, so a text has one value. -/

theorem exists_tokens (v : Json) : ∃ t rest, v.tokens = t :: rest ∧ t ≠ .mark 0x5D := by
  cases v with
  | null | bool | number | string | array | object =>
    rw [tokens]
    exact ⟨_, _, rfl, by rintro ⟨⟩⟩

theorem itemTokens_cons_ne {first : Bool} {v : Json} {vs : List Json} {r s : List Token} :
    itemTokens first (v :: vs) ++ r ≠ .mark 0x5D :: s := by
  intro same
  cases first with
  | true =>
    obtain ⟨t, rest, shape, other⟩ := exists_tokens v
    rw [itemTokens, shape] at same
    exact other (List.cons.inj same).1
  | false =>
    rw [itemTokens] at same
    exact absurd (List.cons.inj same).1 (by decide)

theorem memberTokens_cons_ne {first : Bool} {v : Bytes × Json} {vs : List (Bytes × Json)}
    {r s : List Token} : memberTokens first (v :: vs) ++ r ≠ .mark 0x7D :: s := by
  intro same
  rw [memberTokens] at same
  cases first with
  | true => cases (List.cons.inj same).1
  | false => exact absurd (List.cons.inj same).1 (by decide)

mutual

theorem tokens_append_inj : ∀ {v w : Json} {r s : List Token},
    v.tokens ++ r = w.tokens ++ s → v = w ∧ r = s
  | .null, w, r, s, same => by
    cases w with
    | null =>
      obtain ⟨one, rest⟩ := List.cons.inj same
      cases one
      exact ⟨rfl, rest⟩
    | bool | number | string | array | object => cases (List.cons.inj same).1
  | .bool value, w, r, s, same => by
    cases w with
    | bool =>
      obtain ⟨one, rest⟩ := List.cons.inj same
      cases one
      exact ⟨rfl, rest⟩
    | null | number | string | array | object => cases (List.cons.inj same).1
  | .number value, w, r, s, same => by
    cases w with
    | number =>
      obtain ⟨one, rest⟩ := List.cons.inj same
      cases one
      exact ⟨rfl, rest⟩
    | null | bool | string | array | object => cases (List.cons.inj same).1
  | .string value, w, r, s, same => by
    cases w with
    | string =>
      obtain ⟨one, rest⟩ := List.cons.inj same
      cases one
      exact ⟨rfl, rest⟩
    | null | bool | number | array | object => cases (List.cons.inj same).1
  | .array items, w, r, s, same => by
    cases w with
    | array others =>
      have ⟨whole, rest⟩ := itemTokens_append_inj (List.cons.inj same).2
      exact ⟨congrArg array whole, rest⟩
    | null | bool | number | string | object => cases (List.cons.inj same).1
  | .object members, w, r, s, same => by
    cases w with
    | object others =>
      have ⟨whole, rest⟩ := memberTokens_append_inj (List.cons.inj same).2
      exact ⟨congrArg object whole, rest⟩
    | null | bool | number | string | array => cases (List.cons.inj same).1

theorem itemTokens_append_inj : ∀ {first : Bool} {vs ws : List Json} {r s : List Token},
    itemTokens first vs ++ r = itemTokens first ws ++ s → vs = ws ∧ r = s
  | first, [], ws, r, s, same => by
    cases ws with
    | nil => exact ⟨rfl, (List.cons.inj same).2⟩
    | cons w ws => exact absurd same.symm itemTokens_cons_ne
  | first, v :: vs, [], r, s, same => by
    exact absurd same itemTokens_cons_ne
  | first, v :: vs, w :: ws, r, s, same => by
    simp only [itemTokens, List.append_assoc, List.append_cancel_left_eq] at same
    obtain ⟨rfl, rest⟩ := tokens_append_inj same
    obtain ⟨rfl, rfl⟩ := itemTokens_append_inj rest
    exact ⟨rfl, rfl⟩

theorem memberTokens_append_inj : ∀ {first : Bool} {vs ws : List (Bytes × Json)} {r s : List Token},
    memberTokens first vs ++ r = memberTokens first ws ++ s → vs = ws ∧ r = s
  | first, [], ws, r, s, same => by
    cases ws with
    | nil => exact ⟨rfl, (List.cons.inj same).2⟩
    | cons w ws => exact absurd same.symm memberTokens_cons_ne
  | first, (key, v) :: vs, [], r, s, same => by
    exact absurd same memberTokens_cons_ne
  | first, (key, v) :: vs, (other, w) :: ws, r, s, same => by
    simp only [memberTokens, List.append_assoc, List.append_cancel_left_eq, List.cons_append,
      List.cons.injEq, Token.string.injEq, true_and] at same
    obtain ⟨rfl, same⟩ := same
    obtain ⟨rfl, rest⟩ := tokens_append_inj same
    obtain ⟨rfl, rfl⟩ := memberTokens_append_inj rest
    exact ⟨rfl, rfl⟩

end

theorem Denotes.unique {text : Bytes} {v w : Json} (one : Denotes text v)
    (other : Denotes text w) : v = w := by
  have same : v.tokens = w.tokens := Option.some.inj (one.tokens.symm.trans other.tokens)
  exact (tokens_append_inj (congrArg (· ++ ([] : List Token)) same)).1

end Json

end LinuxSys.Lib
