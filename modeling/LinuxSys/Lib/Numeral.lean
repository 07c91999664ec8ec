import LinuxSys.Lib.Decimal

/-! # Integers read from a text

A parser of integers takes a sign, where it knows one, and digits only, and refuses what is out of
its range. What `decimalInt` prints is read back by every parser that knows a minus.
-/

namespace LinuxSys.Lib

/-- The signs that a parser knows and its range. -/
structure IntParser where
  plus : Bool
  minus : Bool
  least : ℤ
  most : ℤ

namespace IntParser

/-- Whether the text has a minus, and what is behind its sign. -/
def sign (p : IntParser) : Bytes → Bool × Bytes
  | [] => (false, [])
  | b :: rest =>
    if p.minus ∧ b = 0x2D then (true, rest)
    else if p.plus ∧ b = 0x2B then (false, rest)
    else (false, b :: rest)

def value (negative : Bool) (digits : Bytes) : ℤ :=
  if negative then -digitsValue digits else digitsValue digits

/-- The integer that is the whole text. -/
def parse (p : IntParser) (text : Bytes) : Option ℤ :=
  let (negative, digits) := p.sign text
  if digits = [] ∨ ¬ digits.all isDigit then none
  else if p.least ≤ value negative digits ∧ value negative digits ≤ p.most then
    some (value negative digits)
  else none

/-- A 64-bit integer as `std::from_chars` reads it. -/
def fromChars64 : IntParser := ⟨false, true, -2 ^ 63, 2 ^ 63 - 1⟩

/-- A 64-bit integer as `str::parse`, `strconv.ParseInt` and `strconv.Atoi` read it. -/
def parse64 : IntParser := ⟨true, true, -2 ^ 63, 2 ^ 63 - 1⟩

variable {p : IntParser} {text : Bytes} {n : ℤ}

theorem parse_eq_some_iff : p.parse text = some n ↔
    (p.sign text).2 ≠ [] ∧ (∀ b ∈ (p.sign text).2, isDigit b) ∧
      value (p.sign text).1 (p.sign text).2 = n ∧ p.least ≤ n ∧ n ≤ p.most := by
  rw [parse]
  simp only
  constructor
  · intro read
    split_ifs at read with bad range
    obtain rfl := Option.some.inj read
    rw [not_or, not_not, List.all_eq_true] at bad
    exact ⟨bad.1, bad.2, rfl, range⟩
  · rintro ⟨some, digits, rfl, range⟩
    have good : ¬ ((p.sign text).2 = [] ∨ ¬ (p.sign text).2.all isDigit) := by
      rw [not_or, not_not, List.all_eq_true]
      exact ⟨some, digits⟩
    rw [if_neg good, if_pos range]

theorem within_of_parse (read : p.parse text = some n) : p.least ≤ n ∧ n ≤ p.most :=
  (parse_eq_some_iff.mp read).2.2.2

theorem sign_digit_cons (p : IntParser) {b : UInt8} (digit : isDigit b) (rest : Bytes) :
    p.sign (b :: rest) = (false, b :: rest) := by
  have noMinus : ¬ (p.minus ∧ b = 0x2D) := by
    rintro ⟨-, rfl⟩
    exact absurd digit (by decide)
  have noPlus : ¬ (p.plus ∧ b = 0x2B) := by
    rintro ⟨-, rfl⟩
    exact absurd digit (by decide)
  rw [sign, if_neg noMinus, if_neg noPlus]

theorem sign_decimal (p : IntParser) (n : ℕ) (rest : Bytes) :
    p.sign (decimal n ++ rest) = (false, decimal n ++ rest) := by
  have digits : ∀ b ∈ decimal n, isDigit b := fun b member => isDigit_of_mem_decimal member
  cases text : decimal n with
  | nil => exact absurd text (decimal_ne_nil n)
  | cons b tail =>
    rw [text] at digits
    exact sign_digit_cons p (digits b List.mem_cons_self) (tail ++ rest)

theorem parse_decimal {n : ℕ} (least : p.least ≤ n) (most : n ≤ p.most) :
    p.parse (decimal n) = some (n : ℤ) := by
  have signs := sign_decimal p n []
  rw [List.append_nil] at signs
  rw [parse_eq_some_iff, signs]
  refine ⟨decimal_ne_nil n, fun b member => isDigit_of_mem_decimal member, ?_, least, most⟩
  rw [value, digitsValue_decimal]
  rfl

theorem parse_decimalInt (minus : p.minus) (least : p.least ≤ n) (most : n ≤ p.most) :
    p.parse (decimalInt n) = some n := by
  cases n with
  | ofNat n => exact parse_decimal least most
  | negSucc n =>
    have signs : p.sign (decimalInt (.negSucc n)) = (true, decimal (n + 1)) :=
      if_pos ⟨minus, rfl⟩
    rw [parse_eq_some_iff, signs]
    refine ⟨decimal_ne_nil _, fun b member => isDigit_of_mem_decimal member, ?_, least, most⟩
    rw [value, digitsValue_decimal]
    rfl

end IntParser

end LinuxSys.Lib
