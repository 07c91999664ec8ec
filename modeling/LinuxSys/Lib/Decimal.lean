import Mathlib.Data.List.Induction
import LinuxSys.Lib.Bytes

/-! # Decimal numerals

A natural number as ASCII digits without leading zeros, and the value of any string of digits.
The value is a left inverse of printing, so distinct numbers print differently.
-/

namespace LinuxSys.Lib

def digit (d : ℕ) : UInt8 := UInt8.ofNat (48 + d)

def isDigit (b : UInt8) : Bool := 48 ≤ b && b ≤ 57

def decimal (n : ℕ) : Bytes :=
  if n < 10 then [digit n] else decimal (n / 10) ++ [digit (n % 10)]

/-- The number that a string of digits spells. -/
def digitsValue (text : Bytes) : ℕ :=
  text.foldl (fun value b => value * 10 + (b.toNat - 48)) 0

theorem digit_toNat {d : ℕ} (small : d < 10) : (digit d).toNat = 48 + d := by
  rw [digit, UInt8.toNat_ofNat']
  omega

theorem isDigit_iff {b : UInt8} : isDigit b ↔ 48 ≤ b.toNat ∧ b.toNat ≤ 57 := by
  simp only [isDigit, Bool.and_eq_true, decide_eq_true_eq, UInt8.le_iff_toNat_le]
  rfl

theorem isDigit_digit {d : ℕ} (small : d < 10) : isDigit (digit d) := by
  rw [isDigit_iff, digit_toNat small]
  omega

theorem decimal_of_lt {n : ℕ} (small : n < 10) : decimal n = [digit n] := by
  rw [decimal, if_pos small]

theorem decimal_of_le {n : ℕ} (large : 10 ≤ n) :
    decimal n = decimal (n / 10) ++ [digit (n % 10)] := by
  rw [decimal, if_neg (by omega)]

theorem decimal_ne_nil (n : ℕ) : decimal n ≠ [] := by
  rcases Nat.lt_or_ge n 10 with small | large
  · simp [decimal_of_lt small]
  · simp [decimal_of_le large]

theorem isDigit_of_mem_decimal {n : ℕ} {b : UInt8} (member : b ∈ decimal n) : isDigit b := by
  induction n using decimal.induct with
  | case1 n small =>
    rw [decimal_of_lt small, List.mem_singleton] at member
    rw [member]
    exact isDigit_digit small
  | case2 n large ih =>
    rw [decimal_of_le (by omega), List.mem_append, List.mem_singleton] at member
    rcases member with before | last
    · exact ih before
    · rw [last]
      exact isDigit_digit (Nat.mod_lt n (by omega))

theorem digitsValue_append_one (text : Bytes) (b : UInt8) :
    digitsValue (text ++ [b]) = digitsValue text * 10 + (b.toNat - 48) := by
  simp [digitsValue, List.foldl_append]

@[simp] theorem digitsValue_decimal (n : ℕ) : digitsValue (decimal n) = n := by
  induction n using decimal.induct with
  | case1 n small =>
    rw [decimal_of_lt small]
    simp [digitsValue, digit_toNat small]
  | case2 n large ih =>
    rw [decimal_of_le (by omega), digitsValue_append_one, ih,
      digit_toNat (Nat.mod_lt n (by omega))]
    omega

/-- A decimal has no zero in front of another digit. -/
theorem decimal_of_head {n : ℕ} (zero : (decimal n).head? = some 0x30) : decimal n = [0x30] := by
  induction n using Nat.strong_induction_on with
  | h n ih =>
    by_cases small : n < 10
    · rw [decimal_of_lt small] at zero ⊢
      rw [Option.some.inj zero]
    · have large := Nat.not_lt.mp small
      rw [decimal_of_le large, List.head?_append_of_ne_nil _ (decimal_ne_nil _)] at zero
      have none := congrArg digitsValue (ih (n / 10) (by omega) zero)
      rw [digitsValue_decimal] at none
      change n / 10 = 0 at none
      omega

/-- Digits without a zero in front are the decimal of what they spell. -/
theorem decimal_digitsValue {text : Bytes} (full : text ≠ []) (digits : ∀ b ∈ text, isDigit b)
    (canonical : text.head? = some 0x30 → text = [0x30]) : decimal (digitsValue text) = text := by
  induction text using List.reverseRecOn with
  | nil => exact absurd rfl full
  | append_singleton front b ih =>
    have last : isDigit b := digits b (List.mem_append_right _ List.mem_cons_self)
    have spelled : digit (b.toNat - 48) = b := by
      rw [isDigit_iff] at last
      rw [digit, show 48 + (b.toNat - 48) = b.toNat by omega, UInt8.ofNat_toNat]
    have small : b.toNat - 48 < 10 := by
      rw [isDigit_iff] at last
      omega
    rw [digitsValue_append_one]
    by_cases alone : front = []
    · subst alone
      have zero : digitsValue [] = 0 := rfl
      rw [zero, Nat.zero_mul, Nat.zero_add, decimal_of_lt small, spelled, List.nil_append]
    · have head : front.head? ≠ some 0x30 := by
        intro zero
        have whole := canonical (by rw [List.head?_append_of_ne_nil _ alone, zero])
        have short := congrArg List.length whole
        rw [List.length_append, List.length_singleton, List.length_singleton] at short
        exact alone (List.eq_nil_of_length_eq_zero (by omega))
      have before := ih alone (fun d member => digits d (List.mem_append_left _ member))
        fun zero => absurd zero head
      have positive : digitsValue front ≠ 0 := by
        intro zero
        rw [zero, decimal_of_lt (by decide)] at before
        exact head (by rw [← before]; rfl)
      rw [decimal_of_le (by omega),
        show (digitsValue front * 10 + (b.toNat - 48)) / 10 = digitsValue front by omega,
        show (digitsValue front * 10 + (b.toNat - 48)) % 10 = b.toNat - 48 by omega, before, spelled]

theorem decimal_injective {m n : ℕ} (same : decimal m = decimal n) : m = n := by
  rw [← digitsValue_decimal m, same, digitsValue_decimal]

theorem decimal_length_le {n k : ℕ} (bound : n < 10 ^ k) (positive : 0 < k) :
    (decimal n).length ≤ k := by
  induction k generalizing n with
  | zero => omega
  | succ k ih =>
    rcases Nat.lt_or_ge n 10 with small | large
    · rw [decimal_of_lt small]
      simp
    · have more : 0 < k := by
        rcases Nat.eq_zero_or_pos k with zero | more
        · subst zero
          omega
        · exact more
      have shorter : n / 10 < 10 ^ k := by
        rw [Nat.pow_succ] at bound
        omega
      rw [decimal_of_le large, List.length_append]
      have := ih shorter more
      simp only [List.length_singleton]
      omega

/-- An integer, with its sign where it is negative. -/
def decimalInt : ℤ → Bytes
  | .ofNat n => decimal n
  | .negSucc n => 0x2D :: decimal (n + 1)

theorem decimalInt_ne_nil (n : ℤ) : decimalInt n ≠ [] := by
  cases n with
  | ofNat n => exact decimal_ne_nil n
  | negSucc n => exact List.cons_ne_nil _ _

theorem isDigit_or_minus_of_mem {n : ℤ} {b : UInt8} (member : b ∈ decimalInt n) :
    isDigit b ∨ b = 0x2D := by
  cases n with
  | ofNat n => exact .inl (isDigit_of_mem_decimal member)
  | negSucc n =>
    rcases List.mem_cons.mp member with minus | digit
    · exact .inr minus
    · exact .inl (isDigit_of_mem_decimal digit)

theorem minus_cons_ne_decimal (n : ℕ) (rest : Bytes) : 0x2D :: rest ≠ decimal n := by
  intro same
  have digit : isDigit 0x2D := by
    apply isDigit_of_mem_decimal (n := n)
    rw [← same]
    exact List.mem_cons_self
  exact absurd digit (by decide)

theorem decimalInt_injective {m n : ℤ} (same : decimalInt m = decimalInt n) : m = n := by
  cases m with
  | ofNat m =>
    cases n with
    | ofNat n => exact congrArg Int.ofNat (decimal_injective same)
    | negSucc n => exact absurd same.symm (minus_cons_ne_decimal m _)
  | negSucc m =>
    cases n with
    | ofNat n => exact absurd same (minus_cons_ne_decimal n _)
    | negSucc n =>
      have digits := decimal_injective (List.cons.inj same).2
      exact congrArg Int.negSucc (Nat.succ.inj digits)

end LinuxSys.Lib
