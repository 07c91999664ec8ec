import Mathlib.Data.Int.ModEq

/-! # Machine words

The integer that a word of so many bits keeps of a given one, signed and unsigned.
-/

namespace LinuxSys.Lib

/-- Two's complement. -/
def toSigned (bits : ℕ) (x : ℤ) : ℤ := x.bmod (2 ^ bits)

def toUnsigned (bits : ℕ) (x : ℤ) : ℤ := x % 2 ^ bits

theorem toSigned_of_lt {bits : ℕ} {x : ℤ} (least : -2 ^ bits ≤ x) (most : x < 2 ^ bits) :
    toSigned (bits + 1) x = x := by
  have power : (2 : ℤ) ^ (bits + 1) = 2 * 2 ^ bits := pow_succ' 2 bits
  apply Int.bmod_eq_of_le_mul_two <;> push_cast <;> omega

theorem toSigned_le (bits : ℕ) {x : ℤ} (least : 0 ≤ x) : toSigned bits x ≤ x := by
  have whole : x % (2 ^ bits : ℕ) ≤ x := by
    obtain ⟨n, rfl⟩ := Int.eq_ofNat_of_zero_le least
    exact_mod_cast Nat.mod_le n _
  have power : (0 : ℤ) ≤ (2 ^ bits : ℕ) := Int.natCast_nonneg _
  rw [toSigned, Int.bmod_def]
  split_ifs <;> omega

theorem toUnsigned_of_lt {bits : ℕ} {x : ℤ} (least : 0 ≤ x) (most : x < 2 ^ bits) :
    toUnsigned bits x = x := Int.emod_eq_of_lt least most

/-- A word may be wrapped before it is multiplied. -/
theorem toSigned_mul (bits : ℕ) (x y : ℤ) :
    toSigned bits (x * toSigned bits y) = toSigned bits (x * y) := Int.mul_bmod_bmod ..

theorem toUnsigned_mul (bits : ℕ) (x y : ℤ) :
    toUnsigned bits (x * toUnsigned bits y) = toUnsigned bits (x * y) :=
  (Int.mod_modEq y (2 ^ bits)).mul_left x

end LinuxSys.Lib
