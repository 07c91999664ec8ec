import Mathlib.Data.BitVec
import Mathlib.Data.List.Basic
import Mathlib.Data.Nat.ModEq

/-! # Slots of a ring

Counters run freely and wrap with their word; the slot of a count is its remainder by the size of
the ring, a power of two that a mask takes. What lies between what was taken and what was put stays
in its slots.
-/

namespace LinuxSys.Lib

/-- Counts that are less than a ring apart are in different slots. -/
theorem slot_ne {cap k n : ℕ} (below : k < n) (near : n < k + cap) : k % cap ≠ n % cap := by
  intro same
  obtain ⟨d, rfl⟩ : ∃ d, n = k + d := ⟨n - k, by omega⟩
  have divides : cap ∣ d := (Nat.modEq_iff_dvd' (Nat.le_add_right k d)).mp same |>.trans
    (dvd_of_eq (Nat.add_sub_cancel_left ..))
  have less : cap ≤ d := Nat.le_of_dvd (by omega) divides
  omega

namespace Slots

/-! Counters. -/

section Counters

variable {bits k : ℕ} {start : BitVec bits} {m n : ℕ}

/-- The word of a counter that has counted to `n`. -/
def counter (start : BitVec bits) (n : ℕ) : BitVec bits := start + BitVec.ofNat bits n

theorem counter_add_one : counter start n + 1 = counter start (n + 1) := by
  rw [counter, counter, BitVec.ofNat_add, add_assoc]
  rfl

/-- The difference of two words is that of the counts, wrapped or not. -/
theorem toNat_counter_sub (order : m ≤ n) (near : n - m < 2 ^ bits) :
    (counter start n - counter start m).toNat = n - m := by
  obtain ⟨d, rfl⟩ := Nat.exists_eq_add_of_le order
  rw [Nat.add_sub_cancel_left] at near ⊢
  have apart : counter start (m + d) - counter start m = BitVec.ofNat bits d := by
    rw [counter, counter, BitVec.ofNat_add, ← add_assoc, add_sub_cancel_left]
  rw [apart, BitVec.toNat_ofNat, Nat.mod_eq_of_lt near]

theorem counter_eq_iff (order : m ≤ n) (near : n - m < 2 ^ bits) :
    counter start m = counter start n ↔ m = n := by
  constructor
  · intro same
    have apart : (counter start n - counter start m).toNat = n - m := toNat_counter_sub order near
    have zero : (0 : BitVec bits).toNat = 0 := BitVec.toNat_zero
    rw [same, sub_self, zero] at apart
    omega
  · rintro rfl
    rfl

/-- The mask of a ring with `2 ^ k` slots. -/
def mask (bits k : ℕ) : BitVec bits := BitVec.ofNat bits (2 ^ k - 1)

theorem toNat_mask (small : k ≤ bits) : (mask bits k).toNat = 2 ^ k - 1 := by
  have power : 2 ^ k ≤ 2 ^ bits := Nat.pow_le_pow_right (by decide) small
  have positive : 0 < 2 ^ k := Nat.two_pow_pos k
  rw [mask, BitVec.toNat_ofNat, Nat.mod_eq_of_lt (by omega)]

theorem toNat_and_mask (small : k ≤ bits) (n : ℕ) :
    (counter start n &&& mask bits k).toNat = (start.toNat + n) % 2 ^ k := by
  rw [BitVec.toNat_and, toNat_mask small, Nat.and_two_pow_sub_one_eq_mod, counter,
    BitVec.toNat_add, BitVec.toNat_ofNat, Nat.add_mod_mod, Nat.mod_mod_of_dvd _ (pow_dvd_pow 2 small)]

end Counters

/-! Windows. -/

theorem prefix_concat {α : Type*} {front all : List α} {a : α} (order : front <+: all)
    (next : all[front.length]? = some a) : front ++ [a] <+: all := by
  obtain ⟨rest, rfl⟩ := order
  rw [List.getElem?_append_right le_rfl, Nat.sub_self] at next
  cases rest with
  | nil => cases next
  | cons b rest =>
    cases next
    exact ⟨rest, by rw [List.append_assoc]; rfl⟩

section Windows

variable {α : Type*} {size start taken : ℕ} {mem : ℕ → α} {log : List α}

theorem offset_ne {i j : ℕ} (below : i < j) (near : j < i + size) :
    (start + i) % size ≠ (start + j) % size := slot_ne (by omega) (by omega)

/-- Of all that was put into the ring, what was not taken is in its slots. -/
structure Window (size start : ℕ) (mem : ℕ → α) (log : List α) (taken : ℕ) : Prop where
  order : taken ≤ log.length
  fits : log.length ≤ taken + size
  holds : ∀ i v, taken ≤ i → log[i]? = some v → mem ((start + i) % size) = v

namespace Window

theorem empty (size start : ℕ) (mem : ℕ → α) : Window size start mem [] 0 where
  order := le_rfl
  fits := Nat.zero_le _
  holds := by
    intro i v _ found
    cases found

theorem put (window : Window size start mem log taken) (room : log.length < taken + size) (v : α) :
    Window size start (Function.update mem ((start + log.length) % size) v) (log ++ [v]) taken where
  order := by
    rw [List.length_append]
    exact Nat.le_add_right_of_le window.order
  fits := by
    rw [List.length_append]
    exact room
  holds := by
    intro i w late found
    rcases Nat.lt_trichotomy i log.length with old | rfl | beyond
    · rw [Function.update_of_ne (offset_ne old (by omega))]
      rw [List.getElem?_append_left old] at found
      exact window.holds i w late found
    · rw [Function.update_self]
      simpa using found
    · have none : (log ++ [v])[i]? = none := by simpa using Nat.succ_le_of_lt beyond
      rw [none] at found
      cases found

theorem take (window : Window size start mem log taken) (more : taken < log.length) :
    log[taken]? = some (mem ((start + taken) % size)) ∧ Window size start mem log (taken + 1) := by
  have here : log[taken]? = some log[taken] := List.getElem?_eq_getElem more
  refine ⟨by rw [window.holds taken _ le_rfl here, here], more, ?_, ?_⟩
  · have fits := window.fits
    omega
  · intro i v late found
    exact window.holds i v (by omega) found

/-- What was put may be written over as long as it was not taken. -/
theorem set (window : Window size start mem log taken) {i : ℕ} (late : taken ≤ i)
    (inside : i < log.length) (v : α) :
    Window size start (Function.update mem ((start + i) % size) v) (log.set i v) taken where
  order := by
    rw [List.length_set]
    exact window.order
  fits := by
    rw [List.length_set]
    exact window.fits
  holds := by
    intro j w later found
    have fits := window.fits
    rcases Nat.lt_trichotomy i j with below | rfl | above
    · have bound : j < (log.set i v).length := (List.getElem?_eq_some_iff.mp found).1
      rw [List.length_set] at bound
      rw [Function.update_of_ne (offset_ne below (by omega)).symm]
      rw [List.getElem?_set_ne (by omega)] at found
      exact window.holds j w later found
    · rw [Function.update_self]
      rw [List.getElem?_set_self inside] at found
      exact Option.some.inj found
    · rw [Function.update_of_ne (offset_ne above (by omega))]
      rw [List.getElem?_set_ne (by omega)] at found
      exact window.holds j w later found

end Window

end Windows

end Slots

end LinuxSys.Lib
