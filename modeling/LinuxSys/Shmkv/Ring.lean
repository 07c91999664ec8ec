import LinuxSys.Shmkv.Seqlock

/-! # The ring of slots of shmkv v1

Update `id` goes to slot `(id - 1) % 8`, so a slot holds the last update that went there: reading
the slot of an id after `k` updates gives that id only while `k` is less than eight ahead.
-/

namespace LinuxSys.Shmkv

open Lib

/-- Where the slot of an update begins. -/
def slotAt (id : ℕ) : ℕ := ((id - 1) % kSlotCount) * kSlotSize

def cellAt (i : ℕ) : Cell := .slots (Fin.ofNat 512 i)

def byteAt (c : Contents) (i : ℕ) : UInt8 := c (.slots (Fin.ofNat 512 i))

def memcpy : ℕ → Bytes → List (Sigma Cell.Value)
  | _, [] => []
  | i, b :: rest => ⟨cellAt i, b⟩ :: memcpy (i + 1) rest

def writeSlot (id : ℕ) (key val : Bytes) : List (Sigma Cell.Value) :=
  memcpy (slotAt id) (List.replicate kSlotSize 0) ++
    memcpy (slotAt id) (key.take (kKeySize - 1)) ++
    memcpy (slotAt id + kKeySize) (val.take (kValSize - 1))

/-- `k<id>` -/
def keyOf (id : ℕ) : Bytes := 0x6B :: decimal id

/-- `value-<id>` -/
def valOf (id : ℕ) : Bytes := [0x76, 0x61, 0x6C, 0x75, 0x65, 0x2D] ++ decimal id

/-- What `serve` stores under the lock after `k` updates. -/
def publish (k : ℕ) : List (Sigma Cell.Value) :=
  writeSlot (k + 1) (keyOf (k + 1)) (valOf (k + 1)) ++ [⟨.counter, UInt64.ofNat (k + 1)⟩]

/-- The text up to the first NUL; Rust makes a string of it. -/
def cstr (lang : Language) (text : Bytes) : Bytes :=
  match lang with
  | .rust => Utf8.lossy (before 0 text)
  | _ => before 0 text

def slot (c : Contents) (id : ℕ) : Bytes :=
  (List.range kSlotSize).map fun i => byteAt c (slotAt id + i)

def readSlot (lang : Language) (c : Contents) (id : ℕ) : Bytes × Bytes :=
  (cstr lang ((slot c id).take kKeySize), cstr lang ((slot c id).drop kKeySize))

theorem slotAt_le (id : ℕ) : slotAt id + 64 ≤ 512 := by
  have bound : (id - 1) % 8 < 8 := Nat.mod_lt _ (by omega)
  simp only [slotAt, kSlotCount, kSlotSize]
  omega

theorem byteAt_update {i j : ℕ} (c : Contents) (b : UInt8) (first : i < 512) (second : j < 512) :
    byteAt (Function.update c (cellAt i) b) j = if j = i then b else byteAt c j := by
  split
  · next same =>
    subst same
    exact Function.update_self ..
  · next different =>
    apply Function.update_of_ne
    simp only [cellAt, ne_eq, Cell.slots.injEq, Fin.ext_iff, Fin.ofNat]
    omega

theorem byteAt_memcpy {i j : ℕ} (c : Contents) {text : Bytes} (fits : i + text.length ≤ 512)
    (small : j < 512) : byteAt (Seqlock.stored c (memcpy i text)) j =
      if i ≤ j ∧ j < i + text.length then text.getD (j - i) 0 else byteAt c j := by
  induction text generalizing i c with
  | nil =>
    rw [if_neg (by simp)]
    rfl
  | cons b rest ih =>
    rw [List.length_cons] at fits
    rw [memcpy, Seqlock.stored, ih _ (by omega), byteAt_update c b (by omega) small]
    rcases Nat.lt_trichotomy j i with below | same | above
    · rw [if_neg (by omega), if_neg (by omega), if_neg (by omega)]
    · subst same
      rw [if_neg (by omega), if_pos rfl, if_pos (by simp), Nat.sub_self, List.getD_cons_zero]
    · obtain ⟨d, rfl⟩ : ∃ d, j = i + 1 + d := ⟨j - (i + 1), by omega⟩
      have near : i + 1 + d - i = d + 1 := by omega
      have next : i + 1 + d - (i + 1) = d := by omega
      rw [near, next, List.getD_cons_succ, List.length_cons]
      by_cases inside : d < rest.length
      · rw [if_pos (by omega), if_pos (by omega)]
      · rw [if_neg (by omega), if_neg (by omega), if_neg (by omega)]

/-- A slot as it is after its update. -/
def slotBytes (key val : Bytes) : Bytes :=
  padded kKeySize (key.take (kKeySize - 1)) ++ padded kValSize (val.take (kValSize - 1))

theorem slotBytes_length (key val : Bytes) : (slotBytes key val).length = kSlotSize := by
  rw [slotBytes, List.length_append, padded_length, padded_length]
  · rfl
  · exact (List.length_take_le _ _).trans (by decide)
  · exact (List.length_take_le _ _).trans (by decide)

theorem slotBytes_getD (key val : Bytes) (i : ℕ) : (slotBytes key val).getD i 0 =
    if i < kKeySize then (key.take (kKeySize - 1)).getD i 0
    else (val.take (kValSize - 1)).getD (i - kKeySize) 0 := by
  have size : (padded kKeySize (key.take (kKeySize - 1))).length = kKeySize :=
    padded_length ((List.length_take_le _ _).trans (by decide))
  split
  · next inside =>
    rw [slotBytes, List.getD_append _ _ _ _ (by omega), padded_getD]
  · next outside =>
    rw [slotBytes, List.getD_append_right _ _ _ _ (by omega), size, padded_getD]

theorem slot_ext {c : Contents} {id : ℕ} {text : Bytes} (size : text.length = kSlotSize)
    (bytes : ∀ i < kSlotSize, byteAt c (slotAt id + i) = text.getD i 0) : slot c id = text := by
  apply List.ext_getElem
  · rw [slot, List.length_map, List.length_range, size]
  · intro i first second
    have read : (slot c id)[i] = byteAt c (slotAt id + i) := by
      simp only [slot, List.getElem_map, List.getElem_range]
    rw [read, bytes i (by omega), List.getD_eq_getElem _ _ second]

theorem byteAt_writeSlot (c : Contents) (key val : Bytes) {id j : ℕ} (small : j < 512) :
    byteAt (Seqlock.stored c (writeSlot id key val)) j =
      if slotAt id ≤ j ∧ j < slotAt id + kSlotSize then (slotBytes key val).getD (j - slotAt id) 0
      else byteAt c j := by
  have fits := slotAt_le id
  have keyFits := List.length_take_le (kKeySize - 1) key
  have valFits := List.length_take_le (kValSize - 1) val
  have keySize : kKeySize = 24 := rfl
  have valSize : kValSize = 40 := rfl
  have slotSize : kSlotSize = 64 := rfl
  rw [slotBytes_getD, writeSlot, Seqlock.stored_append, Seqlock.stored_append,
    byteAt_memcpy _ (by omega) small, byteAt_memcpy _ (by omega) small,
    byteAt_memcpy _ (by rw [List.length_replicate]; omega) small, List.length_replicate]
  by_cases inside : slotAt id ≤ j ∧ j < slotAt id + kSlotSize
  · rw [if_pos inside, if_pos inside]
    by_cases inKey : j - slotAt id < kKeySize
    · rw [if_pos inKey, if_neg (by omega)]
      split
      · rfl
      · rw [List.getD_eq_default (key.take (kKeySize - 1)) _ (by omega),
          List.getD_replicate 0 (by omega)]
    · rw [if_neg inKey, Nat.sub_sub]
      split
      · rfl
      · rw [if_neg (by omega), List.getD_eq_default (val.take (kValSize - 1)) _ (by omega),
          List.getD_replicate 0 (by omega)]
  · rw [if_neg inside, if_neg inside, if_neg (by omega), if_neg (by omega)]

theorem slot_writeSlot_same (c : Contents) (key val : Bytes) (id : ℕ) :
    slot (Seqlock.stored c (writeSlot id key val)) id = slotBytes key val := by
  have fits := slotAt_le id
  have slotSize : kSlotSize = 64 := rfl
  apply slot_ext (slotBytes_length key val)
  intro i inside
  rw [byteAt_writeSlot c key val (by omega), if_pos (by omega), Nat.add_sub_cancel_left]

theorem slot_writeSlot_other (c : Contents) (key val : Bytes) {id other : ℕ}
    (different : (other - 1) % kSlotCount ≠ (id - 1) % kSlotCount) :
    slot (Seqlock.stored c (writeSlot id key val)) other = slot c other := by
  have fits := slotAt_le other
  have slotSize : kSlotSize = 64 := rfl
  have apart : slotAt other + 64 ≤ slotAt id ∨ slotAt id + 64 ≤ slotAt other := by
    simp only [slotAt, slotSize]
    omega
  apply List.map_congr_left
  intro i inside
  rw [List.mem_range] at inside
  rw [byteAt_writeSlot c key val (by omega), if_neg (by omega)]

theorem slot_update_counter (c : Contents) (n : UInt64) (id : ℕ) :
    slot (Function.update c .counter n) id = slot c id := by
  apply List.map_congr_left
  intro i inside
  exact Function.update_of_ne Cell.noConfusion _ _

/-- What the file holds after `k` updates of `serve`. -/
def published (k : ℕ) : Contents := Seqlock.contents publish zeroed k

theorem published_succ (k : ℕ) : published (k + 1) = Function.update
    (Seqlock.stored (published k) (writeSlot (k + 1) (keyOf (k + 1)) (valOf (k + 1)))) .counter
    (UInt64.ofNat (k + 1)) := by
  rw [published, Seqlock.contents, publish, Seqlock.stored_append]
  rfl

theorem published_counter (k : ℕ) : published k .counter = UInt64.ofNat k := by
  cases k with
  | zero => rfl
  | succ k =>
    rw [published_succ]
    exact Function.update_self ..

/-- The slot of an id holds that update until eight more have come. -/
theorem slot_published {k id : ℕ} (positive : 0 < id) (reached : id ≤ k) (fresh : k < id + 8) :
    slot (published k) id = slotBytes (keyOf id) (valOf id) := by
  induction k with
  | zero => omega
  | succ k ih =>
    rw [published_succ, slot_update_counter]
    rcases Nat.lt_or_ge k id with last | earlier
    · obtain rfl : id = k + 1 := by omega
      exact slot_writeSlot_same ..
    · have different : (id - 1) % kSlotCount ≠ (k + 1 - 1) % kSlotCount := by
        simp only [kSlotCount]
        omega
      rw [slot_writeSlot_other _ _ _ different]
      exact ih earlier (by omega)

/-- The slot of an id holds the last update that went to it. -/
theorem slot_published_last {k id : ℕ} (positive : 0 < id) (reached : id ≤ k) :
    slot (published k) id =
      slotBytes (keyOf (id + 8 * ((k - id) / 8))) (valOf (id + 8 * ((k - id) / 8))) := by
  have same : slot (published k) id = slot (published k) (id + 8 * ((k - id) / 8)) := by
    have place : (id - 1) % kSlotCount = (id + 8 * ((k - id) / 8) - 1) % kSlotCount := by
      simp only [kSlotCount]
      omega
    rw [slot, slot, slotAt, slotAt, place]
  rw [same, slot_published (by omega) (by omega) (by omega)]

theorem ascii_of_isDigit {b : UInt8} (digit : isDigit b) : b ≤ 0x7F ∧ b ≠ 0 := by
  rw [isDigit_iff] at digit
  refine ⟨?_, ?_⟩
  · rw [UInt8.le_iff_toNat_le]
    change b.toNat ≤ 127
    omega
  · rintro rfl
    simp at digit

theorem ascii_of_mem_keyOf {id : ℕ} {b : UInt8} (member : b ∈ keyOf id) : b ≤ 0x7F ∧ b ≠ 0 := by
  rcases List.mem_cons.mp member with rfl | inside
  · decide
  · exact ascii_of_isDigit (isDigit_of_mem_decimal inside)

theorem ascii_of_mem_valOf {id : ℕ} {b : UInt8} (member : b ∈ valOf id) : b ≤ 0x7F ∧ b ≠ 0 := by
  rcases List.mem_append.mp member with front | inside
  · simp only [List.mem_cons, List.not_mem_nil, or_false] at front
    rcases front with rfl | rfl | rfl | rfl | rfl | rfl <;> decide
  · exact ascii_of_isDigit (isDigit_of_mem_decimal inside)

theorem cstr_padded (lang : Language) (size : ℕ) {text : Bytes} (ascii : ∀ b ∈ text, b ≤ 0x7F ∧ b ≠ 0) :
    cstr lang (padded size text) = text := by
  have fresh : (0 : UInt8) ∉ text := fun member => (ascii 0 member).2 rfl
  have valid : Utf8.Valid text := Utf8.valid_of_ascii fun b member => (ascii b member).1
  cases lang with
  | cpp => exact before_padded fresh
  | rust => exact (congrArg Utf8.lossy (before_padded fresh)).trans (Utf8.lossy_of_valid valid)
  | go => exact before_padded fresh

theorem keyOf_length {id : ℕ} (bound : id < 10 ^ 8) : (keyOf id).length ≤ kKeySize - 1 := by
  have digits := decimal_length_le bound (by omega)
  rw [keyOf, List.length_cons]
  change _ ≤ 23
  omega

theorem valOf_length {id : ℕ} (bound : id < 10 ^ 8) : (valOf id).length ≤ kValSize - 1 := by
  have digits := decimal_length_le bound (by omega)
  rw [valOf, List.length_append]
  change 6 + _ ≤ 39
  omega

/-- Reading the slot of an id after `k` updates gives the last update that went there. -/
theorem readSlot_published (lang : Language) {k id : ℕ} (positive : 0 < id) (reached : id ≤ k)
    (bound : k < 10 ^ 8) : readSlot lang (published k) id =
      (keyOf (id + 8 * ((k - id) / 8)), valOf (id + 8 * ((k - id) / 8))) := by
  have small : id + 8 * ((k - id) / 8) < 10 ^ 8 := by omega
  have keyFits := keyOf_length small
  have size : (padded kKeySize (keyOf (id + 8 * ((k - id) / 8)))).length = kKeySize :=
    padded_length (keyFits.trans (by decide))
  rw [readSlot, slot_published_last positive reached, slotBytes, List.take_of_length_le keyFits,
    List.take_of_length_le (valOf_length small), List.take_left' size, List.drop_left' size,
    cstr_padded lang _ fun _ => ascii_of_mem_keyOf, cstr_padded lang _ fun _ => ascii_of_mem_valOf]

theorem keyOf_injective {m n : ℕ} (same : keyOf m = keyOf n) : m = n :=
  decimal_injective (List.cons.inj same).2

end LinuxSys.Shmkv
