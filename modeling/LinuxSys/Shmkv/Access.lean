import LinuxSys.Lib.Mapping
import LinuxSys.Shmkv.Map

/-! # The accesses of shmkv v0 to its mapping

The commands once more, now over the mapping: an offset is computed in 64 bits, and an access that
leaves the mapping has no result. On every file that `Store::open` accepts each of them has the
result that the store has, whatever the slots hold.
-/

namespace LinuxSys.Shmkv.V0

open Lib

namespace Mapped

def magic (map : Bytes) : Option Bytes := Mapping.load map 0 kMagic.length

def slotCount (map : Bytes) : Option ℕ := (Mapping.load map kMagic.length 4).map leValue

def openStore (path : Bytes) (calls : Calls) (map : Bytes) : Option (Except CliError Store) :=
  if calls = .unopened then some (.error (cannotOpen path))
  else if map.length < kHeaderSize then some (.error (notAStore path))
  else if calls = .unmapped then some (.error mmapFailed)
  else
    (magic map).bind fun found =>
      if found ≠ kMagic then some (.error (notAStore path))
      else
        (slotCount map).map fun slots =>
          if map.length ≠ (kHeaderSize + slots * kSlotSize) % 2 ^ 64 then .error (notAStore path)
          else .ok ⟨map, slots⟩

def slotOffset (i : ℕ) : ℕ := (kHeaderSize + i * kSlotSize) % 2 ^ 64

def field (map : Bytes) (p max : ℕ) : Option Bytes := (Mapping.load map p max).map (before 0)

def slotKey (map : Bytes) (i : ℕ) : Option Bytes := field map (slotOffset i) kKeyField

def slotValue (map : Bytes) (i : ℕ) : Option Bytes :=
  field map ((slotOffset i + kKeyField) % 2 ^ 64) kValueField

/-- The loop of `set`. -/
def probe (map : Bytes) (slots : ℕ) (key : Bytes) : ℕ → ℕ → ℕ → Option ℕ
  | 0, _, firstEmpty => some firstEmpty
  | left + 1, i, firstEmpty =>
    (slotKey map i).bind fun k =>
      if k = key then some i
      else probe map slots key left (i + 1) (if k = [] ∧ firstEmpty = slots then i else firstEmpty)

/-- The slot is cleared, then the key and the value are copied into it. -/
def set (map : Bytes) (slots : ℕ) (calls : Calls) (key value : Bytes) :
    Option (Except CliError Unit × Bytes) :=
  (probe map slots key slots 0 slots).bind fun target =>
    if target = slots then some (.error (storeFull slots), map)
    else
      (Mapping.store map (slotOffset target) (List.replicate kSlotSize 0)).bind fun cleared =>
        (Mapping.store cleared (slotOffset target) key).bind fun keyed =>
          (Mapping.store keyed ((slotOffset target + kKeyField) % 2 ^ 64) value).map fun data =>
            (if calls = .unsynced then .error msyncFailed else .ok (), data)

/-- The loop of `cmd_get`: the value of the first slot with the key. -/
def get (map : Bytes) (key : Bytes) : ℕ → ℕ → Option (Option Bytes)
  | 0, _ => some none
  | left + 1, i =>
    (slotKey map i).bind fun k =>
      if k = key then (slotValue map i).map some else get map key left (i + 1)

/-- The loop of `cmd_dump`. -/
def dump (map : Bytes) : ℕ → ℕ → Option (List (Bytes × Bytes))
  | 0, _ => some []
  | left + 1, i =>
    (slotKey map i).bind fun k =>
      if k = [] then dump map left (i + 1)
      else
        (slotValue map i).bind fun value =>
          (dump map left (i + 1)).map fun rest => (k, value) :: rest

end Mapped

/-- The file has the length that its header asks for. -/
structure WellFormed (file : Bytes) (slots : ℕ) : Prop where
  magic : file.take kMagic.length = kMagic
  count : leValue ((file.take kHeaderSize).drop kMagic.length) = slots
  length : file.length = kHeaderSize + slots * kSlotSize

/-- No access leaves the mapping, no text is longer than its field, and `set` stays in one slot. -/
structure Contained (file : Bytes) (slots : ℕ) : Prop where
  key : ∀ i < slots, Mapped.slotKey file i = some (Store.slotKey ⟨file, slots⟩ i) ∧
    (Store.slotKey ⟨file, slots⟩ i).length ≤ kKeyField
  value : ∀ i < slots, Mapped.slotValue file i = some (Store.slotValue ⟨file, slots⟩ i) ∧
    (Store.slotValue ⟨file, slots⟩ i).length ≤ kValueField
  get : ∀ key, Mapped.get file key slots 0 =
    some (((List.range slots).find? fun i => Store.slotKey ⟨file, slots⟩ i = key).map
      (Store.slotValue ⟨file, slots⟩))
  dump : Mapped.dump file slots 0 = some (Store.pairs ⟨file, slots⟩)
  set : ∀ calls key value, key.length ≤ kKeyMax → value.length ≤ kValueMax →
    Mapped.set file slots calls key value = some (Store.set ⟨file, slots⟩ calls key value)
  frame : ∀ calls key value, key.length ≤ kKeyMax → value.length ≤ kValueMax →
    (Store.set ⟨file, slots⟩ calls key value).2 = file ∨
      ∃ target < slots, ∀ i, (i < kHeaderSize + target * kSlotSize ∨
        kHeaderSize + target * kSlotSize + kSlotSize ≤ i) →
        (Store.set ⟨file, slots⟩ calls key value).2[i]? = file[i]?

theorem leValue_lt (bytes : Bytes) : leValue bytes < 256 ^ bytes.length := by
  induction bytes with
  | nil => decide
  | cons b rest ih =>
    have byte := b.toNat_lt
    rw [leValue, List.length_cons, pow_succ]
    omega

/-- The slot count of a header is a `uint32_t`. -/
theorem slotCount_lt (file : Bytes) :
    leValue ((file.take kHeaderSize).drop kMagic.length) < 2 ^ 32 := by
  have four : ((file.take kHeaderSize).drop kMagic.length).length ≤ 4 := by
    rw [List.length_drop, List.length_take]
    exact Nat.sub_le_of_le_add (Nat.min_le_left _ _)
  exact (leValue_lt _).trans_le (Nat.pow_le_pow_right (by decide) four)

variable {file : Bytes} {slots : ℕ}

namespace WellFormed

theorem slots_lt (formed : WellFormed file slots) : slots < 2 ^ 32 := by
  rw [← formed.count]
  exact slotCount_lt file

/-- The offsets of a store do not overflow. -/
theorem slotOffset_eq (formed : WellFormed file slots) {i : ℕ} (inside : i < slots) :
    Mapped.slotOffset i = kHeaderSize + i * kSlotSize := by
  have few := formed.slots_lt
  apply Nat.mod_eq_of_lt
  simp only [kHeaderSize, kSlotSize, kKeyField, kValueField]
  omega

theorem valueOffset_eq (formed : WellFormed file slots) {i : ℕ} (inside : i < slots) :
    (Mapped.slotOffset i + kKeyField) % 2 ^ 64 = kHeaderSize + i * kSlotSize + kKeyField := by
  have few := formed.slots_lt
  rw [formed.slotOffset_eq inside]
  apply Nat.mod_eq_of_lt
  simp only [kHeaderSize, kSlotSize, kKeyField, kValueField]
  omega

theorem slot_end_le (formed : WellFormed file slots) {i : ℕ} (inside : i < slots) :
    kHeaderSize + i * kSlotSize + kSlotSize ≤ file.length := by
  rw [formed.length]
  simp only [kHeaderSize, kSlotSize, kKeyField, kValueField]
  omega

theorem slotKey_eq (formed : WellFormed file slots) {i : ℕ} (inside : i < slots) :
    Mapped.slotKey file i = some (Store.slotKey ⟨file, slots⟩ i) := by
  have room := formed.slot_end_le inside
  have wide : kKeyField ≤ kSlotSize := by decide
  rw [Mapped.slotKey, Mapped.field, formed.slotOffset_eq inside, Mapping.load_eq_some (by omega),
    Option.map_some, Store.slotKey, Store.slot, Records.read, List.take_take, min_eq_left wide]

theorem slotValue_eq (formed : WellFormed file slots) {i : ℕ} (inside : i < slots) :
    Mapped.slotValue file i = some (Store.slotValue ⟨file, slots⟩ i) := by
  have room := formed.slot_end_le inside
  have whole : kKeyField + kValueField = kSlotSize := rfl
  rw [Mapped.slotValue, Mapped.field, formed.valueOffset_eq inside,
    Mapping.load_eq_some (by omega), Option.map_some,
    Store.slotValue, Store.slot, Records.read, List.drop_take, List.drop_drop]
  rfl

theorem length_slotKey_le (file : Bytes) (slots i : ℕ) :
    (Store.slotKey ⟨file, slots⟩ i).length ≤ kKeyField := by
  refine (length_before_le 0 _).trans ?_
  rw [List.length_take]
  exact Nat.min_le_left _ _

theorem length_slotValue_le (file : Bytes) (slots i : ℕ) :
    (Store.slotValue ⟨file, slots⟩ i).length ≤ kValueField := by
  refine (length_before_le 0 _).trans ?_
  have whole : kSlotSize = kValueField + kKeyField := rfl
  rw [List.length_drop, Store.slot, Records.read, List.length_take, Nat.sub_le_iff_le_add, whole]
  exact Nat.min_le_left _ _

theorem probe_eq (formed : WellFormed file slots) (key : Bytes) (left i firstEmpty : ℕ)
    (inside : i + left ≤ slots) : Mapped.probe file slots key left i firstEmpty =
      some (Store.probe ⟨file, slots⟩ key left i firstEmpty) := by
  induction left generalizing i firstEmpty with
  | zero => rfl
  | succ left ih =>
    rw [Mapped.probe, formed.slotKey_eq (by omega), Option.bind_some, Store.probe]
    split
    · rfl
    · exact ih _ _ (by omega)

theorem get_eq (formed : WellFormed file slots) (key : Bytes) (left i : ℕ)
    (inside : i + left ≤ slots) : Mapped.get file key left i =
      some (((List.range' i left).find? fun i => Store.slotKey ⟨file, slots⟩ i = key).map
        (Store.slotValue ⟨file, slots⟩)) := by
  induction left generalizing i with
  | zero => rfl
  | succ left ih =>
    rw [Mapped.get, formed.slotKey_eq (by omega), Option.bind_some, List.range'_succ,
      List.find?_cons]
    by_cases same : Store.slotKey ⟨file, slots⟩ i = key
    · rw [if_pos same, formed.slotValue_eq (by omega)]
      simp [same]
    · rw [if_neg same, ih (i + 1) (by omega)]
      simp [same]

theorem dump_eq (formed : WellFormed file slots) (left i : ℕ) (inside : i + left ≤ slots) :
    Mapped.dump file left i =
      some (((List.range' i left).filter fun i => Store.slotKey ⟨file, slots⟩ i ≠ []).map fun i =>
        (Store.slotKey ⟨file, slots⟩ i, Store.slotValue ⟨file, slots⟩ i)) := by
  induction left generalizing i with
  | zero => rfl
  | succ left ih =>
    rw [Mapped.dump, formed.slotKey_eq (by omega), Option.bind_some, ih (i + 1) (by omega),
      List.range'_succ, List.filter_cons]
    by_cases free : Store.slotKey ⟨file, slots⟩ i = []
    · simp [free]
    · rw [if_neg free, formed.slotValue_eq (by omega)]
      simp [free]

end WellFormed

/-- A cleared slot into which the key and the value are copied holds both, padded. -/
theorem store_padded {map key value : Bytes} {offset : ℕ}
    (room : offset + kSlotSize ≤ map.length) (short : key.length ≤ kKeyField)
    (few : value.length ≤ kValueField) :
    ((Mapping.store map offset (List.replicate kSlotSize 0)).bind fun cleared =>
      (Mapping.store cleared offset key).bind fun keyed =>
        Mapping.store keyed (offset + kKeyField) value) =
      Mapping.store map offset (padded kKeyField key ++ padded kValueField value) := by
  have whole : kSlotSize = kKeyField + kValueField := rfl
  have size : (padded kKeyField key ++ padded kValueField value).length = kSlotSize := by
    rw [List.length_append, padded_length short, padded_length few, whole]
  obtain ⟨cleared, zeros⟩ := @Mapping.exists_store _ map (List.replicate kSlotSize 0) offset
    (by rw [List.length_replicate]; exact room)
  have length := Mapping.length_of_store zeros
  obtain ⟨keyed, copied⟩ := @Mapping.exists_store _ cleared key offset (by omega)
  have length' := Mapping.length_of_store copied
  obtain ⟨data, filled⟩ := @Mapping.exists_store _ keyed value (offset + kKeyField) (by omega)
  obtain ⟨next, written⟩ := @Mapping.exists_store _ map
    (padded kKeyField key ++ padded kValueField value) offset (by omega)
  rw [zeros, Option.bind_some, copied, Option.bind_some, filled, written]
  refine congrArg some (List.ext_getElem? fun i => ?_)
  rw [Mapping.getElem?_of_store filled, Mapping.getElem?_of_store copied,
    Mapping.getElem?_of_store zeros, Mapping.getElem?_of_store written, size,
    List.length_replicate]
  by_cases inside : offset ≤ i ∧ i < offset + kSlotSize
  · have within : i - offset < kSlotSize := by omega
    rw [if_pos inside, if_pos inside, List.getElem?_replicate, if_pos within]
    by_cases front : i - offset < kKeyField
    · have before : ¬(offset + kKeyField ≤ i ∧ i < offset + kKeyField + value.length) := by omega
      rw [if_neg before, List.getElem?_append_left (by rw [padded_length short]; exact front),
        getElem?_padded key front]
      split_ifs <;> first | rfl | omega
    · have after : ¬(offset ≤ i ∧ i < offset + key.length) := by omega
      have position : i - (offset + kKeyField) = i - offset - kKeyField := by omega
      rw [if_neg after, List.getElem?_append_right (by rw [padded_length short]; omega),
        padded_length short, getElem?_padded value (by omega), position]
      split_ifs <;> first | rfl | omega
  · rw [if_neg (by omega), if_neg (by omega), if_neg inside, if_neg inside]

theorem probe_le (file key : Bytes) (slots : ℕ) :
    Store.probe ⟨file, slots⟩ key slots 0 slots ≤ slots := by
  have spec := Store.probe_spec ⟨file, slots⟩ key slots 0 slots (Nat.zero_add _) (by simp) (by simp)
  rcases spec with ⟨inside, _⟩ | ⟨_, ⟨full, _⟩ | ⟨inside, _⟩⟩
  · exact inside.le
  · exact full.le
  · exact inside.le

theorem set_record_length {key value : Bytes} (short : key.length ≤ kKeyField)
    (few : value.length ≤ kValueField) :
    (padded kKeyField key ++ padded kValueField value).length = kSlotSize := by
  rw [List.length_append, padded_length short, padded_length few]
  rfl

/-- The record that `set` writes stays inside the mapping. -/
theorem WellFormed.store_eq (formed : WellFormed file slots) {target : ℕ} (inside : target < slots)
    {record : Bytes} (size : record.length = kSlotSize) :
    Mapping.store file (kHeaderSize + target * kSlotSize) record =
      some (Records.write kHeaderSize kSlotSize file target record) := by
  have room := formed.slot_end_le inside
  rw [Mapping.store, size, if_pos room]
  rfl

theorem WellFormed.set_eq (formed : WellFormed file slots) (calls : Calls) {key value : Bytes}
    (short : key.length ≤ kKeyField) (few : value.length ≤ kValueField) :
    Mapped.set file slots calls key value = some (Store.set ⟨file, slots⟩ calls key value) := by
  rw [Mapped.set, formed.probe_eq key slots 0 slots (by omega), Option.bind_some, Store.set]
  split
  · rfl
  · rename_i found
    have inside := lt_of_le_of_ne (probe_le file key slots) found
    have room := formed.slot_end_le inside
    have written := formed.store_eq inside (set_record_length short few)
    have parts := (store_padded room short few).trans written
    simp only [Option.bind_eq_some_iff] at parts
    obtain ⟨cleared, zeros, keyed, copied, filled⟩ := parts
    rw [formed.valueOffset_eq inside, formed.slotOffset_eq inside, zeros, Option.bind_some, copied,
      Option.bind_some, filled]
    rfl

/-- Only the bytes of one slot change. -/
theorem WellFormed.set_frame (formed : WellFormed file slots) (calls : Calls) {key value : Bytes}
    (short : key.length ≤ kKeyField) (few : value.length ≤ kValueField) :
    (Store.set ⟨file, slots⟩ calls key value).2 = file ∨
      ∃ target < slots, ∀ i, (i < kHeaderSize + target * kSlotSize ∨
        kHeaderSize + target * kSlotSize + kSlotSize ≤ i) →
        (Store.set ⟨file, slots⟩ calls key value).2[i]? = file[i]? := by
  rw [Store.set]
  split
  · exact .inl rfl
  · rename_i found
    have inside := lt_of_le_of_ne (probe_le file key slots) found
    have size := set_record_length short few
    refine .inr ⟨_, inside, fun i outside => ?_⟩
    apply Mapping.getElem?_of_store_of_outside (formed.store_eq inside size)
    rw [size]
    exact outside

theorem WellFormed.contained (formed : WellFormed file slots) : Contained file slots where
  key i inside := ⟨formed.slotKey_eq inside, WellFormed.length_slotKey_le file slots i⟩
  value i inside := ⟨formed.slotValue_eq inside, WellFormed.length_slotValue_le file slots i⟩
  get key := by
    rw [formed.get_eq key slots 0 (by omega), List.range_eq_range']
  dump := by
    rw [formed.dump_eq slots 0 (by omega), Store.pairs, List.range_eq_range']
  set calls key value short few :=
    formed.set_eq calls (short.trans (by decide)) (few.trans (by decide))
  frame calls key value short few :=
    formed.set_frame calls (short.trans (by decide)) (few.trans (by decide))

theorem take_drop_header (file : Bytes) :
    (file.take kHeaderSize).drop kMagic.length = (file.drop kMagic.length).take 4 := by
  rw [List.drop_take]
  rfl

theorem slotCount_eq (long : kHeaderSize ≤ file.length) : Mapped.slotCount file =
    some (leValue ((file.take kHeaderSize).drop kMagic.length)) := by
  have ten : kMagic.length + 4 ≤ kHeaderSize := by decide
  rw [Mapped.slotCount, Mapping.load_eq_some (ten.trans long), Option.map_some, take_drop_header]

/-- The length that a header asks for does not overflow. -/
theorem storeLength_eq (file : Bytes) :
    (kHeaderSize + leValue ((file.take kHeaderSize).drop kMagic.length) * kSlotSize) % 2 ^ 64 =
      kHeaderSize + leValue ((file.take kHeaderSize).drop kMagic.length) * kSlotSize := by
  have few := slotCount_lt file
  apply Nat.mod_eq_of_lt
  simp only [kHeaderSize, kSlotSize, kKeyField, kValueField] at few ⊢
  omega

theorem openStore_eq (path : Bytes) (calls : Calls) (file : Bytes) :
    Mapped.openStore path calls file = some (Store.openStore path calls file) := by
  simp only [Mapped.openStore, Store.openStore]
  by_cases closed : calls = .unopened
  · rw [if_pos closed, if_pos closed]
  · rw [if_neg closed, if_neg closed]
    by_cases short : file.length < kHeaderSize
    · rw [if_pos short, if_pos short]
    · have long := not_lt.mp short
      have six : 0 + kMagic.length ≤ kHeaderSize := by decide
      rw [if_neg short, if_neg short, Mapped.magic, Mapping.load_eq_some (six.trans long),
        Option.bind_some, List.drop_zero, slotCount_eq long, Option.map_some, storeLength_eq]
      by_cases unmapped : calls = .unmapped
      · rw [if_pos unmapped, if_pos unmapped]
      · rw [if_neg unmapped, if_neg unmapped]
        split <;> rfl

/-- What `Store::open` accepts. -/
theorem openStore_eq_ok_iff {path : Bytes} {calls : Calls} {file : Bytes} {store : Store} :
    Store.openStore path calls file = .ok store ↔
      calls.Opened ∧ store.data = file ∧ WellFormed file store.slots := by
  simp only [Store.openStore]
  constructor
  · intro accepted
    split_ifs at accepted with closed short unmapped foreign uneven
    cases accepted
    exact ⟨⟨closed, unmapped⟩, rfl, not_not.mp foreign, rfl, not_not.mp uneven⟩
  · rintro ⟨⟨opened, mapped⟩, rfl, formed⟩
    have long : ¬store.data.length < kHeaderSize := by
      rw [formed.length]
      omega
    rw [if_neg opened, if_neg long, if_neg mapped, if_neg (not_not.mpr formed.magic), formed.count,
      if_neg (not_not.mpr formed.length)]

/-- `Store::open` accepts the well-formed files, and on these no access leaves the mapping. -/
theorem store_contained (path : Bytes) (calls : Calls) (file : Bytes) :
    Mapped.openStore path calls file = some (Store.openStore path calls file) ∧
      ∀ store, (Store.openStore path calls file = .ok store ↔
          calls.Opened ∧ store.data = file ∧ WellFormed file store.slots) ∧
        (Store.openStore path calls file = .ok store → Contained file store.slots) :=
  ⟨openStore_eq path calls file, fun _ => ⟨openStore_eq_ok_iff, fun accepted =>
    (openStore_eq_ok_iff.mp accepted).2.2.contained⟩⟩

end LinuxSys.Shmkv.V0
