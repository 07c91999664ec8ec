import LinuxSys.Lib.FiniteMap
import LinuxSys.Lib.Machine
import LinuxSys.Shmkv.Store

/-! # The store as a finite map

Slots are claimed from the front and never freed, so a file that `create` made and `cmd_set` wrote
holds its entries first and free slots behind them, every entry under its own key. Over this the
commands are those of a finite map with a capacity, up to what `cmd_get` does with the key that
marks a free slot and to the printing of strings.
-/

namespace LinuxSys.Shmkv.V0

open Lib

abbrev Entry := Bytes × Bytes

/-- An entry that a slot can hold. -/
structure Fits (e : Entry) : Prop where
  key : e.1 ≠ []
  keyLength : e.1.length ≤ kKeyMax
  valueLength : e.2.length ≤ kValueMax
  keyFresh : 0 ∉ e.1
  valueFresh : 0 ∉ e.2

def entryBytes (e : Entry) : Bytes := padded kKeyField e.1 ++ padded kValueField e.2

def freeSlot : Bytes := List.replicate kSlotSize 0

def slotsOf (slots : ℕ) (entries : List Entry) : List Bytes :=
  entries.map entryBytes ++ List.replicate (slots - entries.length) freeSlot

/-- A file that holds these entries in its first slots. -/
structure Holds (slots : Slots) (data : Bytes) (entries : List Entry) : Prop where
  data : data = header slots.1 ++ (slotsOf slots.1 entries).flatten
  fits : ∀ e ∈ entries, Fits e
  keys : (entries.map Prod.fst).Nodup
  size : entries.length ≤ slots.1

theorem header_length (slots : ℕ) : (header slots).length = kHeaderSize := rfl

theorem Fits.entryBytes_length {e : Entry} (fits : Fits e) :
    (entryBytes e).length = kSlotSize := by
  have keyMax : kKeyMax ≤ kKeyField := by decide
  have valueMax : kValueMax ≤ kValueField := by decide
  rw [entryBytes, List.length_append, padded_length (fits.keyLength.trans keyMax),
    padded_length (fits.valueLength.trans valueMax)]
  rfl

theorem Fits.key_entryBytes {e : Entry} (fits : Fits e) :
    before 0 ((entryBytes e).take kKeyField) = e.1 := by
  have keyMax : kKeyMax ≤ kKeyField := by decide
  rw [entryBytes, List.take_left' (padded_length (fits.keyLength.trans keyMax)),
    before_padded fits.keyFresh]

theorem Fits.value_entryBytes {e : Entry} (fits : Fits e) :
    before 0 ((entryBytes e).drop kKeyField) = e.2 := by
  have keyMax : kKeyMax ≤ kKeyField := by decide
  rw [entryBytes, List.drop_left' (padded_length (fits.keyLength.trans keyMax)),
    before_padded fits.valueFresh]

theorem before_replicate (n : ℕ) : before 0 (List.replicate n (0 : UInt8)) = [] := by
  cases n with
  | zero => rfl
  | succ n => exact before_append_cons List.not_mem_nil _

namespace Holds

variable {slots : Slots} {data : Bytes} {entries : List Entry}

theorem create : Holds slots (create slots) [] :=
  ⟨rfl, by simp, List.nodup_nil, Nat.zero_le _⟩

theorem slotsOf_length (holds : Holds slots data entries) :
    (slotsOf slots.1 entries).length = slots.1 := by
  have size := holds.size
  rw [slotsOf, List.length_append, List.length_map, List.length_replicate]
  omega

theorem sized (holds : Holds slots data entries) :
    ∀ r ∈ slotsOf slots.1 entries, r.length = kSlotSize := by
  intro r member
  rcases List.mem_append.mp member with used | free
  · obtain ⟨e, inside, rfl⟩ := List.mem_map.mp used
    exact (holds.fits e inside).entryBytes_length
  · rw [List.eq_of_mem_replicate free, freeSlot, List.length_replicate]

theorem openStore (holds : Holds slots data entries) (path : Bytes) {calls : Calls}
    (opened : calls ≠ .unopened) (mapped : calls ≠ .unmapped) :
    Store.openStore path calls data = .ok ⟨data, slots.1⟩ := by
  have length : data.length = kHeaderSize + slots.1 * kSlotSize := by
    rw [holds.data, List.length_append, header_length, Records.length_flatten holds.sized,
      holds.slotsOf_length]
  have magic : data.take kMagic.length = kMagic := by
    rw [holds.data, header, List.append_assoc, List.take_left]
  have front : data.take kHeaderSize = header slots.1 := by
    rw [holds.data, List.take_left' (header_length slots.1)]
  have count : leValue ((data.take kHeaderSize).drop kMagic.length) = slots.1 := by
    have bound := slots.2.2
    rw [front, header, List.drop_left, leValue_le32 (by omega)]
  rw [Store.openStore, if_neg opened, if_neg (by omega), if_neg mapped,
    if_neg (not_not_intro magic)]
  simp only [count]
  rw [if_neg (not_not_intro length)]

/-- Slot `i` holds entry `i`, or is free. -/
theorem slot (holds : Holds slots data entries) {i : ℕ} (inside : i < slots.1) :
    Store.slot ⟨data, slots.1⟩ i = (entries[i]?.map entryBytes).getD freeSlot := by
  have bound : i < (slotsOf slots.1 entries).length := by
    rw [holds.slotsOf_length]
    exact inside
  have here : Store.slot ⟨data, slots.1⟩ i = (slotsOf slots.1 entries)[i] := by
    rw [Store.slot, holds.data]
    exact Records.read_flatten (header_length slots.1) holds.sized bound
  rw [here, List.getElem_eq_iff, slotsOf]
  rcases Nat.lt_or_ge i entries.length with used | free
  · rw [List.getElem?_append_left (by rwa [List.length_map]), List.getElem?_map,
      List.getElem?_eq_getElem used]
    rfl
  · rw [List.getElem?_append_right (by rwa [List.length_map]), List.length_map,
      List.getElem?_replicate, if_pos (by omega), List.getElem?_eq_none free]
    rfl

theorem slotKey (holds : Holds slots data entries) {i : ℕ} (inside : i < slots.1) :
    Store.slotKey ⟨data, slots.1⟩ i = (entries[i]?.map Prod.fst).getD [] := by
  rw [Store.slotKey, holds.slot inside]
  cases entry : entries[i]? with
  | none => exact before_replicate 64
  | some e => exact (holds.fits e (List.mem_of_getElem? entry)).key_entryBytes

theorem slotValue (holds : Holds slots data entries) {i : ℕ} (inside : i < slots.1) :
    Store.slotValue ⟨data, slots.1⟩ i = (entries[i]?.map Prod.snd).getD [] := by
  rw [Store.slotValue, holds.slot inside]
  cases entry : entries[i]? with
  | none => exact before_replicate 192
  | some e => exact (holds.fits e (List.mem_of_getElem? entry)).value_entryBytes

/-- Only a free slot has the empty key. -/
theorem slotKey_eq_nil_iff (holds : Holds slots data entries) {i : ℕ} (inside : i < slots.1) :
    Store.slotKey ⟨data, slots.1⟩ i = [] ↔ entries.length ≤ i := by
  rw [holds.slotKey inside]
  rcases Nat.lt_or_ge i entries.length with used | free
  · rw [List.getElem?_eq_getElem used]
    have key := (holds.fits _ (List.getElem_mem used)).key
    exact ⟨fun empty => absurd empty key, fun free => by omega⟩
  · rw [List.getElem?_eq_none free]
    exact ⟨fun _ => free, fun _ => rfl⟩

theorem set_used (holds : Holds slots data entries) {i : ℕ} (used : i < entries.length)
    {value : Bytes} (fits : Fits (entries[i].1, value)) :
    Holds slots (Records.write kHeaderSize kSlotSize data i (entryBytes (entries[i].1, value)))
      (entries.set i (entries[i].1, value)) := by
  have bound : i < (slotsOf slots.1 entries).length := by
    rw [holds.slotsOf_length]
    exact lt_of_lt_of_le used holds.size
  constructor
  · have replaced : (slotsOf slots.1 entries).set i (entryBytes (entries[i].1, value)) =
        slotsOf slots.1 (entries.set i (entries[i].1, value)) := by
      rw [slotsOf, List.set_append_left _ _ (by rwa [List.length_map]), ← List.map_set, slotsOf,
        List.length_set]
    rw [holds.data, Records.write_flatten (header_length slots.1) holds.sized bound, replaced]
  · intro e member
    rcases List.mem_or_eq_of_mem_set member with old | rfl
    · exact holds.fits e old
    · exact fits
  · have same : (entries.set i (entries[i].1, value)).map Prod.fst = entries.map Prod.fst := by
      have key : (entries.map Prod.fst).get ⟨i, by rwa [List.length_map]⟩ = entries[i].1 := by simp
      rw [List.map_set, ← key]
      apply List.set_getElem_self
    rw [same]
    exact holds.keys
  · rw [List.length_set]
    exact holds.size

theorem set_free (holds : Holds slots data entries) {e : Entry} (fits : Fits e)
    (room : entries.length < slots.1) (absent : ∀ f ∈ entries, f.1 ≠ e.1) :
    Holds slots (Records.write kHeaderSize kSlotSize data entries.length (entryBytes e))
      (entries ++ [e]) := by
  have bound : entries.length < (slotsOf slots.1 entries).length := by
    rw [holds.slotsOf_length]
    exact room
  constructor
  · obtain ⟨more, count⟩ : ∃ more, slots.1 - entries.length = more + 1 :=
      ⟨slots.1 - entries.length - 1, by omega⟩
    have left : slots.1 - (entries ++ [e]).length = more := by
      rw [List.length_append, List.length_singleton]
      omega
    have replaced : (slotsOf slots.1 entries).set entries.length (entryBytes e) =
        slotsOf slots.1 (entries ++ [e]) := by
      rw [slotsOf, List.set_append_right _ _ (by rw [List.length_map]), List.length_map,
        Nat.sub_self, count, List.replicate_succ, List.set_cons_zero, slotsOf, left,
        List.map_append, List.append_assoc]
      rfl
    rw [holds.data, Records.write_flatten (header_length slots.1) holds.sized bound, replaced]
  · intro f member
    rcases List.mem_append.mp member with old | new
    · exact holds.fits f old
    · rw [List.mem_singleton.mp new]
      exact fits
  · rw [List.map_append, List.map_singleton]
    refine List.nodup_append.mpr ⟨holds.keys, List.nodup_singleton _, ?_⟩
    intro key old other new
    obtain ⟨f, member, rfl⟩ := List.mem_map.mp old
    rw [List.mem_singleton.mp new]
    exact absent f member
  · rw [List.length_append, List.length_singleton]
    omega

/-- Two entries with one key are the same. -/
theorem eq_of_key (holds : Holds slots data entries) {i j : ℕ} (first : i < entries.length)
    (second : j < entries.length) (same : entries[i].1 = entries[j].1) : i = j := by
  have distinct := holds.keys
  rw [List.Nodup, List.pairwise_iff_getElem] at distinct
  by_contra different
  rcases Nat.lt_or_gt_of_ne different with less | greater
  · apply distinct i j (by simpa using first) (by simpa using second) less
    simpa using same
  · apply distinct j i (by simpa using second) (by simpa using first) greater
    simpa using same.symm

end Holds

/-- What the loop of `set` finds. -/
theorem Store.probe_spec (s : Store) (key : Bytes) (left i firstEmpty : ℕ)
    (count : i + left = s.slots) (passed : ∀ j < i, s.slotKey j ≠ key)
    (first : firstEmpty = s.slots ∧ (∀ j < i, s.slotKey j ≠ []) ∨
      firstEmpty < i ∧ s.slotKey firstEmpty = [] ∧ ∀ j < firstEmpty, s.slotKey j ≠ []) :
    (s.probe key left i firstEmpty < s.slots ∧ s.slotKey (s.probe key left i firstEmpty) = key) ∨
      (∀ j < s.slots, s.slotKey j ≠ key) ∧
        (s.probe key left i firstEmpty = s.slots ∧ (∀ j < s.slots, s.slotKey j ≠ []) ∨
          s.probe key left i firstEmpty < s.slots ∧
            s.slotKey (s.probe key left i firstEmpty) = [] ∧
            ∀ j < s.probe key left i firstEmpty, s.slotKey j ≠ []) := by
  induction left generalizing i firstEmpty with
  | zero =>
    obtain rfl : i = s.slots := by omega
    refine .inr ⟨passed, ?_⟩
    rcases first with ⟨none, all⟩ | ⟨found, empty, least⟩
    · exact .inl ⟨none, all⟩
    · exact .inr ⟨found, empty, least⟩
  | succ left ih =>
    rw [Store.probe]
    by_cases here : s.slotKey i = key
    · rw [if_pos here]
      exact .inl ⟨by omega, here⟩
    · rw [if_neg here]
      have further : ∀ j < i + 1, s.slotKey j ≠ key := by
        intro j before
        rcases Nat.lt_succ_iff_lt_or_eq.mp before with earlier | rfl
        · exact passed j earlier
        · exact here
      refine ih _ _ (by omega) further ?_
      split
      · next empty =>
        obtain ⟨empty, none⟩ := empty
        refine .inr ⟨by omega, empty, ?_⟩
        rcases first with ⟨-, all⟩ | ⟨found, -⟩
        · exact all
        · omega
      · next other =>
        rcases first with ⟨none, all⟩ | ⟨found, empty, least⟩
        · refine .inl ⟨none, fun j before => ?_⟩
          rcases Nat.lt_succ_iff_lt_or_eq.mp before with earlier | rfl
          · exact all j earlier
          · exact fun empty => other ⟨empty, none⟩
        · exact .inr ⟨by omega, empty, least⟩

namespace Holds

variable {slots : Slots} {data : Bytes} {entries : List Entry}

/-- The slot that `set` writes: that of the key, or the first free one, or none. -/
theorem probe (holds : Holds slots data entries) {key : Bytes} (named : key ≠ []) :
    (∃ i, ∃ used : i < entries.length,
      Store.probe ⟨data, slots.1⟩ key slots.1 0 slots.1 = i ∧ entries[i].1 = key) ∨
    (∀ e ∈ entries, e.1 ≠ key) ∧
      Store.probe ⟨data, slots.1⟩ key slots.1 0 slots.1 = entries.length := by
  have size := holds.size
  have spec := Store.probe_spec ⟨data, slots.1⟩ key slots.1 0 slots.1 (Nat.zero_add _) (by simp)
    (.inl ⟨rfl, by simp⟩)
  generalize Store.probe ⟨data, slots.1⟩ key slots.1 0 slots.1 = t at spec
  rcases spec with ⟨inside, found⟩ | ⟨absent, place⟩
  · have used : t < entries.length := by
      by_contra free
      rw [(holds.slotKey_eq_nil_iff inside).mpr (by omega)] at found
      exact named found.symm
    rw [holds.slotKey inside, List.getElem?_eq_getElem used] at found
    exact .inl ⟨t, used, rfl, found⟩
  · refine .inr ⟨?_, ?_⟩
    · intro e member
      obtain ⟨j, used, rfl⟩ := List.mem_iff_getElem.mp member
      have other := absent j (lt_of_lt_of_le used size)
      rwa [holds.slotKey (lt_of_lt_of_le used size), List.getElem?_eq_getElem used] at other
    · rcases place with ⟨rfl, all⟩ | ⟨inside, empty, least⟩
      · by_contra room
        have inside : entries.length < slots.1 := lt_of_le_of_ne size (Ne.symm room)
        exact all entries.length inside ((holds.slotKey_eq_nil_iff inside).mpr le_rfl)
      · have free := (holds.slotKey_eq_nil_iff inside).mp empty
        by_contra other
        have less : entries.length < t := lt_of_le_of_ne free (Ne.symm other)
        exact least entries.length less
          ((holds.slotKey_eq_nil_iff (less.trans inside)).mpr le_rfl)

/-- The slot that `cmd_get` prints. -/
theorem find_slot (holds : Holds slots data entries) {key : Bytes} (named : key ≠ []) :
    ((List.range slots.1).find? fun i => Store.slotKey ⟨data, slots.1⟩ i = key) =
      entries.findIdx? fun e => e.1 = key := by
  have size := holds.size
  cases found : entries.findIdx? fun e => e.1 = key with
  | none =>
    rw [List.findIdx?_eq_none_iff] at found
    rw [List.find?_eq_none]
    intro i member same
    have inside := List.mem_range.mp member
    rw [holds.slotKey inside, decide_eq_true_eq] at same
    cases entry : entries[i]? with
    | none =>
      rw [entry] at same
      exact named same.symm
    | some e =>
      rw [entry] at same
      have other := found e (List.mem_of_getElem? entry)
      exact absurd same (by simpa using other)
  | some i =>
    obtain ⟨used, same, least⟩ := List.findIdx?_eq_some_iff_getElem.mp found
    rw [List.find?_range_eq_some]
    refine ⟨?_, List.mem_range.mpr (lt_of_lt_of_le used size), fun j before => ?_⟩
    · rw [holds.slotKey (lt_of_lt_of_le used size), List.getElem?_eq_getElem used]
      simpa using same
    · have inside := before.trans used
      rw [holds.slotKey (lt_of_lt_of_le inside size), List.getElem?_eq_getElem inside]
      simpa using least j before

/-- The pairs that `cmd_dump` collects. -/
theorem pairs (holds : Holds slots data entries) : Store.pairs ⟨data, slots.1⟩ = entries := by
  have size := holds.size
  obtain ⟨free, count⟩ : ∃ free, slots.1 = entries.length + free := Nat.exists_eq_add_of_le size
  have used : (List.range entries.length).filter
      (fun i => Store.slotKey ⟨data, slots.1⟩ i ≠ []) = List.range entries.length := by
    rw [List.filter_eq_self]
    intro i member
    have inside := List.mem_range.mp member
    have taken : ¬ Store.slotKey ⟨data, slots.1⟩ i = [] := fun empty =>
      absurd ((holds.slotKey_eq_nil_iff (inside.trans_le size)).mp empty) (by omega)
    simpa using taken
  have unused : ((List.range free).map (entries.length + ·)).filter
      (fun i => Store.slotKey ⟨data, slots.1⟩ i ≠ []) = [] := by
    rw [List.filter_eq_nil_iff]
    intro i member
    obtain ⟨j, inside, rfl⟩ := List.mem_map.mp member
    have bound := List.mem_range.mp inside
    have empty := (holds.slotKey_eq_nil_iff (i := entries.length + j) (by omega)).mpr (by omega)
    simpa using empty
  have split : List.range slots.1 =
      List.range entries.length ++ (List.range free).map (entries.length + ·) := by
    rw [count, List.range_add]
  rw [Store.pairs]
  simp only
  rw [split, List.filter_append, used, unused, List.append_nil]
  apply List.ext_getElem
  · rw [List.length_map, List.length_range]
  · intro i _ inside
    rw [List.getElem_map, List.getElem_range, holds.slotKey (inside.trans_le size),
      holds.slotValue (inside.trans_le size), List.getElem?_eq_getElem inside]
    rfl

/-- `set` on a store: it is full, or the file holds the new value afterwards. -/
theorem set_effect (holds : Holds slots data entries) (calls : Calls) {key value : Bytes}
    (fits : Fits (key, value)) :
    ((∀ e ∈ entries, e.1 ≠ key) ∧ entries.length = slots.1 ∧
      Store.set ⟨data, slots.1⟩ calls key value = (.error (storeFull slots.1), data)) ∨
    ((∃ e ∈ entries, e.1 = key) ∨ entries.length < slots.1) ∧ ∃ file after,
      Holds slots file after ∧
      (∀ e, e ∈ after ↔ if e.1 = key then e.2 = value else e ∈ entries) ∧
      Store.set ⟨data, slots.1⟩ calls key value =
        (if calls = .unsynced then .error msyncFailed else .ok (), file) := by
  have size := holds.size
  have named : key ≠ [] := fits.key
  rcases holds.probe named with ⟨i, used, place, rfl⟩ | ⟨absent, place⟩
  · refine .inr ⟨.inl ⟨_, List.getElem_mem used, rfl⟩, _, _, holds.set_used used fits, ?_, ?_⟩
    · intro e
      split
      · next same =>
        constructor
        · intro member
          obtain ⟨j, inside, rfl⟩ := List.mem_iff_getElem.mp member
          rw [List.length_set] at inside
          rw [List.getElem_set] at same ⊢
          split at same
          · next here => rw [if_pos here]
          · next elsewhere => exact absurd (holds.eq_of_key used inside same.symm) elsewhere
        · rintro rfl
          have whole : e = (entries[i].1, e.2) := Prod.ext same rfl
          rw [whole]
          exact List.mem_set used _
      · next other =>
        constructor
        · intro member
          rcases List.mem_or_eq_of_mem_set member with old | rfl
          · exact old
          · exact absurd rfl other
        · intro member
          obtain ⟨j, inside, rfl⟩ := List.mem_iff_getElem.mp member
          have elsewhere : i ≠ j := by
            rintro rfl
            exact other rfl
          refine List.mem_iff_getElem.mpr ⟨j, by rwa [List.length_set], ?_⟩
          exact List.getElem_set_ne elsewhere _
    · have free : Store.probe ⟨data, slots.1⟩ entries[i].1 slots.1 0 slots.1 ≠ slots.1 := by omega
      rw [Store.set]
      simp only
      rw [if_neg free, place]
      rfl
  · rcases Nat.lt_or_ge entries.length slots.1 with room | full
    · refine .inr ⟨.inr room, _, _, holds.set_free fits room absent, ?_, ?_⟩
      · intro e
        rw [List.mem_append, List.mem_singleton]
        split
        · next same =>
          constructor
          · rintro (old | rfl)
            · exact absurd same (absent e old)
            · rfl
          · rintro rfl
            exact .inr (Prod.ext same rfl)
        · next other =>
          refine or_iff_left ?_
          rintro rfl
          exact other rfl
      · rw [Store.set]
        simp only
        rw [if_neg (by omega), place]
        rfl
    · refine .inl ⟨absent, by omega, ?_⟩
      rw [Store.set]
      simp only
      rw [if_pos (by omega)]

end Holds

end LinuxSys.Shmkv.V0
