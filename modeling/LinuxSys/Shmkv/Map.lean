import LinuxSys.Shmkv.Refine

/-! # The commands against a map

One command after another runs on the file of `cmd_create`, from any of the three programs. Beside
the file stands the map of what the successful sets said. A command refines the map when it replies
what the map says and leaves the file as the map then says. `cmd_get` of the empty key finds a free
slot, an `msync` that fails leaves the new value in the file, and Rust prints strings.
-/

namespace LinuxSys.Shmkv.V0

open Lib

inductive Command where
  | set (lang : Language) (key value : Arg lang) (calls : Calls)
  | get (lang : Language) (key : Arg lang) (calls : Calls)
  | dump (lang : Language) (calls : Calls)

structure State where
  file : Bytes
  /-- The last value of every key that a set has succeeded for. -/
  told : FiniteMap Bytes Bytes

def Calls.Opened (calls : Calls) : Prop := calls ≠ .unopened ∧ calls ≠ .unmapped

instance (calls : Calls) : Decidable calls.Opened := inferInstanceAs (Decidable (_ ∧ _))

/-- The keys and values that `cmd_set` accepts. -/
def InRange (key value : Bytes) : Prop :=
  key ≠ [] ∧ key.length ≤ kKeyMax ∧ value.length ≤ kValueMax

def Reply.succeeded : Reply → Bool
  | .ok _ _ => true
  | .fail _ => false

def Reply.code : Reply → ℕ
  | .ok _ _ => 0
  | .fail error => error.code

namespace State

variable (path : Bytes) (slots : Slots) (s : State)

def reply : Command → Reply
  | .set _ key value calls => (cmdSet path calls s.file key.bytes value.bytes).1
  | .get lang key calls => cmdGet lang path calls s.file key.bytes
  | .dump lang calls => cmdDump lang path calls s.file

def after : Command → State
  | .set _ key value calls =>
    let (reply, file) := cmdSet path calls s.file key.bytes value.bytes
    { file, told := if reply.succeeded then s.told.insert key.bytes value.bytes else s.told }
  | .get _ _ _ => s
  | .dump _ _ => s

/-- No key has two slots, and the slots that are not free are the map. -/
structure Represents : Prop where
  distinct : ∀ i < slots.1, ∀ j < slots.1, Store.slotKey ⟨s.file, slots.1⟩ i ≠ [] →
    Store.slotKey ⟨s.file, slots.1⟩ i = Store.slotKey ⟨s.file, slots.1⟩ j → i = j
  told : ∀ key ≠ [], ∀ value, s.told.find key = some value ↔
    ∃ i < slots.1, Store.slotKey ⟨s.file, slots.1⟩ i = key ∧
      Store.slotValue ⟨s.file, slots.1⟩ i = value

/-- The key is new and as many keys as slots are present. -/
def Full (key : Bytes) : Prop := s.told.find key = none ∧ s.told.keys.card = slots.1

/-- The command replies and leaves the file as the map says. -/
def Refines : Command → Prop
  | .set lang key value calls =>
    let reply := s.reply path (.set lang key value calls)
    let after := s.after path (.set lang key value calls)
    (InRange key.bytes value.bytes → (reply.code = 5 ↔ s.Full slots key.bytes)) ∧
      (reply.code = 5 → after.file = s.file) ∧ after.Represents slots
  | .get lang key calls =>
    let reply := s.reply path (.get lang key calls)
    (∀ value, s.told.find key.bytes = some value → reply = .ok (value ++ ascii "\n") []) ∧
      (s.told.find key.bytes = none → reply.succeeded = false)
  | .dump lang calls =>
    ∃ pairs : List Entry, (∀ pair, pair ∈ pairs ↔ s.told.find pair.1 = some pair.2) ∧
      pairs.Pairwise (fun a b => a.1 < b.1) ∧
      s.reply path (.dump lang calls) =
        .ok (pairs.flatMap (dumpLine .cpp)) (summary s.told.keys.card slots.1)

/-- A set whose `msync` fails changes nothing, a get of the empty key finds no free slot, and what
Rust prints is text. -/
def Sound : Command → Prop
  | .set _ key value calls => InRange key.bytes value.bytes →
    (s.Full slots key.bytes → calls.Opened) ∧
      (¬ s.Full slots key.bytes → calls = .unsynced → s.told.find key.bytes = some value.bytes)
  | .get lang key calls =>
    (calls.Opened → (key.bytes = [] → s.told.keys.card = slots.1) ∧
      (lang = .rust → ∀ value, s.told.find key.bytes = some value → Utf8.Valid value)) ∧
    (¬ calls.Opened → s.told.find key.bytes = none)
  | .dump lang calls => calls.Opened ∧ (lang = .rust →
    ∀ key value, s.told.find key = some value → Utf8.Valid key ∧ Utf8.Valid value)

/-- The file holds the entries of the map. -/
structure Inv (entries : List Entry) : Prop where
  holds : Holds slots s.file entries
  told : ∀ e : Entry, e ∈ entries ↔ s.told.find e.1 = some e.2

end State

/-- The store of a file made for `slots` slots, and the map. -/
def shmkv (path : Bytes) (slots : Slots) : Machine State Command where
  init := ⟨create slots, .empty⟩
  step s c := some (s.after path c)

variable {path : Bytes} {slots : Slots} {s : State} {entries : List Entry}

theorem Holds.represents_iff (holds : Holds slots s.file entries) :
    s.Represents slots ↔
      ∀ key ≠ [], ∀ value, s.told.find key = some value ↔ (key, value) ∈ entries := by
  have size := holds.size
  have scan : ∀ key ≠ [], ∀ value, (∃ i < slots.1, Store.slotKey ⟨s.file, slots.1⟩ i = key ∧
      Store.slotValue ⟨s.file, slots.1⟩ i = value) ↔ (key, value) ∈ entries := by
    intro key named value
    constructor
    · rintro ⟨i, inside, rfl, rfl⟩
      rw [holds.slotKey inside] at named ⊢
      rw [holds.slotValue inside]
      cases entry : entries[i]? with
      | none =>
        rw [entry] at named
        exact absurd rfl named
      | some e => exact List.mem_of_getElem? entry
    · intro member
      obtain ⟨i, used, here⟩ := List.mem_iff_getElem.mp member
      have inside : i < slots.1 := used.trans_le size
      refine ⟨i, inside, ?_, ?_⟩
      · rw [holds.slotKey inside, List.getElem?_eq_getElem used, here]
        rfl
      · rw [holds.slotValue inside, List.getElem?_eq_getElem used, here]
        rfl
  constructor
  · intro represents key named value
    rw [represents.told key named value, scan key named value]
  · intro told
    refine ⟨fun i inside j within named same => ?_, fun key named value => ?_⟩
    · have first : i < entries.length := by
        by_contra free
        exact named ((holds.slotKey_eq_nil_iff inside).mpr (by omega))
      have second : j < entries.length := by
        by_contra free
        exact named (same.trans ((holds.slotKey_eq_nil_iff within).mpr (by omega)))
      rw [holds.slotKey inside, holds.slotKey within, List.getElem?_eq_getElem first,
        List.getElem?_eq_getElem second] at same
      exact holds.eq_of_key first second same
    · rw [told key named value, scan key named value]

namespace State.Inv

theorem find_nil (inv : s.Inv slots entries) : s.told.find [] = none := by
  cases found : s.told.find [] with
  | none => rfl
  | some value =>
    have fits := inv.holds.fits ([], value) ((inv.told ([], value)).mpr found)
    exact absurd rfl fits.key

theorem card (inv : s.Inv slots entries) : s.told.keys.card = entries.length := by
  have same : s.told.keys = (entries.map Prod.fst).toFinset := by
    ext key
    rw [s.told.mem_keys, List.mem_toFinset, List.mem_map, Option.isSome_iff_exists]
    constructor
    · rintro ⟨value, found⟩
      exact ⟨(key, value), (inv.told (key, value)).mpr found, rfl⟩
    · rintro ⟨e, member, rfl⟩
      exact ⟨e.2, (inv.told e).mp member⟩
  rw [same, List.toFinset_card_of_nodup inv.holds.keys, List.length_map]

theorem full_iff (inv : s.Inv slots entries) (key : Bytes) :
    s.Full slots key ↔ (∀ e ∈ entries, e.1 ≠ key) ∧ entries.length = slots.1 := by
  rw [State.Full, inv.card]
  refine and_congr_left fun _ => ?_
  constructor
  · rintro absent e member rfl
    rw [(inv.told e).mp member] at absent
    cases absent
  · intro absent
    cases found : s.told.find key with
    | none => rfl
    | some value => exact absurd rfl (absent (key, value) ((inv.told (key, value)).mpr found))

theorem represents (inv : s.Inv slots entries) : s.Represents slots := by
  rw [inv.holds.represents_iff]
  exact fun key _ value => (inv.told (key, value)).symm

end State.Inv

/-- What `cmd_set` does to a file that holds the map. -/
inductive SetEffect (slots : Slots) (s : State) (key value : Bytes) (calls : Calls) :
    Reply × Bytes → Prop
  | refused (e : CliError) (other : e.code ≠ 5) (because : ¬ (InRange key value ∧ calls.Opened)) :
      SetEffect slots s key value calls (.fail e, s.file)
  | full (range : InRange key value) (opened : calls.Opened) (full : s.Full slots key) :
      SetEffect slots s key value calls (.fail (storeFull slots.1), s.file)
  | unsynced {file : Bytes} {after : List Entry} (range : InRange key value)
      (room : ¬ s.Full slots key) (failed : calls = .unsynced) (holds : Holds slots file after)
      (told : ∀ e : Entry, e ∈ after ↔
        if e.1 = key then e.2 = value else s.told.find e.1 = some e.2) :
      SetEffect slots s key value calls (.fail msyncFailed, file)
  | done {file : Bytes} {after : List Entry} (range : InRange key value)
      (room : ¬ s.Full slots key) (synced : calls = .done) (holds : Holds slots file after)
      (told : ∀ e : Entry, e ∈ after ↔
        if e.1 = key then e.2 = value else s.told.find e.1 = some e.2) :
      SetEffect slots s key value calls (.ok (ascii "set " ++ key ++ ascii "\n") [], file)

variable (path) in
theorem openStore_of_not_opened {calls : Calls} (closed : ¬ calls.Opened) (file : Bytes) :
    ∃ e, Store.openStore path calls file = .error e ∧ e.code ≠ 5 := by
  cases calls with
  | done => exact absurd ⟨by decide, by decide⟩ closed
  | unsynced => exact absurd ⟨by decide, by decide⟩ closed
  | unopened => exact ⟨_, rfl, by simp [cannotOpen]⟩
  | unmapped =>
    rw [Store.openStore, if_neg (by decide)]
    split
    · exact ⟨_, rfl, by simp [notAStore]⟩
    · exact ⟨_, rfl, by simp [mmapFailed]⟩

theorem cmdSet_of_range {key value : Bytes} (range : InRange key value) (calls : Calls)
    (file : Bytes) : cmdSet path calls file key value =
      match Store.openStore path calls file with
      | .error e => (.fail e, file)
      | .ok store =>
        match store.set calls key value with
        | (.error e, data) => (.fail e, data)
        | (.ok (), data) => (.ok (ascii "set " ++ key ++ ascii "\n") [], data) := by
  obtain ⟨named, keyLength, valueLength⟩ := range
  rw [cmdSet, if_neg named, if_neg (by omega), if_neg (by omega)] <;> rfl

variable (path) in
theorem State.Inv.set_effect (inv : s.Inv slots entries) {lang : Language} (key value : Arg lang)
    (calls : Calls) :
    SetEffect slots s key.bytes value.bytes calls
      (cmdSet path calls s.file key.bytes value.bytes) := by
  by_cases range : InRange key.bytes value.bytes
  · rw [cmdSet_of_range range]
    by_cases opened : calls.Opened
    · have fits : Fits (key.bytes, value.bytes) :=
        ⟨range.1, range.2.1, range.2.2, key.fresh, value.fresh⟩
      rw [inv.holds.openStore path opened.1 opened.2]
      rcases inv.holds.set_effect calls fits with ⟨absent, all, full⟩ |
        ⟨room, file, after, holds, told, wrote⟩
      · simp only [full]
        exact .full range opened ((inv.full_iff _).mpr ⟨absent, all⟩)
      · have free : ¬ s.Full slots key.bytes := by
          rw [inv.full_iff]
          rintro ⟨absent, all⟩
          rcases room with ⟨e, member, same⟩ | less
          · exact absent e member same
          · omega
        simp only [inv.told] at told
        simp only [wrote]
        cases calls with
        | unopened => exact absurd rfl opened.1
        | unmapped => exact absurd rfl opened.2
        | done => exact .done range free rfl holds told
        | unsynced => exact .unsynced range free rfl holds told
    · obtain ⟨e, failed, other⟩ := openStore_of_not_opened path opened s.file
      rw [failed]
      exact .refused e other fun both => opened both.2
  · have outside : ¬ (InRange key.bytes value.bytes ∧ calls.Opened) := fun both => range both.1
    by_cases named : key.bytes = []
    · rw [cmdSet, if_pos named]
      exact .refused _ (by simp [emptyKey]) outside
    · by_cases keyLength : key.bytes.length > kKeyMax
      · rw [cmdSet, if_neg named, if_pos keyLength]
        exact .refused _ (by simp [keyTooLong]) outside
      · have valueLength : value.bytes.length > kValueMax := by
          by_contra short
          exact range ⟨named, by omega, by omega⟩
        rw [cmdSet, if_neg named, if_neg keyLength, if_pos valueLength]
        exact .refused _ (by simp [valueTooLong]) outside

/-- A set refines the map exactly when it is sound. -/
theorem State.Inv.set_iff (inv : s.Inv slots entries) {lang : Language} (key value : Arg lang)
    (calls : Calls) :
    s.Refines path slots (.set lang key value calls) ↔ s.Sound slots (.set lang key value calls) := by
  have effect := inv.set_effect path key value calls
  rw [State.Refines, State.Sound]
  simp only [State.reply, State.after]
  generalize cmdSet path calls s.file key.bytes value.bytes = result at effect
  cases effect with
  | refused e other because =>
    constructor
    · rintro ⟨full, -, -⟩ range
      have room : ¬ s.Full slots key.bytes := fun all => other ((full range).mpr all)
      refine ⟨fun all => absurd all room, fun _ failed => ?_⟩
      exact absurd ⟨range, by rw [failed]; exact ⟨by decide, by decide⟩⟩ because
    · intro sound
      refine ⟨fun range => iff_of_false other fun all => ?_, fun _ => rfl, inv.represents⟩
      exact because ⟨range, (sound range).1 all⟩
  | full range opened full =>
    exact iff_of_true ⟨fun _ => iff_of_true rfl full, fun _ => rfl, inv.represents⟩
      fun _ => ⟨fun _ => opened, fun room => absurd full room⟩
  | unsynced range room failed holds told =>
    constructor
    · rintro ⟨-, -, represents⟩ -
      refine ⟨fun all => absurd all room, fun _ _ => ?_⟩
      exact ((holds.represents_iff.mp represents) key.bytes range.1 value.bytes).mpr
        ((told _).mpr (by rw [if_pos rfl]))
    · intro sound
      have kept := (sound range).2 room failed
      have other : msyncFailed.code ≠ 5 := by decide
      refine ⟨fun _ => iff_of_false other room, fun full => absurd full other, ?_⟩
      refine holds.represents_iff.mpr fun k _ v => ?_
      rw [told]
      change s.told.find k = some v ↔
        if k = key.bytes then v = value.bytes else s.told.find k = some v
      split
      · next same => rw [same, kept, Option.some_inj, eq_comm]
      · exact Iff.rfl
  | done range room synced holds told =>
    have other : 0 ≠ 5 := by decide
    refine iff_of_true ⟨fun _ => iff_of_false other room, fun full => absurd full other, ?_⟩
      fun _ => ⟨fun all => absurd all room, fun _ failed => ?_⟩
    · refine holds.represents_iff.mpr fun k _ v => ?_
      rw [told]
      change (s.told.insert key.bytes value.bytes).find k = some v ↔
        if k = key.bytes then v = value.bytes else s.told.find k = some v
      rw [FiniteMap.find_insert]
      split
      · rw [Option.some_inj, eq_comm]
      · exact Iff.rfl
    · rw [synced] at failed
      cases failed

variable (path) in
theorem cmdGet_of_not_opened {calls : Calls} (closed : ¬ calls.Opened) (lang : Language)
    (file key : Bytes) : (cmdGet lang path calls file key).succeeded = false := by
  obtain ⟨e, failed, -⟩ := openStore_of_not_opened path closed file
  rw [cmdGet, failed]
  rfl

namespace State.Inv

theorem cmdGet_eq (inv : s.Inv slots entries) {calls : Calls} (opened : calls.Opened)
    (lang : Language) (key : Bytes) : cmdGet lang path calls s.file key =
      match (List.range slots.1).find? fun i => Store.slotKey ⟨s.file, slots.1⟩ i = key with
      | some i => .ok (shown lang (Store.slotValue ⟨s.file, slots.1⟩ i) ++ ascii "\n") []
      | none => .fail keyNotFound := by
  rw [cmdGet, inv.holds.openStore path opened.1 opened.2] <;> rfl

theorem cmdGet_of_some (inv : s.Inv slots entries) {calls : Calls} (opened : calls.Opened)
    (lang : Language) {key value : Bytes} (found : s.told.find key = some value) :
    cmdGet lang path calls s.file key = .ok (shown lang value ++ ascii "\n") [] := by
  have member := (inv.told (key, value)).mpr found
  obtain ⟨j, inside, here⟩ := List.mem_iff_getElem.mp member
  rw [inv.cmdGet_eq opened, inv.holds.find_slot (inv.holds.fits _ member).key]
  cases place : entries.findIdx? fun e => e.1 = key with
  | none =>
    have other := List.findIdx?_eq_none_iff.mp place _ member
    simp at other
  | some i =>
    obtain ⟨used, same, -⟩ := List.findIdx?_eq_some_iff_getElem.mp place
    have one : i = j := inv.holds.eq_of_key used inside (by simpa [here] using same)
    subst one
    have printed : Store.slotValue ⟨s.file, slots.1⟩ i = value := by
      rw [inv.holds.slotValue (used.trans_le inv.holds.size), List.getElem?_eq_getElem used, here]
      rfl
    simp only [printed]

theorem cmdGet_of_none (inv : s.Inv slots entries) {calls : Calls} (opened : calls.Opened)
    (lang : Language) {key : Bytes} (named : key ≠ []) (absent : s.told.find key = none) :
    cmdGet lang path calls s.file key = .fail keyNotFound := by
  have none : entries.findIdx? (fun e => e.1 = key) = none := by
    rw [List.findIdx?_eq_none_iff]
    intro e member
    rw [decide_eq_false_iff_not]
    rintro rfl
    rw [(inv.told e).mp member] at absent
    cases absent
  rw [inv.cmdGet_eq opened, inv.holds.find_slot named, none]

variable (path) in
/-- The empty key is that of the free slots. -/
theorem cmdGet_nil (inv : s.Inv slots entries) {calls : Calls} (opened : calls.Opened)
    (lang : Language) :
    (cmdGet lang path calls s.file []).succeeded = false ↔ s.told.keys.card = slots.1 := by
  have size := inv.holds.size
  rw [inv.cmdGet_eq opened, inv.card]
  cases place : (List.range slots.1).find? fun i => Store.slotKey ⟨s.file, slots.1⟩ i = [] with
  | none =>
    refine iff_of_true rfl ?_
    by_contra room
    have inside : entries.length < slots.1 := lt_of_le_of_ne size room
    have other := List.find?_eq_none.mp place _ (List.mem_range.mpr inside)
    exact other (decide_eq_true ((inv.holds.slotKey_eq_nil_iff inside).mpr le_rfl))
  | some i =>
    obtain ⟨empty, member, -⟩ := List.find?_range_eq_some.mp place
    have inside := List.mem_range.mp member
    have free := (inv.holds.slotKey_eq_nil_iff inside).mp (of_decide_eq_true empty)
    exact iff_of_false (fun failed => absurd failed (by simp [Reply.succeeded])) (by omega)

theorem shown_iff (lang : Language) (text : Bytes) :
    shown lang text = text ↔ (lang = .rust → Utf8.Valid text) := by
  cases lang with
  | rust => simp only [shown, Utf8.lossy_eq_self_iff, forall_const]
  | cpp => simp [shown]
  | go => simp [shown]

/-- A get refines the map exactly when it is sound. -/
theorem get_iff (inv : s.Inv slots entries) {lang : Language} (key : Arg lang) (calls : Calls) :
    s.Refines path slots (.get lang key calls) ↔ s.Sound slots (.get lang key calls) := by
  rw [State.Refines, State.Sound]
  simp only [State.reply]
  by_cases opened : calls.Opened
  · simp only [opened, forall_const, not_true_eq_false, false_implies, and_true]
    by_cases empty : key.bytes = []
    · rw [empty, inv.find_nil]
      have free := inv.cmdGet_nil path opened lang
      simpa using free
    · cases found : s.told.find key.bytes with
      | none =>
        rw [inv.cmdGet_of_none opened lang empty found]
        simp [empty, Reply.succeeded]
      | some value =>
        rw [inv.cmdGet_of_some opened lang found]
        have same := shown_iff lang value
        simp [empty, same]
  · simp only [opened, false_implies, not_false_eq_true, forall_const, true_and]
    have failed := cmdGet_of_not_opened path opened lang s.file key.bytes
    cases found : s.told.find key.bytes with
    | none => simp [failed]
    | some value =>
      refine iff_of_false (fun right => ?_) (by simp)
      rw [right.1 value rfl] at failed
      cases failed

theorem dumpLine_append (pair : Entry) (rest : Bytes) :
    dumpLine .cpp pair ++ rest = pair.1 ++ 0x3D :: (pair.2 ++ 0x0A :: rest) := by
  have equals : ascii "=" = [0x3D] := rfl
  have newline : ascii "\n" = [0x0A] := rfl
  simp [dumpLine, shown, equals, newline]

theorem flatMap_dumpLine (lang : Language) (pairs : List Entry) :
    pairs.flatMap (dumpLine lang) = shown lang (pairs.flatMap (dumpLine .cpp)) := by
  cases lang with
  | cpp => rfl
  | go => rfl
  | rust =>
    have equals : ascii "=" = [0x3D] := rfl
    have newline : ascii "\n" = [0x0A] := rfl
    change _ = Utf8.lossy _
    induction pairs with
    | nil => simp
    | cons pair rest ih =>
      rw [List.flatMap_cons, List.flatMap_cons, dumpLine_append, Utf8.lossy_append_cons (by decide),
        Utf8.lossy_append_cons (by decide), ← ih]
      simp [dumpLine, shown, equals, newline]

theorem valid_flatMap_iff (pairs : List Entry) : Utf8.Valid (pairs.flatMap (dumpLine .cpp)) ↔
    ∀ pair ∈ pairs, Utf8.Valid pair.1 ∧ Utf8.Valid pair.2 := by
  induction pairs with
  | nil => simp [Utf8.valid_nil]
  | cons pair rest ih =>
    rw [List.flatMap_cons, dumpLine_append, Utf8.valid_append_cons_iff (by decide),
      Utf8.valid_append_cons_iff (by decide), ih, List.forall_mem_cons, and_assoc]

theorem sorted_perm (lang : Language) (pairs : List Entry) : (sorted lang pairs).Perm pairs := by
  cases lang <;> exact List.mergeSort_perm _ _

theorem pairLe_iff (a b : Entry) : pairLe a b ↔ a.1 < b.1 ∨ a.1 = b.1 ∧ a.2 ≤ b.2 := by
  simp [pairLe]

theorem pairLe_trans (a b c : Entry) (first : pairLe a b) (second : pairLe b c) : pairLe a c := by
  rw [pairLe_iff] at *
  rcases first with less | ⟨same, atMost⟩
  · rcases second with further | ⟨same, -⟩
    · exact .inl (List.lt_trans less further)
    · exact .inl (same ▸ less)
  · rcases second with further | ⟨same', atMost'⟩
    · exact .inl (same ▸ further)
    · exact .inr ⟨same.trans same', List.le_trans atMost atMost'⟩

theorem pairLe_total (a b : Entry) : (pairLe a b || pairLe b a) = true := by
  rw [Bool.or_eq_true, pairLe_iff, pairLe_iff]
  by_cases same : a.1 = b.1
  · rcases List.le_total a.2 b.2 with atMost | atMost
    · exact .inl (.inr ⟨same, atMost⟩)
    · exact .inr (.inr ⟨same.symm, atMost⟩)
  · rcases List.le_total a.1 b.1 with atMost | atMost
    · exact .inl (.inl (Std.lt_of_le_of_ne atMost same))
    · exact .inr (.inl (Std.lt_of_le_of_ne atMost (Ne.symm same)))

theorem sorted_le (lang : Language) (pairs : List Entry) :
    (sorted lang pairs).Pairwise fun a b => a.1 ≤ b.1 := by
  have byPair : (pairs.mergeSort pairLe).Pairwise fun a b => a.1 ≤ b.1 := by
    refine (List.pairwise_mergeSort pairLe_trans pairLe_total pairs).imp ?_
    intro a b ordered
    rcases (pairLe_iff a b).mp ordered with less | ⟨same, -⟩
    · exact List.le_of_lt less
    · exact same ▸ List.le_refl a.1
  cases lang with
  | cpp => exact byPair
  | rust => exact byPair
  | go =>
    refine (List.pairwise_mergeSort ?_ ?_ pairs).imp fun ordered => of_decide_eq_true ordered
    · intro a b c first second
      exact decide_eq_true (List.le_trans (of_decide_eq_true first) (of_decide_eq_true second))
    · intro a b
      simpa [keyLe] using List.le_total a.1 b.1

/-- Pairs with different keys are in the order of their keys. -/
theorem sorted_pairwise (lang : Language) {pairs : List Entry}
    (keys : (pairs.map Prod.fst).Nodup) :
    (sorted lang pairs).Pairwise fun a b => a.1 < b.1 := by
  have distinct : (sorted lang pairs).Pairwise fun a b => a.1 ≠ b.1 := by
    have sortedKeys := ((sorted_perm lang pairs).map Prod.fst).nodup_iff.mpr keys
    exact List.pairwise_map.mp sortedKeys
  refine ((sorted_le lang pairs).and distinct).imp ?_
  rintro a b ⟨atMost, other⟩
  exact Std.lt_of_le_of_ne atMost other

/-- The pairs of a map in the order of their keys are one list. -/
theorem eq_of_ordered {first second : List Entry} (members : ∀ e, e ∈ first ↔ e ∈ second)
    (left : first.Pairwise fun a b => a.1 < b.1) (right : second.Pairwise fun a b => a.1 < b.1) :
    first = second := by
  have nodup : ∀ {l : List Entry}, l.Pairwise (fun a b => a.1 < b.1) → l.Nodup := by
    intro l ordered
    refine ordered.imp fun less => ?_
    rintro rfl
    exact List.lt_irrefl _ less
  have perm : first.Perm second := (List.perm_ext_iff_of_nodup (nodup left) (nodup right)).mpr members
  refine List.Perm.eq_of_pairwise (fun a b _ _ less greater => ?_) left right perm
  exact absurd (List.lt_trans less greater) (List.lt_irrefl _)

/-- A dump refines the map exactly when it is sound. -/
theorem dump_iff (inv : s.Inv slots entries) (lang : Language) (calls : Calls) :
    s.Refines path slots (.dump lang calls) ↔ s.Sound slots (.dump lang calls) := by
  have keys := sorted_pairwise lang inv.holds.keys
  have perm := sorted_perm lang entries
  have members : ∀ pair, pair ∈ sorted lang entries ↔ s.told.find pair.1 = some pair.2 := by
    intro pair
    rw [perm.mem_iff, inv.told]
  rw [State.Refines, State.Sound]
  simp only [State.reply]
  by_cases opened : calls.Opened
  · have printed : cmdDump lang path calls s.file = .ok
        (shown lang ((sorted lang entries).flatMap (dumpLine .cpp)))
        (summary s.told.keys.card slots.1) := by
      rw [cmdDump, inv.holds.openStore path opened.1 opened.2, inv.card]
      simp only [inv.holds.pairs]
      rw [flatMap_dumpLine]
    have valid : (∀ pair ∈ sorted lang entries, Utf8.Valid pair.1 ∧ Utf8.Valid pair.2) ↔
        ∀ key value, s.told.find key = some value → Utf8.Valid key ∧ Utf8.Valid value := by
      simp only [members, Prod.forall]
    rw [printed, and_iff_right opened, ← valid, ← valid_flatMap_iff, ← shown_iff]
    constructor
    · rintro ⟨pairs, other, ordered, same⟩
      have one : pairs = sorted lang entries :=
        eq_of_ordered (fun e => (other e).trans (members e).symm) ordered keys
      rw [one] at same
      exact (Reply.ok.inj same).1
    · intro same
      exact ⟨_, members, keys, by rw [same]⟩
  · obtain ⟨e, failed, -⟩ := openStore_of_not_opened path opened s.file
    have closed : cmdDump lang path calls s.file = .fail e := by
      rw [cmdDump, failed]
    rw [closed]
    simp [opened]

theorem of_represents {file : Bytes} {told : FiniteMap Bytes Bytes} {after : List Entry}
    (holds : Holds slots file after) (nil : told.find [] = none)
    (represents : State.Represents slots ⟨file, told⟩) : State.Inv slots ⟨file, told⟩ after := by
  refine ⟨holds, fun e => ?_⟩
  by_cases empty : e.1 = []
  · refine iff_of_false (fun member => (holds.fits e member).key empty) fun found => ?_
    rw [empty] at found
    cases nil.symm.trans found
  · exact (holds.represents_iff.mp represents e.1 empty e.2).symm

/-- A command that refines the map leaves a file that holds it. -/
theorem keeps (inv : s.Inv slots entries) {c : Command} (refines : s.Refines path slots c) :
    ∃ after, (s.after path c).Inv slots after := by
  cases c with
  | get lang key calls => exact ⟨entries, inv⟩
  | dump lang calls => exact ⟨entries, inv⟩
  | set lang key value calls =>
    obtain ⟨-, -, represents⟩ := refines
    have effect := inv.set_effect path key value calls
    simp only [State.after] at represents ⊢
    generalize cmdSet path calls s.file key.bytes value.bytes = result at effect represents
    cases effect with
    | refused e other because => exact ⟨_, of_represents inv.holds inv.find_nil represents⟩
    | full range opened full => exact ⟨_, of_represents inv.holds inv.find_nil represents⟩
    | unsynced range room failed holds told =>
      exact ⟨_, of_represents holds inv.find_nil represents⟩
    | done range room synced holds told =>
      refine ⟨_, of_represents holds ?_ represents⟩
      change (s.told.insert key.bytes value.bytes).find [] = none
      rw [FiniteMap.find_insert, if_neg (Ne.symm range.1), inv.find_nil]

/-- Every command refines the map exactly when it is sound. -/
theorem refines_iff (inv : s.Inv slots entries) (c : Command) :
    s.Refines path slots c ↔ s.Sound slots c := by
  cases c with
  | set lang key value calls => exact inv.set_iff key value calls
  | get lang key calls => exact inv.get_iff key calls
  | dump lang calls => exact inv.dump_iff lang calls

theorem init (path : Bytes) : (shmkv path slots).init.Inv slots [] :=
  ⟨Holds.create, fun _ => iff_of_false List.not_mem_nil (by simp [shmkv])⟩

end State.Inv

/-- Along every sequence of commands, all refine the map exactly when all are sound. -/
theorem commands_refine_iff (path : Bytes) (slots : Slots) (commands : List Command) :
    (shmkv path slots).Meets (State.Refines path slots) (shmkv path slots).init commands ↔
      (shmkv path slots).Meets (State.Sound slots) (shmkv path slots).init commands := by
  refine @Machine.meets_iff_meets _ _ (shmkv path slots) (fun s => ∃ entries, s.Inv slots entries)
    _ _ ?_ ?_ _ ⟨[], State.Inv.init path⟩ commands
  · rintro s c ⟨entries, inv⟩
    exact inv.refines_iff c
  · rintro s c t ⟨entries, inv⟩ refines taken
    cases taken
    exact inv.keeps refines

/-- On a new file `cmd_get` finds the empty key in the first slot. -/
theorem cmdGet_create (lang : Language) (path : Bytes) (slots : Slots) :
    cmdGet lang path .done (create slots) [] = .ok (ascii "\n") [] := by
  have inv : (shmkv path slots).init.Inv slots [] := State.Inv.init path
  have holds : Holds slots (create slots) [] := inv.holds
  have inside : 0 < slots.1 := slots.2.1
  have place : ((List.range slots.1).find? fun i =>
      Store.slotKey ⟨create slots, slots.1⟩ i = []) = some 0 := by
    refine List.find?_range_eq_some.mpr ⟨?_, List.mem_range.mpr inside, fun j less => ?_⟩
    · exact decide_eq_true ((holds.slotKey_eq_nil_iff inside).mpr le_rfl)
    · exact absurd less (Nat.not_lt_zero j)
  have empty : shown lang [] = [] := by
    rw [State.Inv.shown_iff]
    exact fun _ => Utf8.valid_nil
  have value : Store.slotValue ⟨create slots, slots.1⟩ 0 = [] := holds.slotValue inside
  refine (inv.cmdGet_eq ⟨by decide, by decide⟩ lang []).trans ?_
  change (match (List.range slots.1).find? fun i =>
      Store.slotKey ⟨create slots, slots.1⟩ i = [] with
    | some i => Reply.ok (shown lang (Store.slotValue ⟨create slots, slots.1⟩ i) ++ ascii "\n") []
    | none => .fail keyNotFound) = _
  simp only [place, value, empty, List.nil_append]

theorem reply_get_nil (path : Bytes) (slots : Slots) {lang : Language} (key : Arg lang)
    (empty : key.bytes = []) : (shmkv path slots).init.reply path (.get lang key .done) =
      .ok (ascii "\n") [] := by
  rw [State.reply, empty]
  exact cmdGet_create lang path slots

/-- `shmkv get FILE ""` on a new file of one slot succeeds with an empty line. -/
theorem not_commands_refine :
    (shmkv [] ⟨1, by decide⟩).init.reply [] (.get .cpp ⟨[], by decide, fun rust => by cases rust⟩
      .done) = .ok (ascii "\n") [] ∧
    ¬ (shmkv [] ⟨1, by decide⟩).Meets (State.Refines [] ⟨1, by decide⟩)
      (shmkv [] ⟨1, by decide⟩).init
      [.get .cpp ⟨[], by decide, fun rust => by cases rust⟩ .done] := by
  refine ⟨reply_get_nil [] _ _ rfl, fun refines => ?_⟩
  have failed := refines.1.2 rfl
  rw [reply_get_nil [] _ _ rfl] at failed
  cases failed

end LinuxSys.Shmkv.V0
