import LinuxSys.Language
import LinuxSys.Lib.Decimal
import LinuxSys.Lib.Records
import LinuxSys.Lib.Utf8

/-! # The store file of shmkv v0

A header with the number of slots, then slots of 256 bytes, each a NUL-padded key and a NUL-padded
value; a slot whose key is empty is free. `cmd_set` overwrites the slot of its key or claims the
first free one, `cmd_get` prints the value of the first slot with its key, `cmd_dump` prints every
slot that is not free, sorted. A command runs on the bytes of the file and leaves bytes behind.
-/

namespace LinuxSys.Shmkv.V0

open Lib

def kMagic : Bytes := [0x53, 0x48, 0x4B, 0x56, 0x31, 0x00]
def kHeaderSize : ℕ := 10
def kKeyField : ℕ := 64
def kValueField : ℕ := 192
def kSlotSize : ℕ := kKeyField + kValueField
def kKeyMax : ℕ := kKeyField - 1
def kValueMax : ℕ := kValueField - 1

/-- A failure: the exit code and the line for stderr; an empty line asks for the usage text. -/
structure CliError where
  code : ℕ
  msg : Bytes
deriving DecidableEq, Repr

/-- What a command leaves: its output, or a failure. -/
inductive Reply where
  | ok (out err : Bytes)
  | fail (error : CliError)
deriving DecidableEq, Repr

/-- How the system calls around the mapping went. -/
inductive Calls where
  | done
  | unopened
  | unmapped
  | unsynced
deriving DecidableEq, Repr

/-- A command-line argument: it has no NUL, and to Rust it is text. -/
structure Arg (lang : Language) where
  bytes : Bytes
  fresh : 0 ∉ bytes
  text : lang = .rust → Utf8.Valid bytes

/-- A slot count that `parse_slots` accepts. -/
abbrev Slots := { n : ℕ // 0 < n ∧ n ≤ 0xFFFFFFFF }

def parseSlots (text : Bytes) : Except CliError Slots :=
  if text = [] ∨ text.length > 10 ∨ ¬ text.all isDigit then .error ⟨2, []⟩
  else
    if range : 0 < digitsValue text ∧ digitsValue text ≤ 0xFFFFFFFF then
      .ok ⟨digitsValue text, range⟩
    else .error ⟨2, []⟩

def header (slots : ℕ) : Bytes := kMagic ++ le32 slots

/-- The file after `Store::create`. -/
def create (slots : Slots) : Bytes :=
  header slots.1 ++ (List.replicate slots.1 (List.replicate kSlotSize 0)).flatten

def cannotOpen (path : Bytes) : CliError := ⟨1, ascii "shmkv: cannot open " ++ path⟩
def mmapFailed : CliError := ⟨1, ascii "shmkv: mmap failed"⟩
def msyncFailed : CliError := ⟨1, ascii "shmkv: msync failed"⟩
def notAStore (path : Bytes) : CliError :=
  ⟨1, ascii "shmkv: " ++ path ++ ascii ": not a shmkv v0 store"⟩
def storeFull (slots : ℕ) : CliError :=
  ⟨5, ascii "shmkv: store full (" ++ decimal slots ++ ascii " slots)"⟩
def emptyKey : CliError := ⟨2, ascii "shmkv: empty key"⟩
def keyTooLong : CliError := ⟨2, ascii "shmkv: key too long (max 63 bytes)"⟩
def valueTooLong : CliError := ⟨2, ascii "shmkv: value too long (max 191 bytes)"⟩
def keyNotFound : CliError := ⟨4, ascii "shmkv: key not found"⟩

structure Store where
  data : Bytes
  slots : ℕ

namespace Store

def openStore (path : Bytes) (calls : Calls) (file : Bytes) : Except CliError Store :=
  if calls = .unopened then .error (cannotOpen path)
  else if file.length < kHeaderSize then .error (notAStore path)
  else if calls = .unmapped then .error mmapFailed
  else if file.take kMagic.length ≠ kMagic then .error (notAStore path)
  else
    let slots := leValue ((file.take kHeaderSize).drop kMagic.length)
    if file.length ≠ kHeaderSize + slots * kSlotSize then .error (notAStore path)
    else .ok ⟨file, slots⟩

def slot (s : Store) (i : ℕ) : Bytes := Records.read kHeaderSize kSlotSize s.data i

def slotKey (s : Store) (i : ℕ) : Bytes := before 0 ((s.slot i).take kKeyField)

def slotValue (s : Store) (i : ℕ) : Bytes := before 0 ((s.slot i).drop kKeyField)

/-- The loop of `set` from slot `i` on, with `left` slots to go: the slot holding the key, else the
first free one seen, else the slot count. -/
def probe (s : Store) (key : Bytes) : ℕ → ℕ → ℕ → ℕ
  | 0, _, firstEmpty => firstEmpty
  | left + 1, i, firstEmpty =>
    if s.slotKey i = key then i
    else s.probe key left (i + 1)
      (if s.slotKey i = [] ∧ firstEmpty = s.slots then i else firstEmpty)

def set (s : Store) (calls : Calls) (key value : Bytes) : Except CliError Unit × Bytes :=
  let target := s.probe key s.slots 0 s.slots
  if target = s.slots then (.error (storeFull s.slots), s.data)
  else
    (if calls = .unsynced then .error msyncFailed else .ok (),
      Records.write kHeaderSize kSlotSize s.data target
        (padded kKeyField key ++ padded kValueField value))

end Store

def cmdSet (path : Bytes) (calls : Calls) (file key value : Bytes) : Reply × Bytes :=
  if key = [] then (.fail emptyKey, file)
  else if key.length > kKeyMax then (.fail keyTooLong, file)
  else if value.length > kValueMax then (.fail valueTooLong, file)
  else
    match Store.openStore path calls file with
    | .error e => (.fail e, file)
    | .ok store =>
      match store.set calls key value with
      | (.error e, data) => (.fail e, data)
      | (.ok (), data) => (.ok (ascii "set " ++ key ++ ascii "\n") [], data)

/-- A text as it is printed: Rust prints strings. -/
def shown (lang : Language) (text : Bytes) : Bytes :=
  match lang with
  | .rust => Utf8.lossy text
  | _ => text

def cmdGet (lang : Language) (path : Bytes) (calls : Calls) (file key : Bytes) : Reply :=
  match Store.openStore path calls file with
  | .error e => .fail e
  | .ok store =>
    match (List.range store.slots).find? fun i => store.slotKey i = key with
    | some i => .ok (shown lang (store.slotValue i) ++ ascii "\n") []
    | none => .fail keyNotFound

def keyLe (a b : Bytes × Bytes) : Bool := a.1 ≤ b.1

def pairLe (a b : Bytes × Bytes) : Bool := a.1 < b.1 || (a.1 = b.1 && a.2 ≤ b.2)

/-- Go sorts by the key, the others sort the pairs. -/
def sorted (lang : Language) (pairs : List (Bytes × Bytes)) : List (Bytes × Bytes) :=
  match lang with
  | .go => pairs.mergeSort keyLe
  | _ => pairs.mergeSort pairLe

def dumpLine (lang : Language) (pair : Bytes × Bytes) : Bytes :=
  shown lang pair.1 ++ ascii "=" ++ shown lang pair.2 ++ ascii "\n"

def summary (used slots : ℕ) : Bytes :=
  ascii "shmkv: " ++ decimal used ++ ascii "/" ++ decimal slots ++ ascii " slots used\n"

def Store.pairs (s : Store) : List (Bytes × Bytes) :=
  ((List.range s.slots).filter fun i => s.slotKey i ≠ []).map fun i =>
    (s.slotKey i, s.slotValue i)

def cmdDump (lang : Language) (path : Bytes) (calls : Calls) (file : Bytes) : Reply :=
  match Store.openStore path calls file with
  | .error e => .fail e
  | .ok store =>
    .ok ((sorted lang store.pairs).flatMap (dumpLine lang)) (summary store.pairs.length store.slots)

end LinuxSys.Shmkv.V0
