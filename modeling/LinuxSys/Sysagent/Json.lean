import Mathlib.Tactic.NormNum
import LinuxSys.Language
import LinuxSys.Lib.Json

/-! # The snapshot of sysagent as JSON

`to_json` writes a snapshot as one JSON object, piece by piece. Nothing is done for the names of
disks and interfaces, which are any bytes that the kernel takes for a name. In C++ a percentage goes
through a buffer of 64 bytes.
-/

namespace LinuxSys.Sysagent

open Lib Json

/-- What a double is printed as with two digits behind the point; a zero may have a sign. -/
structure Hundredths where
  negative : Bool := false
  count : ℕ := 0
deriving DecidableEq, Repr

structure DiskStat where
  name : Bytes
  reads : ℤ := 0
  writes : ℤ := 0
  readSectors : ℤ := 0
  writeSectors : ℤ := 0
deriving DecidableEq, Repr

structure NetStat where
  iface : Bytes
  rxBytes : ℤ := 0
  txBytes : ℤ := 0
deriving DecidableEq, Repr

structure Snapshot where
  cpuUtilPct : Hundredths := {}
  cpuUserPct : Hundredths := {}
  cpuSystemPct : Hundredths := {}
  load1 : Hundredths := {}
  load5 : Hundredths := {}
  load15 : Hundredths := {}
  runnable : ℤ := 0
  totalThreads : ℤ := 0
  memTotalKb : ℤ := 0
  memAvailableKb : ℤ := 0
  memUsedKb : ℤ := 0
  disks : List DiskStat := []
  net : List NetStat := []
  psiAvailable : Bool := false
  psiCpuSomeAvg10 : Hundredths := {}
  psiMemSomeAvg10 : Hundredths := {}
  psiIoSomeAvg10 : Hundredths := {}
deriving DecidableEq, Repr

/-! `to_json`. -/

/-- `%.2f`. -/
def fixed2 (v : Hundredths) : Bytes :=
  (if v.negative then [0x2D] else []) ++
    (decimal (v.count / 100) ++ 0x2E :: [digit (v.count / 10 % 10), digit (v.count % 10)])

def fmt2 (lang : Language) (v : Hundredths) : Bytes :=
  match lang with
  | .cpp => (fixed2 v).take 63
  | .rust | .go => fixed2 v

/-- The name of a field, in quotes and with its colon. -/
def key (name : String) : Bytes := 0x22 :: (ascii name ++ [0x22, 0x3A])

def diskText (d : DiskStat) : Bytes := List.flatten [
  [0x7B],
  key "name", [0x22], d.name, [0x22], [0x2C],
  key "reads", decimalInt d.reads, [0x2C],
  key "writes", decimalInt d.writes, [0x2C],
  key "read_sectors", decimalInt d.readSectors, [0x2C],
  key "write_sectors", decimalInt d.writeSectors,
  [0x7D]]

def netText (n : NetStat) : Bytes := List.flatten [
  [0x7B],
  key "iface", [0x22], n.iface, [0x22], [0x2C],
  key "rx_bytes", decimalInt n.rxBytes, [0x2C],
  key "tx_bytes", decimalInt n.txBytes,
  [0x7D]]

def boolText (b : Bool) : Bytes := if b then ascii "true" else ascii "false"

def toJson (lang : Language) (s : Snapshot) : Bytes := List.flatten [
  [0x7B],
  key "cpu_util_pct", fmt2 lang s.cpuUtilPct, [0x2C],
  key "cpu_user_pct", fmt2 lang s.cpuUserPct, [0x2C],
  key "cpu_system_pct", fmt2 lang s.cpuSystemPct, [0x2C],
  key "load1", fmt2 lang s.load1, [0x2C],
  key "load5", fmt2 lang s.load5, [0x2C],
  key "load15", fmt2 lang s.load15, [0x2C],
  key "runnable", decimalInt s.runnable, [0x2C],
  key "total_threads", decimalInt s.totalThreads, [0x2C],
  key "mem_total_kb", decimalInt s.memTotalKb, [0x2C],
  key "mem_available_kb", decimalInt s.memAvailableKb, [0x2C],
  key "mem_used_kb", decimalInt s.memUsedKb, [0x2C],
  key "disks", [0x5B], listed diskText true s.disks, [0x5D], [0x2C],
  key "net", [0x5B], listed netText true s.net, [0x5D], [0x2C],
  key "psi_available", boolText s.psiAvailable, [0x2C],
  key "psi_cpu_some_avg10", fmt2 lang s.psiCpuSomeAvg10, [0x2C],
  key "psi_mem_some_avg10", fmt2 lang s.psiMemSomeAvg10, [0x2C],
  key "psi_io_some_avg10", fmt2 lang s.psiIoSomeAvg10,
  [0x7D]]

/-! The value that the text stands for. -/

def Hundredths.value (v : Hundredths) : ℚ :=
  (if v.negative then -(v.count : ℤ) else v.count : ℤ) / 100

def DiskStat.json (d : DiskStat) : Json := .object [
  (ascii "name", .string d.name),
  (ascii "reads", .number d.reads),
  (ascii "writes", .number d.writes),
  (ascii "read_sectors", .number d.readSectors),
  (ascii "write_sectors", .number d.writeSectors)]

def NetStat.json (n : NetStat) : Json := .object [
  (ascii "iface", .string n.iface),
  (ascii "rx_bytes", .number n.rxBytes),
  (ascii "tx_bytes", .number n.txBytes)]

def Snapshot.json (s : Snapshot) : Json := .object [
  (ascii "cpu_util_pct", .number s.cpuUtilPct.value),
  (ascii "cpu_user_pct", .number s.cpuUserPct.value),
  (ascii "cpu_system_pct", .number s.cpuSystemPct.value),
  (ascii "load1", .number s.load1.value),
  (ascii "load5", .number s.load5.value),
  (ascii "load15", .number s.load15.value),
  (ascii "runnable", .number s.runnable),
  (ascii "total_threads", .number s.totalThreads),
  (ascii "mem_total_kb", .number s.memTotalKb),
  (ascii "mem_available_kb", .number s.memAvailableKb),
  (ascii "mem_used_kb", .number s.memUsedKb),
  (ascii "disks", .array (s.disks.map DiskStat.json)),
  (ascii "net", .array (s.net.map NetStat.json)),
  (ascii "psi_available", .bool s.psiAvailable),
  (ascii "psi_cpu_some_avg10", .number s.psiCpuSomeAvg10.value),
  (ascii "psi_mem_some_avg10", .number s.psiMemSomeAvg10.value),
  (ascii "psi_io_some_avg10", .number s.psiIoSomeAvg10.value)]

structure Right (s : Snapshot) : Prop where
  value : ∀ lang v, Json.Denotes (toJson lang s) v ↔ v = s.json
  same : ∀ one other, toJson one s = toJson other s

def Snapshot.names (s : Snapshot) : List Bytes := s.disks.map DiskStat.name ++ s.net.map NetStat.iface

def Snapshot.decimals (s : Snapshot) : List Hundredths :=
  [s.cpuUtilPct, s.cpuUserPct, s.cpuSystemPct, s.load1, s.load5, s.load15,
    s.psiCpuSomeAvg10, s.psiMemSomeAvg10, s.psiIoSomeAvg10]

/-- The names need no escape and are text, and the numbers are not too long for the buffer. -/
structure Clean (s : Snapshot) : Prop where
  plain : ∀ name ∈ s.names, Json.Plain name
  valid : ∀ name ∈ s.names, Utf8.Valid name
  short : ∀ v ∈ s.decimals, (fixed2 v).length ≤ 63

/-! A field and the byte behind it. -/

section Fields

variable {rest : Bytes} {more : List Token}

theorem key_append (name : String) (rest : Bytes) :
    key name ++ rest = 0x22 :: (ascii name ++ 0x22 :: 0x3A :: rest) := by
  simp only [key, List.cons_append, List.append_assoc, List.nil_append]

theorem lex_key_iff {name : String} (plain : Plain (ascii name)) :
    lex (key name ++ rest) = some (.string (ascii name) :: colon :: more) ↔
      lex rest = some more := by
  rw [key_append, lex_string_iff plain]
  exact lex_mark_iff rfl

/-- A name is read back exactly if it is plain, with another field behind it. -/
theorem lex_name_field_iff {name next : String} {s : Bytes} (plain : Plain (ascii name)) :
    lex (key name ++ 0x22 :: (s ++ 0x22 :: 0x2C :: (key next ++ rest))) =
        some (.string (ascii name) :: colon :: .string s :: .mark 0x2C :: more) ↔
      Plain s ∧ lex (key next ++ rest) = some more := by
  rw [lex_key_iff plain, key_append next, lex_name_iff, ← key_append]
  exact and_congr_right' (lex_mark_iff rfl)

/-- The text is the number, and nothing else can be in front of a mark. -/
structure Numeral (text : Bytes) (v : ℚ) : Prop where
  full : text ≠ []
  bytes : ∀ b ∈ text, numberByte b
  value : numberValue text = some v

theorem Numeral.lex_iff {text : Bytes} {v : ℚ} (numeral : Numeral text v) {b : UInt8}
    (mark : isMark b) :
    lex (text ++ b :: rest) = some (.number v :: .mark b :: more) ↔ lex rest = some more := by
  have stop : ∀ c ∈ (b :: rest).head?, ¬ numberByte c := by
    rintro c ⟨⟩ number
    simp only [isMark, Bool.or_eq_true, decide_eq_true_eq] at mark
    rcases mark with ((((rfl | rfl) | rfl) | rfl) | rfl) | rfl <;> cases number
  rw [lex_number_iff numeral.full numeral.bytes numeral.value stop]
  exact lex_mark_iff mark

theorem numberByte_of_isDigit {b : UInt8} (digit : isDigit b) : numberByte b := by
  simp only [numberByte, digit, Bool.true_or]

theorem numeral_decimalInt (n : ℤ) : Numeral (decimalInt n) n := by
  refine ⟨decimalInt_ne_nil n, fun b member => ?_, numberValue_decimalInt n⟩
  rcases isDigit_or_minus_of_mem member with digit | rfl
  · exact numberByte_of_isDigit digit
  · rfl

theorem numeral_fixed2 (v : Hundredths) : Numeral (fixed2 v) v.value := by
  have digits : ∀ b ∈ [digit (v.count / 10 % 10), digit (v.count % 10)], isDigit b := by
    intro b member
    rcases List.mem_cons.mp member with rfl | last
    · exact isDigit_digit (Nat.mod_lt _ (by decide))
    · rw [List.mem_singleton.mp last]
      exact isDigit_digit (Nat.mod_lt _ (by decide))
  have spelled : digitsValue (decimal (v.count / 100) ++
      [digit (v.count / 10 % 10), digit (v.count % 10)]) = v.count := by
    rw [List.append_cons, digitsValue_append_one, digitsValue_append_one, digitsValue_decimal,
      digit_toNat (Nat.mod_lt _ (by decide)), digit_toNat (Nat.mod_lt _ (by decide))]
    omega
  refine ⟨?_, ?_, ?_⟩
  · intro none
    have whole := (List.append_eq_nil_iff.mp none).2
    exact decimal_ne_nil _ (List.append_eq_nil_iff.mp whole).1
  · intro b member
    rcases List.mem_append.mp member with sign | number
    · cases negative : v.negative with
      | true =>
        rw [negative] at sign
        rw [List.mem_singleton.mp sign]
        rfl
      | false =>
        rw [negative] at sign
        cases sign
    · rcases List.mem_append.mp number with whole | rest
      · exact numberByte_of_isDigit (isDigit_of_mem_decimal whole)
      · rcases List.mem_cons.mp rest with rfl | small
        · rfl
        · exact numberByte_of_isDigit (digits b small)
  · rw [fixed2, numberValue_point _ _ (List.cons_ne_nil _ _) digits, IntParser.value, spelled,
      Hundredths.value]
    rw [div_eq_mul_inv]
    norm_num

theorem lex_field_iff {name : String} {text : Bytes} {v : ℚ} (plain : Plain (ascii name))
    (numeral : Numeral text v) {b : UInt8} (mark : isMark b) :
    lex (key name ++ (text ++ b :: rest)) =
        some (.string (ascii name) :: colon :: .number v :: .mark b :: more) ↔
      lex rest = some more := by
  rw [lex_key_iff plain, numeral.lex_iff mark]

theorem lex_bool_field_iff {name : String} (plain : Plain (ascii name)) (v : Bool) :
    lex (key name ++ (boolText v ++ 0x2C :: rest)) =
        some (.string (ascii name) :: colon :: .bool v :: .mark 0x2C :: more) ↔
      lex rest = some more := by
  have word : wordToken (boolText v) = some (.bool v) := by
    cases v <;> decide
  have stop : ∀ b ∈ (0x2C :: rest).head?, ¬ wordByte b := by
    rintro b ⟨⟩
    decide
  rw [lex_key_iff plain, lex_word_iff word stop]
  exact lex_mark_iff rfl

theorem lex_diskText_iff (d : DiskStat) (rest : Bytes) (more : List Token) :
    lex (diskText d ++ rest) = some (d.json.tokens ++ more) ↔ Plain d.name ∧ lex rest = some more := by
  have text : diskText d ++ rest = 0x7B :: (key "name" ++ 0x22 :: (d.name ++ 0x22 :: 0x2C ::
      (key "reads" ++ (decimalInt d.reads ++ 0x2C ::
      (key "writes" ++ (decimalInt d.writes ++ 0x2C ::
      (key "read_sectors" ++ (decimalInt d.readSectors ++ 0x2C ::
      (key "write_sectors" ++ (decimalInt d.writeSectors ++ 0x7D :: rest)))))))))) := by
    simp only [diskText, List.flatten_cons, List.flatten_nil, List.append_assoc, List.cons_append,
      List.nil_append, List.append_nil]
  have tokens : d.json.tokens ++ more = .mark 0x7B ::
      .string (ascii "name") :: colon :: .string d.name :: .mark 0x2C ::
      .string (ascii "reads") :: colon :: .number d.reads :: .mark 0x2C ::
      .string (ascii "writes") :: colon :: .number d.writes :: .mark 0x2C ::
      .string (ascii "read_sectors") :: colon :: .number d.readSectors :: .mark 0x2C ::
      .string (ascii "write_sectors") :: colon :: .number d.writeSectors :: .mark 0x7D :: more := rfl
  rw [text, tokens, lex_mark_iff rfl, lex_name_field_iff (by decide),
    lex_field_iff (by decide) (numeral_decimalInt _) rfl,
    lex_field_iff (by decide) (numeral_decimalInt _) rfl,
    lex_field_iff (by decide) (numeral_decimalInt _) rfl,
    lex_field_iff (by decide) (numeral_decimalInt _) rfl]

theorem lex_netText_iff (n : NetStat) (rest : Bytes) (more : List Token) :
    lex (netText n ++ rest) = some (n.json.tokens ++ more) ↔
      Plain n.iface ∧ lex rest = some more := by
  have text : netText n ++ rest = 0x7B :: (key "iface" ++ 0x22 :: (n.iface ++ 0x22 :: 0x2C ::
      (key "rx_bytes" ++ (decimalInt n.rxBytes ++ 0x2C ::
      (key "tx_bytes" ++ (decimalInt n.txBytes ++ 0x7D :: rest)))))) := by
    simp only [netText, List.flatten_cons, List.flatten_nil, List.append_assoc, List.cons_append,
      List.nil_append, List.append_nil]
  have tokens : n.json.tokens ++ more = .mark 0x7B ::
      .string (ascii "iface") :: colon :: .string n.iface :: .mark 0x2C ::
      .string (ascii "rx_bytes") :: colon :: .number n.rxBytes :: .mark 0x2C ::
      .string (ascii "tx_bytes") :: colon :: .number n.txBytes :: .mark 0x7D :: more := rfl
  rw [text, tokens, lex_mark_iff rfl, lex_name_field_iff (by decide),
    lex_field_iff (by decide) (numeral_decimalInt _) rfl,
    lex_field_iff (by decide) (numeral_decimalInt _) rfl]

end Fields

/-! Text that is ASCII. -/

def Ascii (text : Bytes) : Prop := ∀ b ∈ text, b ≤ 0x7F

instance (text : Bytes) : Decidable (Ascii text) :=
  inferInstanceAs (Decidable (∀ b ∈ text, b ≤ 0x7F))

theorem ascii_key {name : String} (letters : Ascii (ascii name)) : Ascii (key name) := by
  intro b member
  rcases List.mem_cons.mp member with rfl | inside
  · decide
  · rcases List.mem_append.mp inside with letter | last
    · exact letters b letter
    · rcases List.mem_cons.mp last with rfl | last
      · decide
      · rw [List.mem_singleton.mp last]
        decide

theorem Numeral.ascii {text : Bytes} {v : ℚ} (numeral : Numeral text v) : Ascii text := by
  intro b member
  have number := numeral.bytes b member
  simp only [numberByte, Bool.or_eq_true, decide_eq_true_eq] at number
  rcases number with ((((digit | rfl) | rfl) | rfl) | rfl) | rfl
  · have range := isDigit_iff.mp digit
    exact UInt8.le_iff_toNat_le.mpr (range.2.trans (by decide))
  · decide
  · decide
  · decide
  · decide
  · decide

theorem valid_cons_iff {b : UInt8} (low : b ≤ 0x7F) (rest : Bytes) :
    Utf8.Valid (b :: rest) ↔ Utf8.Valid rest :=
  Utf8.valid_ascii_append (List.forall_mem_singleton.mpr low) rest

theorem valid_field_iff {name : String} {text : Bytes} (letters : Ascii (ascii name))
    (digits : Ascii text) (rest : Bytes) :
    Utf8.Valid (key name ++ (text ++ rest)) ↔ Utf8.Valid rest := by
  rw [Utf8.valid_ascii_append (ascii_key letters), Utf8.valid_ascii_append digits]

theorem valid_diskText_iff (d : DiskStat) (rest : Bytes) :
    Utf8.Valid (diskText d ++ rest) ↔ Utf8.Valid d.name ∧ Utf8.Valid rest := by
  have digits (n : ℤ) : Ascii (decimalInt n) := (numeral_decimalInt n).ascii
  simp only [diskText, List.flatten_cons, List.flatten_nil, List.append_assoc, List.cons_append,
    List.nil_append, List.append_nil]
  rw [valid_cons_iff (by decide), Utf8.valid_ascii_append (ascii_key (by decide)),
    valid_cons_iff (by decide), Utf8.valid_append_cons_iff (by decide),
    valid_cons_iff (by decide), valid_field_iff (by decide) (digits _),
    valid_cons_iff (by decide), valid_field_iff (by decide) (digits _),
    valid_cons_iff (by decide), valid_field_iff (by decide) (digits _),
    valid_cons_iff (by decide), valid_field_iff (by decide) (digits _),
    valid_cons_iff (by decide)]

theorem valid_netText_iff (n : NetStat) (rest : Bytes) :
    Utf8.Valid (netText n ++ rest) ↔ Utf8.Valid n.iface ∧ Utf8.Valid rest := by
  have digits (n : ℤ) : Ascii (decimalInt n) := (numeral_decimalInt n).ascii
  simp only [netText, List.flatten_cons, List.flatten_nil, List.append_assoc, List.cons_append,
    List.nil_append, List.append_nil]
  rw [valid_cons_iff (by decide), Utf8.valid_ascii_append (ascii_key (by decide)),
    valid_cons_iff (by decide), Utf8.valid_append_cons_iff (by decide),
    valid_cons_iff (by decide), valid_field_iff (by decide) (digits _),
    valid_cons_iff (by decide), valid_field_iff (by decide) (digits _),
    valid_cons_iff (by decide)]

/-! The whole object. -/

theorem Snapshot.forall_names_iff (s : Snapshot) (good : Bytes → Prop) :
    (∀ name ∈ s.names, good name) ↔
      (∀ d ∈ s.disks, good d.name) ∧ ∀ n ∈ s.net, good n.iface := by
  rw [Snapshot.names, List.forall_mem_append, List.forall_mem_map, List.forall_mem_map]

theorem lex_toJson_iff (s : Snapshot) :
    lex (toJson .go s) = some s.json.tokens ↔ ∀ name ∈ s.names, Plain name := by
  have fixed (v : Hundredths) : Numeral (fmt2 .go v) v.value := numeral_fixed2 v
  simp only [toJson, List.flatten_cons, List.flatten_nil, List.cons_append, List.nil_append,
    List.append_nil]
  simp only [Snapshot.json, tokens, memberTokens, separator, comma, if_true, Bool.false_eq_true,
    if_false, List.cons_append, List.nil_append]
  rw [lex_mark_iff rfl, lex_field_iff (by decide) (fixed _) rfl,
    lex_field_iff (by decide) (fixed _) rfl, lex_field_iff (by decide) (fixed _) rfl,
    lex_field_iff (by decide) (fixed _) rfl, lex_field_iff (by decide) (fixed _) rfl,
    lex_field_iff (by decide) (fixed _) rfl,
    lex_field_iff (by decide) (numeral_decimalInt _) rfl,
    lex_field_iff (by decide) (numeral_decimalInt _) rfl,
    lex_field_iff (by decide) (numeral_decimalInt _) rfl,
    lex_field_iff (by decide) (numeral_decimalInt _) rfl,
    lex_field_iff (by decide) (numeral_decimalInt _) rfl,
    lex_key_iff (by decide), lex_mark_iff rfl, lex_listed_iff lex_diskText_iff, lex_mark_iff rfl,
    lex_key_iff (by decide), lex_mark_iff rfl, lex_listed_iff lex_netText_iff, lex_mark_iff rfl,
    lex_bool_field_iff (by decide), lex_field_iff (by decide) (fixed _) rfl,
    lex_field_iff (by decide) (fixed _) rfl, lex_field_iff (by decide) (fixed _) rfl,
    s.forall_names_iff, lex]
  exact and_congr_right' (and_iff_left rfl)

theorem valid_toJson_iff (s : Snapshot) :
    Utf8.Valid (toJson .go s) ↔ ∀ name ∈ s.names, Utf8.Valid name := by
  have fixed (v : Hundredths) : Ascii (fmt2 .go v) := (numeral_fixed2 v).ascii
  have digits (n : ℤ) : Ascii (decimalInt n) := (numeral_decimalInt n).ascii
  have word : Ascii (boolText s.psiAvailable) := by
    cases s.psiAvailable <;> decide
  simp only [toJson, List.flatten_cons, List.flatten_nil, List.cons_append, List.nil_append,
    List.append_nil]
  rw [valid_cons_iff (by decide), valid_field_iff (by decide) (fixed _),
    valid_cons_iff (by decide), valid_field_iff (by decide) (fixed _),
    valid_cons_iff (by decide), valid_field_iff (by decide) (fixed _),
    valid_cons_iff (by decide), valid_field_iff (by decide) (fixed _),
    valid_cons_iff (by decide), valid_field_iff (by decide) (fixed _),
    valid_cons_iff (by decide), valid_field_iff (by decide) (fixed _),
    valid_cons_iff (by decide), valid_field_iff (by decide) (digits _),
    valid_cons_iff (by decide), valid_field_iff (by decide) (digits _),
    valid_cons_iff (by decide), valid_field_iff (by decide) (digits _),
    valid_cons_iff (by decide), valid_field_iff (by decide) (digits _),
    valid_cons_iff (by decide), valid_field_iff (by decide) (digits _),
    valid_cons_iff (by decide), Utf8.valid_ascii_append (ascii_key (by decide)),
    valid_cons_iff (by decide), valid_listed_iff valid_diskText_iff,
    valid_cons_iff (by decide), valid_cons_iff (by decide),
    Utf8.valid_ascii_append (ascii_key (by decide)),
    valid_cons_iff (by decide), valid_listed_iff valid_netText_iff,
    valid_cons_iff (by decide), valid_cons_iff (by decide), valid_field_iff (by decide) word,
    valid_cons_iff (by decide), valid_field_iff (by decide) (fixed _),
    valid_cons_iff (by decide), valid_field_iff (by decide) (fixed _),
    valid_cons_iff (by decide), valid_field_iff (by decide) (fixed _),
    valid_cons_iff (by decide), s.forall_names_iff]
  exact and_congr_right' (and_iff_left Utf8.valid_nil)

/-- A number that the buffer cuts off has another of its bytes where its end should be. -/
theorem short_of_append {v : Hundredths} {b : UInt8} {one other : Bytes}
    (same : fmt2 .cpp v ++ b :: one = fmt2 .go v ++ b :: other) (stop : ¬ numberByte b) :
    (fixed2 v).length ≤ 63 ∧ one = other := by
  change (fixed2 v).take 63 ++ b :: one = fixed2 v ++ b :: other at same
  have short : (fixed2 v).length ≤ 63 := by
    by_contra long
    have at63 : ((fixed2 v).take 63 ++ b :: one)[63]? = (fixed2 v ++ b :: other)[63]? :=
      congrArg (fun text : Bytes => text[63]?) same
    have cut : ((fixed2 v).take 63).length = 63 := List.length_take_of_le (by omega)
    rw [List.getElem?_append_right cut.le, cut, List.getElem?_append_left (by omega)] at at63
    exact stop ((numeral_fixed2 v).bytes b (List.mem_of_getElem? at63.symm))
  rw [List.take_of_length_le short] at same
  exact ⟨short, (List.cons.inj (List.append_cancel_left same)).2⟩

theorem short_of_same {s : Snapshot} (same : toJson .cpp s = toJson .go s) :
    ∀ v ∈ s.decimals, (fixed2 v).length ≤ 63 := by
  simp only [toJson, List.flatten_cons, List.cons_append, List.nil_append, List.cons.injEq,
    true_and, List.append_cancel_left_eq] at same
  obtain ⟨util, same⟩ := short_of_append same (by decide)
  obtain ⟨user, same⟩ := short_of_append (List.append_cancel_left same) (by decide)
  obtain ⟨system, same⟩ := short_of_append (List.append_cancel_left same) (by decide)
  obtain ⟨one, same⟩ := short_of_append (List.append_cancel_left same) (by decide)
  obtain ⟨five, same⟩ := short_of_append (List.append_cancel_left same) (by decide)
  obtain ⟨fifteen, same⟩ := short_of_append (List.append_cancel_left same) (by decide)
  simp only [List.cons.injEq, true_and, List.append_cancel_left_eq] at same
  obtain ⟨cpu, same⟩ := short_of_append same (by decide)
  obtain ⟨mem, same⟩ := short_of_append (List.append_cancel_left same) (by decide)
  obtain ⟨io, -⟩ := short_of_append (List.append_cancel_left same) (by decide)
  intro v member
  simp only [Snapshot.decimals, List.mem_cons, List.not_mem_nil, or_false] at member
  rcases member with rfl | rfl | rfl | rfl | rfl | rfl | rfl | rfl | rfl
  · exact util
  · exact user
  · exact system
  · exact one
  · exact five
  · exact fifteen
  · exact cpu
  · exact mem
  · exact io

theorem fmt2_of_short {v : Hundredths} (short : (fixed2 v).length ≤ 63) (lang : Language) :
    fmt2 lang v = fixed2 v := by
  cases lang with
  | cpp => exact List.take_of_length_le short
  | rust | go => rfl

theorem toJson_of_short {s : Snapshot} (short : ∀ v ∈ s.decimals, (fixed2 v).length ≤ 63)
    (lang : Language) : toJson lang s = toJson .go s := by
  have same (v : Hundredths) (member : v ∈ s.decimals) : fmt2 lang v = fmt2 .go v :=
    fmt2_of_short (short v member) lang
  simp only [Snapshot.decimals, List.forall_mem_cons] at same
  obtain ⟨util, user, system, one, five, fifteen, cpu, mem, io, -⟩ := same
  rw [toJson, toJson, util, user, system, one, five, fifteen, cpu, mem, io]

/-- The object stands for the snapshot, in the three programs alike, exactly if it is clean. -/
theorem toJson_right_iff (s : Snapshot) : Right s ↔ Clean s := by
  constructor
  · rintro ⟨value, same⟩
    have denotes : Denotes (toJson .go s) s.json := (value .go s.json).mpr rfl
    exact ⟨(lex_toJson_iff s).mp denotes.tokens, (valid_toJson_iff s).mp denotes.valid,
      short_of_same (same .cpp .go)⟩
  · rintro ⟨plain, valid, short⟩
    have denotes : Denotes (toJson .go s) s.json :=
      ⟨(valid_toJson_iff s).mpr valid, (lex_toJson_iff s).mpr plain⟩
    refine ⟨fun lang v => ?_, fun one other => ?_⟩
    · rw [toJson_of_short short]
      constructor
      · intro other
        exact other.unique denotes
      · rintro rfl
        exact denotes
    · rw [toJson_of_short short, toJson_of_short short other]

/-- An interface whose name has a quote. -/
theorem not_right_quote : ¬ Right { net := [{ iface := ascii "a\"b" }] } := by
  intro right
  have denotes := (right.value .go _).mpr rfl
  have plain := (lex_toJson_iff _).mp denotes.tokens
  revert plain
  decide

end LinuxSys.Sysagent
