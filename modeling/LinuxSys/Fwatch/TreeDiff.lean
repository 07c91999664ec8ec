import LinuxSys.Fwatch.Snapshot
import LinuxSys.Fwatch.Tree
import LinuxSys.Lib.Numeral

/-! # Snapshots of fwatch v0 and their difference

A snapshot has a line for each regular file: its path, its size and its time of modification, with
spaces between. The line is read back from the right, since a path may have spaces. `diff` compares
a snapshot with a directory and counts what it prints.
-/

namespace LinuxSys.Fwatch.V0

open Lib

def space : UInt8 := 0x20

/-- `from_chars` knows no plus. -/
def intParser (lang : Language) : IntParser :=
  match lang with
  | .cpp => IntParser.fromChars64
  | .rust | .go => IntParser.parse64

/-- The path, the size and the time of modification of a line. -/
def fields (line : Bytes) : Option (Bytes × Bytes × Bytes) :=
  match splitLast? space line with
  | none => none
  | some (rest, mtime) =>
    match splitLast? space rest with
    | none => none
    | some (path, size) => if path = [] then none else some (path, size, mtime)

def parseLine (lang : Language) (line : Bytes) : Option (Bytes × Info) :=
  match fields line with
  | none => none
  | some (path, size, mtime) =>
    match (intParser lang).parse size, (intParser lang).parse mtime with
    | some size, some mtime => some (path, ⟨size, mtime⟩)
    | _, _ => none

def malformed (lineno : ℕ) : Bytes := ascii "malformed snapshot line " ++ decimal lineno

def parseLines (lang : Language) (lineno : ℕ) (tree : Tree) : List Bytes → Except Bytes Tree
  | [] => .ok tree
  | line :: rest =>
    if line = [] then parseLines lang (lineno + 1) tree rest
    else
      match parseLine lang line with
      | some (path, info) => parseLines lang (lineno + 1) (tree.insert path info) rest
      | none => .error (malformed lineno)

/-- What is behind the last newline is a line for C++ only if it is not empty. -/
def textLines (lang : Language) (text : Bytes) : List Bytes :=
  match lang with
  | .cpp => lines newline text
  | .rust | .go => (cutLines newline text).1 ++ [(cutLines newline text).2]

def parseSnapshot (lang : Language) (text : Bytes) : Except Bytes Tree :=
  parseLines lang 1 FiniteMap.empty (textLines lang text)

def sortedPaths (tree : Tree) : List Bytes := tree.keys.sort

def Info.text (info : Info) : Bytes :=
  decimalInt info.size ++ space :: decimalInt info.mtime

def fileLine (tree : Tree) (path : Bytes) : Bytes :=
  match tree.find path with
  | some info => path ++ space :: info.text ++ [newline]
  | none => []

def cmdSnapshot (lang : Language) (dir : Directory) (path : Bytes) : Except Bytes Bytes :=
  (scan lang dir path).map fun tree => (sortedPaths tree).flatMap (fileLine tree)

/-- Rust reads text only; the error has no number then. -/
def readFile (lang : Language) (path text : Bytes) : Except Bytes Bytes :=
  if lang = .rust ∧ Utf8.lossy text ≠ text then .error (fail (ascii "read snapshot") path 0)
  else .ok text

def sign : Kind → Bytes
  | .created => ascii "+ "
  | .deleted => ascii "- "
  | .modified => ascii "~ "

def verdict (old new : Option Info) : Option Kind :=
  match old, new with
  | none, _ => some .created
  | some _, none => some .deleted
  | some o, some n => if o ≠ n then some .modified else none

def changes (before after : Tree) : List (Kind × Bytes) :=
  ((before.keys ∪ after.keys).sort).filterMap fun path =>
    (verdict (before.find path) (after.find path)).map fun kind => (kind, path)

/-- The counters are 32 bits wide in C++ and Rust. -/
def countBits (lang : Language) : ℕ :=
  match lang with
  | .cpp | .rust => 32
  | .go => 64

def count (lang : Language) (kind : Kind) (printed : List (Kind × Bytes)) : Bytes :=
  decimalInt (toSigned (countBits lang) (printed.countP fun change => change.1 = kind))

def changeLine (change : Kind × Bytes) : Bytes := sign change.1 ++ change.2 ++ [newline]

def report (lang : Language) (printed : List (Kind × Bytes)) : Bytes :=
  printed.flatMap changeLine ++ ascii "fwatch: " ++ count lang .created printed ++
    ascii " added, " ++ count lang .deleted printed ++ ascii " removed, " ++
    count lang .modified printed ++ ascii " modified" ++ [newline]

def cmdDiff (lang : Language) (dir : Directory) (dirPath snapshotPath text : Bytes) :
    Except Bytes Bytes :=
  match readFile lang snapshotPath text with
  | .error text => .error text
  | .ok text =>
    match parseSnapshot lang text with
    | .error text => .error text
    | .ok before => (scan lang dir dirPath).map fun after => report lang (changes before after)

/-! What the programs are for. -/

/-- The map that a snapshot file stands for. -/
def load (lang : Language) (path text : Bytes) : Except Bytes Tree :=
  (readFile lang path text).bind (parseSnapshot lang)

/-- A snapshot is read back as the regular files of the tree. -/
def Inverts (lang : Language) (dir : Directory) : Prop :=
  ∀ dirPath path, ∃ text tree, cmdSnapshot lang dir dirPath = .ok text ∧
    load lang path text = .ok tree ∧
      ∀ file info, tree.find file = some info ↔ fileAt dir.entries file = some info

def Changed (before : Tree) (dir : Directory) (path : Bytes) : Kind → Prop
  | .created => before.find path = none ∧ ∃ info, fileAt dir.entries path = some info
  | .deleted => (∃ info, before.find path = some info) ∧ fileAt dir.entries path = none
  | .modified => ∃ old new, before.find path = some old ∧ fileAt dir.entries path = some new ∧
    old ≠ new

def summary (number : Kind → ℤ) : Bytes :=
  ascii "fwatch: " ++ decimalInt (number .created) ++ ascii " added, " ++
    decimalInt (number .deleted) ++ ascii " removed, " ++ decimalInt (number .modified) ++
    ascii " modified"

/-- The program can tell all paths, and comes to no name that is too long. -/
structure Readable (lang : Language) (dir : Directory) : Prop where
  told : ∀ file info, fileAt dir.entries file = some info → shown lang file = file
  short : ¬ TooLong lang dir.entries

/-- Every line that is not empty is a path and two integers. -/
def Snapshot (text : Bytes) : Prop :=
  ∀ line ∈ lines newline text, line ≠ [] → ∃ path size mtime, fields line = some (path, size, mtime) ∧
    (IntParser.parse64.parse size).isSome ∧ (IntParser.parse64.parse mtime).isSome

section Texts

variable {lang : Language} {text : Bytes} {tree : Tree}

theorem parseLine_eq_some_iff {line path : Bytes} {info : Info} :
    parseLine lang line = some (path, info) ↔ ∃ size mtime, fields line = some (path, size, mtime) ∧
      (intParser lang).parse size = some info.size ∧
        (intParser lang).parse mtime = some info.mtime := by
  rw [parseLine]
  constructor
  · intro read
    split at read
    · cases read
    · next parts =>
      split at read
      · next size mtime =>
        cases read
        exact ⟨_, _, parts, size, mtime⟩
      · cases read
  · rintro ⟨size, mtime, parts, sizes, times⟩
    simp only [parts, sizes, times]

/-- The pairs of the lines that are not empty. -/
def Pairs (lang : Language) (all : List Bytes) (pairs : List (Bytes × Info)) : Prop :=
  List.Forall₂ (fun line pair => parseLine lang line = some pair)
    (all.filter fun line => line ≠ []) pairs

theorem parseLines_eq_ok_iff {lineno : ℕ} {all : List Bytes} {next : Tree} :
    parseLines lang lineno tree all = .ok next ↔ ∃ pairs, Pairs lang all pairs ∧
      next = pairs.foldl (fun m pair => m.insert pair.1 pair.2) tree := by
  induction all generalizing lineno tree with
  | nil =>
    rw [parseLines]
    constructor
    · rintro ⟨⟩
      exact ⟨[], .nil, rfl⟩
    · rintro ⟨pairs, read, rfl⟩
      cases read
      rfl
  | cons line rest ih =>
    rw [parseLines]
    split
    · next none =>
      have skip : (line :: rest).filter (fun line => line ≠ []) =
          rest.filter fun line => line ≠ [] := List.filter_cons_of_neg (by simpa using none)
      rw [ih]
      simp only [Pairs, skip]
    · next full =>
      have keep : (line :: rest).filter (fun line => line ≠ []) =
          line :: rest.filter fun line => line ≠ [] := List.filter_cons_of_pos (by simpa using full)
      simp only [Pairs, keep, List.forall₂_cons_left_iff]
      split
      · next path info read =>
        rw [ih]
        constructor
        · rintro ⟨pairs, later, rfl⟩
          exact ⟨_, ⟨_, pairs, read, later, rfl⟩, rfl⟩
        · rintro ⟨_, ⟨pair, pairs, first, later, rfl⟩, rfl⟩
          rw [read] at first
          cases first
          exact ⟨pairs, later, rfl⟩
      · next none =>
        refine iff_of_false (by rintro ⟨⟩) ?_
        rintro ⟨_, ⟨pair, pairs, first, later, rfl⟩, rfl⟩
        rw [none] at first
        cases first

/-- The programs cut a text into the same lines, but for an empty one. -/
theorem filter_textLines (lang : Language) (text : Bytes) :
    (textLines lang text).filter (fun line => line ≠ []) =
      (lines newline text).filter fun line => line ≠ [] := by
  have split : ((cutLines newline text).1 ++ [(cutLines newline text).2]).filter
      (fun line => line ≠ []) = (lines newline text).filter fun line => line ≠ [] := by
    rw [lines_eq_cutLines, List.filter_append, List.filter_append]
    split
    · next none =>
      rw [none]
      rfl
    · rfl
  cases lang with
  | cpp => rfl
  | rust | go => exact split

theorem parseSnapshot_eq_ok_iff : parseSnapshot lang text = .ok tree ↔
    ∃ pairs, Pairs lang (lines newline text) pairs ∧ tree = FiniteMap.ofList pairs := by
  rw [parseSnapshot, parseLines_eq_ok_iff]
  simp only [Pairs, filter_textLines]
  rfl

/-- What a file must be for the program to read it. -/
def Legible (lang : Language) (text : Bytes) : Prop := lang = .rust → Utf8.Valid text

theorem load_eq_ok_iff {path : Bytes} : load lang path text = .ok tree ↔ Legible lang text ∧
    ∃ pairs, Pairs lang (lines newline text) pairs ∧ tree = FiniteMap.ofList pairs := by
  rw [← parseSnapshot_eq_ok_iff, load, readFile, Legible, ← Utf8.lossy_eq_self_iff]
  split
  · next foreign =>
    refine iff_of_false (by rintro ⟨⟩) fun read => foreign.2 (read.1 foreign.1)
  · next legible =>
    rw [not_and, not_not] at legible
    exact (and_iff_right legible).symm

end Texts

/-! A snapshot is read back. -/

section Inverts

variable {lang : Language} {dir : Directory} {tree : Tree}

def lineOf (entry : Bytes × Info) : Bytes := entry.1 ++ space :: entry.2.text

theorem not_mem_text {info : Info} {b : UInt8} (other : isDigit b = false) (sign : b ≠ 0x2D)
    (blank : b ≠ space) : b ∉ info.text :=
  List.not_mem_append (not_mem_decimalInt other sign)
    (List.not_mem_cons_of_ne_of_not_mem blank (not_mem_decimalInt other sign))

theorem fields_lineOf {path : Bytes} (full : path ≠ []) (info : Info) :
    fields (lineOf (path, info)) = some (path, decimalInt info.size, decimalInt info.mtime) := by
  have last := splitLast?_append (path ++ space :: decimalInt info.size)
    (not_mem_decimalInt (n := info.mtime) (b := space) (by decide) (by decide))
  have first := splitLast?_append path
    (not_mem_decimalInt (n := info.size) (b := space) (by decide) (by decide))
  have whole : lineOf (path, info) =
      (path ++ space :: decimalInt info.size) ++ space :: decimalInt info.mtime := by
    simp only [lineOf, Info.text, List.append_assoc, List.cons_append]
  rw [fields, whole, last]
  dsimp only
  rw [first]
  exact if_neg full

theorem parseLine_lineOf {path : Bytes} (full : path ≠ []) {info : Info} (fits : info.Fits) :
    parseLine lang (lineOf (path, info)) = some (path, info) := by
  rw [parseLine_eq_some_iff]
  refine ⟨_, _, fields_lineOf full info, ?_, ?_⟩
  · cases lang with
    | cpp | rust | go => exact IntParser.parse_decimalInt rfl fits.size.1 fits.size.2
  · cases lang with
    | cpp | rust | go => exact IntParser.parse_decimalInt rfl fits.mtime.1 fits.mtime.2

/-- The entries of a map, by path. -/
def entriesOf (tree : Tree) : List (Bytes × Info) :=
  (sortedPaths tree).filterMap fun path => (tree.find path).map fun info => (path, info)

theorem mem_entriesOf_iff {path : Bytes} {info : Info} :
    (path, info) ∈ entriesOf tree ↔ tree.find path = some info := by
  rw [entriesOf, List.mem_filterMap]
  constructor
  · rintro ⟨other, -, same⟩
    obtain ⟨info', found, same⟩ := Option.map_eq_some_iff.mp same
    cases same
    exact found
  · intro found
    refine ⟨path, (Finset.mem_sort _).mpr ((tree.mem_keys path).mpr ?_), ?_⟩
    · rw [found]
      rfl
    · rw [found]
      rfl

theorem nodup_entriesOf (tree : Tree) : ((entriesOf tree).map Prod.fst).Nodup := by
  have distinct : (sortedPaths tree).Nodup := Finset.sort_nodup _ _
  rw [entriesOf, List.map_filterMap]
  refine distinct.filterMap fun one other path here there => ?_
  obtain ⟨entry, found, rfl⟩ := Option.map_eq_some_iff.mp here
  obtain ⟨entry', found', same⟩ := Option.map_eq_some_iff.mp there
  obtain ⟨info, _, rfl⟩ := Option.map_eq_some_iff.mp found
  obtain ⟨info', _, rfl⟩ := Option.map_eq_some_iff.mp found'
  exact same.symm

theorem flatMap_fileLine (tree : Tree) : (sortedPaths tree).flatMap (fileLine tree) =
    (entriesOf tree).flatMap fun entry => lineOf entry ++ [newline] := by
  rw [entriesOf]
  generalize sortedPaths tree = paths
  induction paths with
  | nil => rfl
  | cons path paths ih =>
    rw [List.flatMap_cons, ih, fileLine]
    cases found : tree.find path with
    | none =>
      rw [List.filterMap_cons_none (by rw [found]; rfl)]
      rfl
    | some info =>
      rw [List.filterMap_cons_some (by rw [found]; rfl), List.flatMap_cons]
      rfl

theorem find_entriesOf (tree : Tree) : (FiniteMap.ofList (entriesOf tree)).find = tree.find := by
  funext path
  refine Option.ext fun info => ?_
  rw [FiniteMap.find_ofList (nodup_entriesOf tree), mem_entriesOf_iff]

theorem newline_not_mem_lineOf {path : Bytes} (clean : newline ∉ path) (info : Info) :
    newline ∉ lineOf (path, info) :=
  List.not_mem_append clean (List.not_mem_cons_of_ne_of_not_mem (by decide)
    (not_mem_text (by decide) (by decide) (by decide)))

theorem valid_text (info : Info) : Utf8.Valid info.text := by
  apply Utf8.valid_of_ascii
  intro b member
  have number {n : ℤ} (inside : b ∈ decimalInt n) : b ≤ 0x7F := by
    rcases isDigit_or_minus_of_mem inside with digit | rfl
    · exact UInt8.le_iff_toNat_le.mpr ((isDigit_iff.mp digit).2.trans (by decide))
    · decide
  rcases List.mem_append.mp member with size | rest
  · exact number size
  · rcases List.mem_cons.mp rest with rfl | mtime
    · decide
    · exact number mtime

theorem valid_snapshot {entries : List (Bytes × Info)}
    (paths : ∀ entry ∈ entries, Utf8.Valid entry.1) :
    Utf8.Valid (entries.flatMap fun entry => lineOf entry ++ [newline]) := by
  induction entries with
  | nil => exact Utf8.valid_nil
  | cons entry entries ih =>
    obtain ⟨first, later⟩ := List.forall_mem_cons.mp paths
    rw [List.flatMap_cons, List.append_assoc, List.singleton_append,
      Utf8.valid_append_cons_iff (by decide), lineOf, Utf8.valid_append_cons_iff (by decide)]
    exact ⟨⟨first, valid_text entry.2⟩, ih later⟩

/-- What the lines of a snapshot are read back as. -/
theorem load_snapshot {dirPath : Bytes} (scanned : scan lang dir dirPath = .ok tree) (path : Bytes) :
    load lang path ((sortedPaths tree).flatMap (fileLine tree)) =
      .ok (FiniteMap.ofList (entriesOf tree)) := by
  have known (entry : Bytes × Info) (member : entry ∈ entriesOf tree) :
      fileAt dir.entries entry.1 = some entry.2 ∧ shown lang entry.1 = entry.1 :=
    (find_of_scan scanned entry.1 entry.2).mp (mem_entriesOf_iff.mp member)
  have cut := @cutLines_flatMap _ _ newline _ lineOf (entriesOf tree) fun entry member =>
    newline_not_mem_lineOf (of_fileAt dir.proper (known entry member).1).2.1 entry.2
  rw [flatMap_fileLine, load_eq_ok_iff]
  constructor
  · rintro rfl
    exact valid_snapshot fun entry member =>
      (Utf8.lossy_eq_self_iff entry.1).mp (known entry member).2
  · refine ⟨entriesOf tree, ?_, rfl⟩
    have full : ((entriesOf tree).map lineOf).filter (fun line => line ≠ []) =
        (entriesOf tree).map lineOf := by
      rw [List.filter_eq_self]
      intro line member
      obtain ⟨entry, -, rfl⟩ := List.mem_map.mp member
      exact decide_eq_true (List.append_ne_nil_of_right_ne_nil _ (List.cons_ne_nil _ _))
    rw [Pairs, lines_eq_cutLines, cut, if_pos rfl, List.append_nil, full, List.forall₂_map_left_iff,
      List.forall₂_same]
    intro entry member
    obtain ⟨full, -, fits⟩ := of_fileAt dir.proper (known entry member).1
    exact parseLine_lineOf full fits

/-- A program reads its snapshots back exactly if it can tell the paths. -/
theorem inverts_iff : Inverts lang dir ↔ Readable lang dir := by
  constructor
  · intro inverts
    obtain ⟨text, next, written, read, holds⟩ := inverts [] []
    rw [cmdSnapshot] at written
    cases scanned : scan lang dir [] with
    | error text =>
      rw [scanned] at written
      cases written
    | ok tree =>
      rw [scanned] at written
      cases written
      rw [load_snapshot scanned] at read
      cases read
      refine ⟨fun file info held => ?_, ?_⟩
      · rw [← holds, find_entriesOf, find_of_scan scanned] at held
        exact held.2
      · rw [← scan_isOk_iff dir [], scanned]
        rfl
  · intro readable dirPath path
    have ok := (scan_isOk_iff dir dirPath).mpr readable.short
    cases scanned : scan lang dir dirPath with
    | error text =>
      rw [scanned] at ok
      cases ok
    | ok tree =>
      refine ⟨_, _, ?_, load_snapshot scanned path, fun file info => ?_⟩
      · rw [cmdSnapshot, scanned]
        rfl
      · rw [find_entriesOf, find_of_scan scanned]
        exact and_iff_left_of_imp (readable.told file info)

end Inverts

/-! The changes. -/

section Changes

variable {lang : Language} {dir : Directory} {before after : Tree}

theorem pairwise_changes : ((changes before after).map Prod.snd).Pairwise (· < ·) := by
  rw [changes, List.pairwise_map, List.pairwise_filterMap]
  refine (pairwise_lt_sort _).imp fun less first found second found' => ?_
  obtain ⟨_, _, rfl⟩ := Option.map_eq_some_iff.mp found
  obtain ⟨_, _, rfl⟩ := Option.map_eq_some_iff.mp found'
  exact less

theorem mem_changes_iff {kind : Kind} {path : Bytes} : (kind, path) ∈ changes before after ↔
    ((before.find path).isSome ∨ (after.find path).isSome) ∧
      verdict (before.find path) (after.find path) = some kind := by
  rw [changes, List.mem_filterMap, ← before.mem_keys, ← after.mem_keys, ← Finset.mem_union]
  constructor
  · rintro ⟨other, inside, found⟩
    obtain ⟨k, compared, same⟩ := Option.map_eq_some_iff.mp found
    cases same
    exact ⟨(Finset.mem_sort _).mp inside, compared⟩
  · rintro ⟨inside, compared⟩
    refine ⟨path, (Finset.mem_sort _).mpr inside, ?_⟩
    rw [compared]
    rfl

theorem verdict_eq_some_iff {old new : Option Info} {kind : Kind} :
    (old.isSome ∨ new.isSome) ∧ verdict old new = some kind ↔
      match kind with
      | .created => old = none ∧ ∃ info, new = some info
      | .deleted => (∃ info, old = some info) ∧ new = none
      | .modified => ∃ o n, old = some o ∧ new = some n ∧ o ≠ n := by
  cases old <;> cases new <;> cases kind <;> simp [verdict]

theorem mem_changes_iff_changed (same : ∀ path, after.find path = fileAt dir.entries path)
    {kind : Kind} {path : Bytes} :
    (kind, path) ∈ changes before after ↔ Changed before dir path kind := by
  rw [mem_changes_iff, verdict_eq_some_iff, same]
  cases kind with
  | created | deleted | modified => rfl

/-! Different reports are different texts. -/

/-- What `diff` prints, with some counts. -/
def told (printed : List (Kind × Bytes)) (number : Kind → ℤ) : Bytes :=
  printed.flatMap changeLine ++ summary number ++ [newline]

end Changes

/-- A directory with one file, whose name is not UTF-8. -/
def foreign : Directory where
  entries := [([0xFF], .file ⟨1, 0⟩)]
  proper := by
    refine .intro (by decide) ?_ ?_ ?_
    · intro entry member
      rw [List.mem_singleton.mp member]
      exact ⟨by decide, by decide, by decide, by decide⟩
    · intro name info member
      cases List.mem_singleton.mp member
      exact ⟨by decide, by decide⟩
    · intro name sub member
      cases List.mem_singleton.mp member

end LinuxSys.Fwatch.V0
