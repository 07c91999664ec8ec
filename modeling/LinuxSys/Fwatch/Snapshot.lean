import Mathlib.Data.Finset.Sort
import LinuxSys.Fwatch.Merge
import LinuxSys.Language
import LinuxSys.Lib.Decimal
import LinuxSys.Lib.FiniteMap
import LinuxSys.Lib.Lines
import LinuxSys.Lib.Utf8
import LinuxSys.Lib.Wrap

/-! # Snapshots of fwatch and their difference

`snapshot` prints one line for each regular file of a directory: its name, its size and its time of
modification in nanoseconds, with tabs between. `diff` reads two such files back into maps from
names to the text behind the name, splitting each line at its last two tabs, and prints one line for
each name that only one of the maps has or whose texts differ. The Rust program makes a text of a
name, which replaces what is not UTF-8.
-/

namespace LinuxSys.Fwatch

open Lib

def tab : UInt8 := 9

def newline : UInt8 := 10

/-- What `lstat` says of a regular file. -/
structure FileState where
  name : Bytes
  size : ℕ
  sec : ℤ
  nsec : ℕ
deriving DecidableEq, Repr

/-- The time of modification, computed in 64 bits. -/
def FileState.mtimeNs (f : FileState) : ℤ :=
  toSigned 64 (toSigned 64 (f.sec * 1000000000) + f.nsec)

/-- The regular files of a directory, in the order in which it lists them. -/
structure Directory where
  files : List FileState
  distinct : (files.map FileState.name).Nodup
  named : ∀ f ∈ files, f.name ≠ [] ∧ 0 ∉ f.name ∧ 0x2F ∉ f.name ∧ newline ∉ f.name
  fits : ∀ f ∈ files, -2 ^ 63 ≤ f.sec * 1000000000 + f.nsec ∧
    f.sec * 1000000000 + f.nsec < 2 ^ 63

/-- What a program keeps of a file. -/
structure Entry where
  name : Bytes
  size : ℕ
  mtimeNs : ℤ
deriving DecidableEq, Repr

def entryOf (lang : Language) (f : FileState) : Entry where
  name := match lang with
    | .rust => Utf8.lossy f.name
    | .cpp | .go => f.name
  size := f.size
  mtimeNs := f.mtimeNs

/-- C++ and Go sort by the name, Rust sorts the triples. -/
def entryLe (lang : Language) (a b : Entry) : Bool :=
  match lang with
  | .rust => a.name < b.name || (a.name = b.name && (a.size < b.size ||
      (a.size = b.size && a.mtimeNs ≤ b.mtimeNs)))
  | .cpp | .go => a.name ≤ b.name

def scanDir (lang : Language) (dir : Directory) : List Entry :=
  (dir.files.map (entryOf lang)).mergeSort (entryLe lang)

def Entry.stat (e : Entry) : Bytes := decimal e.size ++ tab :: decimalInt e.mtimeNs

def Entry.line (e : Entry) : Bytes := e.name ++ tab :: e.stat

def cmdSnapshot (lang : Language) (dir : Directory) : Bytes :=
  (scanDir lang dir).flatMap fun e => e.line ++ [newline]

def dropCr (line : Bytes) : Bytes := if line.getLast? = some 0x0D then line.dropLast else line

/-- The lines of a text: `getline`, `Split` and `lines` differ in what ends a line and in what
follows the last end. -/
def textLines (lang : Language) (text : Bytes) : List Bytes :=
  let (whole, last) := cutLines newline text
  match lang with
  | .cpp => whole ++ if last = [] then [] else [last]
  | .go => whole ++ [last]
  | .rust => whole.map dropCr ++ if last = [] then [] else [last]

/-- A line is split at its last two tabs. -/
def parseLine (lang : Language) (line : Bytes) : Option (Bytes × Bytes) :=
  match splitLast? tab line with
  | none => none
  | some (rest, mtime) =>
    if rest = [] then none
    else
      match splitLast? tab rest with
      | none => none
      | some (name, size) =>
        if lang = .rust ∧ name = [] then none else some (name, size ++ tab :: mtime)

/-- Rust reads text only. -/
def loadSnapshot (lang : Language) (text : Bytes) : Option (FiniteMap Bytes Bytes) :=
  if lang = .rust ∧ Utf8.lossy text ≠ text then none
  else some (FiniteMap.ofList ((textLines lang text).filterMap (parseLine lang)))

def kindName : Kind → Bytes
  | .created => ascii "created"
  | .modified => ascii "modified"
  | .deleted => ascii "deleted"

def changeLine (change : Kind × Bytes) : Bytes :=
  kindName change.1 ++ ascii " " ++ change.2 ++ ascii "\n"

/-- What `diff` finds for a name. -/
def compare (old new : Option Bytes) : Option Kind :=
  match old, new with
  | none, _ => some .created
  | some _, none => some .deleted
  | some o, some n => if o ≠ n then some .modified else none

/-! Names are sorted byte by byte. -/

instance isTrans_bytes : IsTrans Bytes fun a b => a ≤ b := inferInstance

instance antisymm_bytes : Std.Antisymm fun a b : Bytes => a ≤ b := inferInstance

instance total_bytes : Std.Total fun a b : Bytes => a ≤ b := inferInstance

def changes (old new : FiniteMap Bytes Bytes) : List (Kind × Bytes) :=
  ((old.keys ∪ new.keys).sort).filterMap fun name =>
    (compare (old.find name) (new.find name)).map fun kind => (kind, name)

def cmdDiff (lang : Language) (oldText newText : Bytes) : Option Bytes :=
  (loadSnapshot lang oldText).bind fun old =>
    (loadSnapshot lang newText).map fun new => (changes old new).flatMap changeLine

/-! What the programs are for. -/

/-- The size and the time of modification of a name in a directory. -/
def Directory.Holds (dir : Directory) (name : Bytes) (size : ℕ) (mtime : ℤ) : Prop :=
  ∃ f ∈ dir.files, f.name = name ∧ f.size = size ∧ f.sec * 1000000000 + f.nsec = mtime

/-- How a name changed between two states of a directory. -/
def Changed (old new : Directory) (name : Bytes) : Kind → Prop
  | .created =>
    (∀ size mtime, ¬ old.Holds name size mtime) ∧ ∃ size mtime, new.Holds name size mtime
  | .deleted =>
    (∃ size mtime, old.Holds name size mtime) ∧ ∀ size mtime, ¬ new.Holds name size mtime
  | .modified => ∃ size mtime size' mtime', old.Holds name size mtime ∧
    new.Holds name size' mtime' ∧ (size ≠ size' ∨ mtime ≠ mtime')

/-- A snapshot is read back as what the directory held. -/
def Inverts (lang : Language) (dir : Directory) : Prop :=
  ∃ map, loadSnapshot lang (cmdSnapshot lang dir) = some map ∧
    ∀ name text, map.find name = some text ↔
      ∃ size mtime, dir.Holds name size mtime ∧ text = decimal size ++ tab :: decimalInt mtime

/-- The lines that `diff` prints are those of the changes, by name. -/
def DiffTells (lang : Language) (old new : Directory) : Prop :=
  Inverts lang old ∧ Inverts lang new ∧
    ∃ printed : List (Kind × Bytes), cmdDiff lang (cmdSnapshot lang old) (cmdSnapshot lang new) =
        some (printed.flatMap changeLine) ∧
      (printed.map Prod.snd).Pairwise (· < ·) ∧
      ∀ kind name, (kind, name) ∈ printed ↔ Changed old new name kind

/-! A line is read back. -/

theorem FileState.mtimeNs_eq {f : FileState} (least : -2 ^ 63 ≤ f.sec * 1000000000 + f.nsec)
    (most : f.sec * 1000000000 + f.nsec < 2 ^ 63) :
    f.mtimeNs = f.sec * 1000000000 + f.nsec := by
  rw [mtimeNs, toSigned, toSigned, Int.bmod_add_bmod]
  exact toSigned_of_lt least most

theorem not_mem_decimal {n : ℕ} {b : UInt8} (other : isDigit b = false) : b ∉ decimal n := by
  intro member
  rw [isDigit_of_mem_decimal member] at other
  cases other

theorem not_mem_decimalInt {n : ℤ} {b : UInt8} (other : isDigit b = false) (sign : b ≠ 0x2D) :
    b ∉ decimalInt n := by
  intro member
  rcases isDigit_or_minus_of_mem member with digit | minus
  · rw [digit] at other
    cases other
  · exact sign minus

namespace Entry

theorem line_eq (e : Entry) :
    e.line = (e.name ++ tab :: decimal e.size) ++ tab :: decimalInt e.mtimeNs := by
  simp [line, stat]

theorem parseLine_line (lang : Language) {e : Entry} (named : e.name ≠ []) :
    parseLine lang e.line = some (e.name, e.stat) := by
  have last := splitLast?_append (e.name ++ tab :: decimal e.size)
    (not_mem_decimalInt (n := e.mtimeNs) (b := tab) (by decide) (by decide))
  have first := splitLast?_append e.name (not_mem_decimal (n := e.size) (b := tab) (by decide))
  rw [parseLine, line_eq, last]
  simp only [first]
  rw [if_neg (by simp), if_neg fun both => named both.2]
  rfl

theorem newline_not_mem_line {e : Entry} (fresh : newline ∉ e.name) : newline ∉ e.line := by
  have size := not_mem_decimal (n := e.size) (b := newline) (by decide)
  have time := not_mem_decimalInt (n := e.mtimeNs) (b := newline) (by decide) (by decide)
  have other : newline ≠ tab := by decide
  simp [line, stat, fresh, size, time, other]

theorem dropCr_line (e : Entry) : dropCr e.line = e.line := by
  refine if_neg fun ends => ?_
  have parts : e.line = (e.name ++ tab :: decimal e.size ++ [tab]) ++ decimalInt e.mtimeNs := by
    rw [line_eq, List.append_assoc _ [tab], List.singleton_append]
  rw [parts, List.getLast?_append_of_ne_nil _ (decimalInt_ne_nil e.mtimeNs)] at ends
  exact not_mem_decimalInt (by decide) (by decide) (List.mem_of_getLast? ends)

/-- The size and the time of modification can be told from the text behind a name. -/
theorem stat_injective {size size' : ℕ} {mtime mtime' : ℤ}
    (same : decimal size ++ tab :: decimalInt mtime = decimal size' ++ tab :: decimalInt mtime') :
    size = size' ∧ mtime = mtime' := by
  have first := splitLast?_append (decimal size)
    (not_mem_decimalInt (n := mtime) (b := tab) (by decide) (by decide))
  have second := splitLast?_append (decimal size')
    (not_mem_decimalInt (n := mtime') (b := tab) (by decide) (by decide))
  rw [same, second] at first
  obtain ⟨sizes, times⟩ := Prod.mk.inj (Option.some.inj first)
  exact ⟨decimal_injective sizes.symm, decimalInt_injective times.symm⟩

theorem valid_stat (e : Entry) : Utf8.Valid e.stat := by
  rw [stat, Utf8.valid_append_cons_iff (by decide)]
  constructor
  · apply Utf8.valid_of_ascii
    intro b member
    have digit := isDigit_iff.mp (isDigit_of_mem_decimal member)
    rw [UInt8.le_iff_toNat_le]
    exact digit.2.trans (by decide)
  · apply Utf8.valid_of_ascii
    intro b member
    rcases isDigit_or_minus_of_mem member with digit | rfl
    · rw [UInt8.le_iff_toNat_le]
      exact (isDigit_iff.mp digit).2.trans (by decide)
    · decide

end Entry

/-! A snapshot is read back. -/

variable {lang : Language} {dir : Directory}

theorem mem_scanDir {e : Entry} : e ∈ scanDir lang dir ↔ ∃ f ∈ dir.files, entryOf lang f = e := by
  rw [scanDir, List.mem_mergeSort, List.mem_map]

theorem entryOf_rust_name (f : FileState) : (entryOf .rust f).name = Utf8.lossy f.name := rfl

/-- The name of an entry is one that a line can hold. -/
theorem named_of_mem_scanDir {e : Entry} (member : e ∈ scanDir lang dir) :
    e.name ≠ [] ∧ newline ∉ e.name := by
  obtain ⟨f, inside, rfl⟩ := mem_scanDir.mp member
  obtain ⟨named, _, _, fresh⟩ := dir.named f inside
  cases lang with
  | cpp => exact ⟨named, fresh⟩
  | go => exact ⟨named, fresh⟩
  | rust =>
    constructor
    · intro none
      have longer := Utf8.length_le_lossy f.name
      rw [← entryOf_rust_name, none, List.length_nil] at longer
      exact named (List.length_eq_zero_iff.mp (Nat.le_zero.mp longer))
    · rw [entryOf_rust_name, Utf8.mem_lossy_iff (by decide)]
      exact fresh

theorem textLines_cmdSnapshot : textLines lang (cmdSnapshot lang dir) =
    (scanDir lang dir).map Entry.line ++ if lang = .go then [[]] else [] := by
  have cut := @cutLines_flatMap _ _ newline _ Entry.line (scanDir lang dir)
    fun e member => Entry.newline_not_mem_line (named_of_mem_scanDir member).2
  rw [textLines, cmdSnapshot, cut]
  cases lang with
  | cpp => rfl
  | go => rfl
  | rust =>
    have kept : (scanDir .rust dir).map (dropCr ∘ Entry.line) =
        (scanDir .rust dir).map Entry.line := List.map_congr_left fun e _ => e.dropCr_line
    simp only [List.map_map, kept]
    rfl

theorem filterMap_textLines : (textLines lang (cmdSnapshot lang dir)).filterMap (parseLine lang) =
    (scanDir lang dir).map fun e => (e.name, e.stat) := by
  have lines : ((scanDir lang dir).map Entry.line).filterMap (parseLine lang) =
      (scanDir lang dir).map fun e => (e.name, e.stat) := by
    rw [List.filterMap_map, ← List.filterMap_eq_map]
    exact List.filterMap_congr fun e member =>
      Entry.parseLine_line lang (named_of_mem_scanDir member).1
  have none : (if lang = .go then [[]] else []).filterMap (parseLine lang) = [] := by
    split <;> rfl
  rw [textLines_cmdSnapshot, List.filterMap_append, lines, none, List.append_nil]

/-- What the Rust program writes is text. -/
theorem valid_cmdSnapshot_rust (dir : Directory) : Utf8.Valid (cmdSnapshot .rust dir) := by
  have names : ∀ e ∈ scanDir .rust dir, Utf8.Valid e.name := by
    intro e member
    obtain ⟨f, _, rfl⟩ := mem_scanDir.mp member
    exact Utf8.valid_lossy f.name
  rw [cmdSnapshot]
  generalize scanDir .rust dir = entries at names
  induction entries with
  | nil => exact Utf8.valid_nil
  | cons e rest ih =>
    rw [List.flatMap_cons, List.append_assoc, List.singleton_append,
      Utf8.valid_append_cons_iff (by decide), Entry.line, Utf8.valid_append_cons_iff (by decide)]
    exact ⟨⟨names e List.mem_cons_self, e.valid_stat⟩,
      ih fun other member => names other (List.mem_cons_of_mem e member)⟩

theorem loadSnapshot_cmdSnapshot (lang : Language) (dir : Directory) :
    loadSnapshot lang (cmdSnapshot lang dir) =
      some (FiniteMap.ofList ((scanDir lang dir).map fun e => (e.name, e.stat))) := by
  rw [loadSnapshot, if_neg, filterMap_textLines]
  rintro ⟨rfl, changed⟩
  exact changed (Utf8.lossy_of_valid (valid_cmdSnapshot_rust dir))

/-- Rust's texts are the names themselves. -/
def Readable (lang : Language) (dir : Directory) : Prop :=
  lang = .rust → ∀ f ∈ dir.files, Utf8.Valid f.name

theorem entryOf_name (readable : Readable lang dir) {f : FileState} (member : f ∈ dir.files) :
    (entryOf lang f).name = f.name := by
  cases lang with
  | cpp => rfl
  | go => rfl
  | rust => exact Utf8.lossy_of_valid (readable rfl f member)

theorem entryOf_stat {f : FileState} (member : f ∈ dir.files) : (entryOf lang f).stat =
    decimal f.size ++ tab :: decimalInt (f.sec * 1000000000 + f.nsec) := by
  have fits := dir.fits f member
  rw [← FileState.mtimeNs_eq fits.1 fits.2]
  rfl

/-- What a directory holds, as the texts of a snapshot. -/
theorem mem_pairs_iff (readable : Readable lang dir) {name text : Bytes} :
    (name, text) ∈ (scanDir lang dir).map (fun e => (e.name, e.stat)) ↔
      ∃ size mtime, dir.Holds name size mtime ∧ text = decimal size ++ tab :: decimalInt mtime := by
  rw [List.mem_map]
  constructor
  · rintro ⟨e, member, same⟩
    obtain ⟨f, inside, rfl⟩ := mem_scanDir.mp member
    obtain ⟨rfl, rfl⟩ := Prod.mk.inj same
    exact ⟨_, _, ⟨f, inside, (entryOf_name readable inside).symm, rfl, rfl⟩, entryOf_stat inside⟩
  · rintro ⟨_, _, ⟨f, inside, rfl, rfl, rfl⟩, rfl⟩
    refine ⟨entryOf lang f, mem_scanDir.mpr ⟨f, inside, rfl⟩, ?_⟩
    rw [entryOf_name readable inside, entryOf_stat inside]

theorem nodup_scanDir (readable : Readable lang dir) :
    (((scanDir lang dir).map fun e => (e.name, e.stat)).map Prod.fst).Nodup := by
  have perm : ((scanDir lang dir).map Entry.name).Perm (dir.files.map FileState.name) := by
    have sorted :=
      (List.mergeSort_perm (dir.files.map (entryOf lang)) (entryLe lang)).map Entry.name
    rw [List.map_map] at sorted
    have names : dir.files.map (Entry.name ∘ entryOf lang) = dir.files.map FileState.name :=
      List.map_congr_left fun f inside => entryOf_name readable inside
    rw [names] at sorted
    exact sorted
  rw [List.map_map]
  exact perm.nodup_iff.mpr dir.distinct

/-- The map of a directory. -/
theorem inverts_iff : Inverts lang dir ↔ Readable lang dir := by
  constructor
  · rintro ⟨map, loaded, holds⟩ rfl f inside
    rw [loadSnapshot_cmdSnapshot] at loaded
    obtain rfl := Option.some.inj loaded
    have found := (holds f.name _).mpr ⟨f.size, _, ⟨f, inside, rfl, rfl, rfl⟩, rfl⟩
    obtain ⟨e, member, same⟩ := List.mem_map.mp (FiniteMap.mem_of_find_ofList found)
    obtain ⟨g, _, rfl⟩ := mem_scanDir.mp member
    rw [← (Prod.mk.inj same).1]
    exact Utf8.valid_lossy g.name
  · intro readable
    exact ⟨_, loadSnapshot_cmdSnapshot lang dir, fun name text =>
      (FiniteMap.find_ofList (nodup_scanDir readable)).trans (mem_pairs_iff readable)⟩

/-! The difference of two maps. -/

theorem pairwise_lt_sort (names : Finset Bytes) : names.sort.Pairwise (· < ·) := by
  have both := (Finset.pairwise_sort names (· ≤ ·)).and (Finset.sort_nodup names (· ≤ ·))
  exact both.imp fun ⟨le, ne⟩ => Std.lt_of_le_of_ne le ne

variable {old new : FiniteMap Bytes Bytes}

theorem pairwise_changes : ((changes old new).map Prod.snd).Pairwise (· < ·) := by
  rw [changes, List.pairwise_map, List.pairwise_filterMap]
  refine (pairwise_lt_sort _).imp fun less first found second found' => ?_
  obtain ⟨_, _, rfl⟩ := Option.map_eq_some_iff.mp found
  obtain ⟨_, _, rfl⟩ := Option.map_eq_some_iff.mp found'
  exact less

theorem mem_changes_iff {kind : Kind} {name : Bytes} : (kind, name) ∈ changes old new ↔
    name ∈ old.keys ∪ new.keys ∧ compare (old.find name) (new.find name) = some kind := by
  rw [changes, List.mem_filterMap]
  constructor
  · rintro ⟨other, inside, found⟩
    obtain ⟨k, compared, same⟩ := Option.map_eq_some_iff.mp found
    obtain ⟨rfl, rfl⟩ := Prod.mk.inj same
    exact ⟨(Finset.mem_sort _).mp inside, compared⟩
  · rintro ⟨inside, found⟩
    exact ⟨name, (Finset.mem_sort _).mpr inside, by rw [found, Option.map_some]⟩

/-- The map of a snapshot that is read back. -/
def MapOf (dir : Directory) (map : FiniteMap Bytes Bytes) : Prop :=
  ∀ name text, map.find name = some text ↔
    ∃ size mtime, dir.Holds name size mtime ∧ text = decimal size ++ tab :: decimalInt mtime

theorem MapOf.find_eq_none_iff {map : FiniteMap Bytes Bytes} (holds : MapOf dir map)
    {name : Bytes} : map.find name = none ↔ ∀ size mtime, ¬ dir.Holds name size mtime := by
  rw [Option.eq_none_iff_forall_ne_some]
  constructor
  · intro none size mtime held
    exact none _ ((holds name _).mpr ⟨size, mtime, held, rfl⟩)
  · intro none text found
    obtain ⟨size, mtime, held, _⟩ := (holds name text).mp found
    exact none size mtime held

theorem MapOf.isSome_iff {map : FiniteMap Bytes Bytes} (holds : MapOf dir map) {name : Bytes} :
    (map.find name).isSome ↔ ∃ size mtime, dir.Holds name size mtime := by
  rw [Option.isSome_iff_exists]
  constructor
  · rintro ⟨text, found⟩
    obtain ⟨size, mtime, held, _⟩ := (holds name text).mp found
    exact ⟨size, mtime, held⟩
  · rintro ⟨size, mtime, held⟩
    exact ⟨_, (holds name _).mpr ⟨size, mtime, held, rfl⟩⟩

/-- What `diff` prints for a name that one of the maps has. -/
theorem compare_eq_some_iff {o n : Option Bytes} {kind : Kind} :
    (o.isSome ∨ n.isSome) ∧ compare o n = some kind ↔
      match kind with
      | .created => o = none ∧ n.isSome
      | .deleted => o.isSome ∧ n = none
      | .modified => ∃ a b, o = some a ∧ n = some b ∧ a ≠ b := by
  cases o <;> cases n <;> cases kind <;> simp [compare]

/-- The changes between two maps are those between the directories. -/
theorem mem_changes_iff_changed {before after : Directory} (first : MapOf before old)
    (second : MapOf after new) {kind : Kind} {name : Bytes} :
    (kind, name) ∈ changes old new ↔ Changed before after name kind := by
  rw [mem_changes_iff, Finset.mem_union, old.mem_keys, new.mem_keys, compare_eq_some_iff]
  cases kind with
  | created => exact and_congr first.find_eq_none_iff second.isSome_iff
  | deleted => exact and_congr first.isSome_iff second.find_eq_none_iff
  | modified =>
    constructor
    · rintro ⟨a, b, found, found', differ⟩
      obtain ⟨size, mtime, held, rfl⟩ := (first name a).mp found
      obtain ⟨size', mtime', held', rfl⟩ := (second name b).mp found'
      refine ⟨size, mtime, size', mtime', held, held', ?_⟩
      by_contra! same
      exact differ (by rw [same.1, same.2])
    · rintro ⟨size, mtime, size', mtime', held, held', differ⟩
      refine ⟨_, _, (first name _).mpr ⟨size, mtime, held, rfl⟩,
        (second name _).mpr ⟨size', mtime', held', rfl⟩, fun same => ?_⟩
      obtain ⟨sizes, times⟩ := Entry.stat_injective same
      rcases differ with size | time
      · exact size sizes
      · exact time times

/-- Each program does what it is for exactly when it can tell the names. -/
theorem faithful_iff_readable {before after : Directory} :
    DiffTells lang before after ↔ Readable lang before ∧ Readable lang after := by
  constructor
  · rintro ⟨first, second, _⟩
    exact ⟨inverts_iff.mp first, inverts_iff.mp second⟩
  · rintro ⟨first, second⟩
    have inverted := inverts_iff.mpr first
    have inverted' := inverts_iff.mpr second
    obtain ⟨old, loaded, holds⟩ := inverted
    obtain ⟨new, loaded', holds'⟩ := inverted'
    refine ⟨⟨old, loaded, holds⟩, ⟨new, loaded', holds'⟩, changes old new, ?_, pairwise_changes,
      fun kind name => mem_changes_iff_changed holds holds'⟩
    rw [cmdDiff, loaded, loaded']
    rfl

/-- Programs that can tell the names print the same. -/
theorem cmdDiff_eq {one other : Language} {before after : Directory}
    (first : Readable one before ∧ Readable one after)
    (second : Readable other before ∧ Readable other after) :
    cmdDiff one (cmdSnapshot one before) (cmdSnapshot one after) =
      cmdDiff other (cmdSnapshot other before) (cmdSnapshot other after) := by
  have same {dir : Directory} (left : Readable one dir) (right : Readable other dir) :
      loadSnapshot one (cmdSnapshot one dir) = loadSnapshot other (cmdSnapshot other dir) := by
    obtain ⟨map, loaded, holds⟩ := inverts_iff.mpr left
    obtain ⟨map', loaded', holds'⟩ := inverts_iff.mpr right
    rw [loaded, loaded']
    refine congrArg some (FiniteMap.ext_find (funext fun name => Option.ext fun text => ?_))
    rw [holds, holds']
  rw [cmdDiff, cmdDiff, same first.1 second.1, same first.2 second.2]

/-- What `snapshot` and `diff` are for, in the three programs alike. -/
structure Agree (before after : Directory) : Prop where
  faithful : ∀ lang, DiffTells lang before after
  same : ∀ one other, cmdDiff one (cmdSnapshot one before) (cmdSnapshot one after) =
    cmdDiff other (cmdSnapshot other before) (cmdSnapshot other after)

/-- C++ and Go are right on all names, the three programs exactly on those that are UTF-8. -/
theorem snapshot_diff_iff (before after : Directory) :
    (Agree before after ↔ ∀ f ∈ before.files ++ after.files, Utf8.Valid f.name) ∧
      ∀ lang, lang ≠ .rust → DiffTells lang before after := by
  refine ⟨⟨fun agree f member => ?_, fun valid => ?_⟩, fun lang other => ?_⟩
  · have readable := faithful_iff_readable.mp (agree.faithful .rust)
    rcases List.mem_append.mp member with old | new
    · exact readable.1 rfl f old
    · exact readable.2 rfl f new
  · have readable (lang : Language) : Readable lang before ∧ Readable lang after :=
      ⟨fun _ f inside => valid f (List.mem_append_left _ inside),
        fun _ f inside => valid f (List.mem_append_right _ inside)⟩
    exact ⟨fun lang => faithful_iff_readable.mpr (readable lang),
      fun one other => cmdDiff_eq (readable one) (readable other)⟩
  · exact faithful_iff_readable.mpr ⟨fun rust => absurd rust other, fun rust => absurd rust other⟩

def empty : Directory := ⟨[], List.nodup_nil, by simp, by simp⟩

/-- A file whose name is not UTF-8. -/
def foreign : Directory where
  files := [⟨[0xFF], 1, 0, 0⟩]
  distinct := by decide
  named := by decide
  fits := by decide

/-- Read back, the new file is called U+FFFD. -/
theorem not_agree_foreign : ¬ Agree empty foreign := by
  intro agree
  have readable := inverts_iff.mp (agree.faithful .rust).2.1
  have valid := readable rfl _ List.mem_cons_self
  exact Utf8.not_valid_cons_of_none rfl valid

end LinuxSys.Fwatch
