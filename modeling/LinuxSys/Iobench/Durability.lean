import LinuxSys.Language
import LinuxSys.Lib.Machine
import LinuxSys.Lib.Numeral
import LinuxSys.Lib.WriteBack

/-! # What `iobench` has made durable

`iobench` of ch08 writes blocks to a file and calls `fdatasync` after every so many of them, once at
the end, or never. The kernel writes the file back meanwhile as it likes, and a crash may come at
any moment. The C++ build aligns its block by an allocation that can fail.
-/

namespace LinuxSys.Iobench

open Lib

def kBlockSize : ℕ := 64 * 1024

def kMiB : ℕ := 1024 * 1024

inductive Mode where
  | buffered
  | fsyncEvery
  | direct
deriving DecidableEq, Repr

/-- What `parse_positive` returns. -/
abbrev Positive := { n : ℕ // 0 < n ∧ n < 2 ^ 64 }

structure Options where
  mode : Mode
  every : Positive
  sizeMb : Positive
  file : Bytes
deriving DecidableEq, Repr

/-- Only Rust takes a plus sign. -/
def parsePositive (lang : Language) (text : Bytes) : Option Positive :=
  match (IntParser.mk (lang = .rust) false 0 (2 ^ 64 - 1)).parse text with
  | some n => if h : 0 < n.toNat ∧ n.toNat < 2 ^ 64 then some ⟨n.toNat, h⟩ else none
  | none => none

def parseMode (text : Bytes) : Option Mode :=
  if text = ascii "buffered" then some .buffered
  else if text = ascii "fsync-every" then some .fsyncEvery
  else if text = ascii "direct" then some .direct
  else none

/-- The options while they are read. -/
structure Reading where
  mode : Option Mode := none
  every : Positive := ⟨8, by decide⟩
  sizeMb : Positive := ⟨64, by decide⟩
  file : Option Bytes := none
deriving DecidableEq, Repr

/-- Rust keeps an empty file name; the others read one as no name. -/
def Reading.name (o : Reading) (lang : Language) : Option Bytes :=
  if lang = .rust then o.file else o.file.filter (· ≠ [])

def parseFrom (lang : Language) (o : Reading) : List Bytes → Option Options
  | [] => o.mode.bind fun mode => (o.name lang).map fun file => ⟨mode, o.every, o.sizeMb, file⟩
  | a :: rest =>
    if a = ascii "--mode" ∨ a = ascii "--every" ∨ a = ascii "--size-mb" then
      match rest with
      | [] => none
      | v :: rest =>
        if a = ascii "--mode" then
          (parseMode v).bind fun mode => parseFrom lang { o with mode := some mode } rest
        else if a = ascii "--every" then
          (parsePositive lang v).bind fun n => parseFrom lang { o with every := n } rest
        else (parsePositive lang v).bind fun n => parseFrom lang { o with sizeMb := n } rest
    else if (ascii "--").isPrefixOf a then none
    else if (o.name lang).isSome then none
    else parseFrom lang { o with file := some a } rest

def parseArgs (lang : Language) (args : List Bytes) : Option Options := parseFrom lang {} args

example : parseArgs .go [ascii "--mode", ascii "direct", ascii "--every", ascii "+8", ascii "f"] =
    none := by decide

def makeBlock : Bytes := (List.range kBlockSize).map UInt8.ofNat

/-- A `size_t` product. -/
def Options.nblocks (o : Options) : ℕ := o.sizeMb * (kMiB / kBlockSize) % 2 ^ 64

def Options.bytes (o : Options) : ℕ := o.sizeMb * kMiB % 2 ^ 64

/-- The first blocks of the file. -/
def blocks (n : ℕ) : Bytes := (List.replicate n makeBlock).flatten

def Options.contents (o : Options) : Bytes := blocks o.nblocks

section Blocks

variable {i n : ℕ}

theorem length_blocks (n : ℕ) : (blocks n).length = n * kBlockSize := by
  rw [blocks, List.length_flatten, List.map_replicate, List.sum_replicate_nat, makeBlock,
    List.length_map, List.length_range]

theorem blocks_succ (n : ℕ) : blocks (n + 1) = blocks n ++ makeBlock := by
  rw [blocks, List.replicate_succ', List.flatten_append, List.flatten_singleton, blocks]

theorem blocks_isPrefix (le : i ≤ n) : blocks i <+: blocks n := by
  obtain ⟨k, rfl⟩ := Nat.exists_eq_add_of_le le
  rw [blocks, blocks, List.replicate_add, List.flatten_append]
  exact List.prefix_append _ _

theorem length_makeBlock : makeBlock.length = kBlockSize := by
  rw [makeBlock, List.length_map, List.length_range]

end Blocks

inductive Errno where
  | intr
  | inval
  | other
deriving DecidableEq, Repr

/-- What a system call returns. -/
inductive Answer where
  | ok
  | count (n : ℕ)
  | err (e : Errno)
deriving DecidableEq, Repr

/-- Where `run` stands. -/
inductive Phase where
  | opening
  | allocating
  | writing (i : ℕ) (left : Bytes)
  | syncing (i : ℕ)
  | trailing
  | closing
  | exited (code : ℕ)
deriving DecidableEq, Repr

/-- The first line that `run` prints is kept as its number of bytes. -/
structure Process where
  phase : Phase
  opened : Bool
  file : WriteBack UInt8
  reported : Option ℕ

inductive Act where
  | flush (i : ℕ)
  | resize (n : ℕ)
  | returns (a : Answer)
deriving DecidableEq, Repr

namespace Options

variable (o : Options)

/-- Behind the loop and the trailing sync. -/
def report (s : Process) : Process :=
  { s with
    phase := if o.mode = .buffered then .closing else .exited 0
    reported := some o.bytes }

/-- The head of the loop. -/
def iterate (i : ℕ) (s : Process) : Process :=
  if i < o.nblocks then { s with phase := .writing i makeBlock }
  else if o.mode = .fsyncEvery ∧ o.nblocks % o.every ≠ 0 then { s with phase := .trailing }
  else o.report s

/-- Behind `write_all`. -/
def wrote (i : ℕ) (s : Process) : Process :=
  if o.mode = .fsyncEvery ∧ (i + 1) % o.every = 0 then { s with phase := .syncing (i + 1) }
  else o.iterate (i + 1) s

def returns (lang : Language) (s : Process) (a : Answer) : Option Process :=
  let failed := some { s with phase := .exited 1 }
  match s.phase, a with
  | .opening, .ok =>
    some { s with
      phase := .allocating
      opened := true
      file := s.file.truncate }
  | .opening, .err e =>
    if o.mode = .direct ∧ e = .inval then some { s with phase := .exited 4 } else failed
  | .allocating, .ok => some (o.iterate 0 s)
  | .allocating, .err _ => if lang = .cpp then failed else none
  | .writing i left, .count n =>
    if n ≤ left.length then
      let s := { s with file := s.file.append (left.take n) }
      if left.drop n = [] then some (o.wrote i s)
      else some { s with phase := .writing i (left.drop n) }
    else none
  | .writing _ _, .err e => if e = .intr then some s else failed
  | .syncing i, .ok => some (o.iterate i { s with file := s.file.sync })
  | .syncing _, .err _ => failed
  | .trailing, .ok => some (o.report { s with file := s.file.sync })
  | .trailing, .err _ => failed
  | .closing, .ok =>
    some { s with
      phase := .exited 0
      file := s.file.sync }
  | .closing, .err _ => failed
  | _, _ => none

def step (lang : Language) (s : Process) : Act → Option Process
  | .flush i => some { s with file := s.file.flush i }
  | .resize n => some { s with file := s.file.resize n }
  | .returns a => o.returns lang s a

/-- A run on a file that may have been there before. -/
def machine (lang : Language) (file : WriteBack UInt8) : Machine Process Act :=
  ⟨⟨.opening, false, file, none⟩, o.step lang⟩

theorem machine_step (lang : Language) (file : WriteBack UInt8) :
    (o.machine lang file).step = o.step lang := rfl

theorem iterate_phase (i : ℕ) (s : Process) (phase : Phase) :
    o.iterate i { s with phase := phase } = o.iterate i s := by
  rw [iterate, iterate, report, report]

/-- A block is written at once where no sync follows. -/
theorem step_block (lang : Language) (never : o.mode ≠ .fsyncEvery) (i : ℕ) (s : Process) :
    o.step lang { s with phase := .writing i makeBlock } (.returns (.count kBlockSize)) =
      some (o.iterate (i + 1) { s with file := s.file.append makeBlock }) := by
  simp only [step, returns]
  rw [if_pos length_makeBlock.ge, if_pos (List.drop_eq_nil_iff.mpr length_makeBlock.le),
    List.take_of_length_le length_makeBlock.le, wrote, if_neg fun due => never due.1]
  exact congrArg some (o.iterate_phase (i + 1) { s with file := s.file.append makeBlock } _)

theorem bytes_eq : o.bytes = o.contents.length % 2 ^ 64 := by
  rw [bytes, contents, length_blocks, nblocks, Nat.mod_mul_mod, Nat.mul_assoc]
  rfl

end Options

def main (lang : Language) (args : List Bytes) (file : WriteBack UInt8) : Machine Process Act :=
  match parseArgs lang args with
  | some o => o.machine lang file
  | none => ⟨⟨.exited 2, false, file, none⟩, fun _ _ => none⟩

/-- How much of the file has been written at a phase, and how much of that has been synced. -/
inductive AtPhase (o : Options) (s : Process) (synced : ℕ) : Prop where
  | allocating (phase : s.phase = .allocating) (silent : s.reported = none)
      (empty : s.file.cached = [])
  | writing (i : ℕ) (left : Bytes) (phase : s.phase = .writing i left) (silent : s.reported = none)
      (more : i < o.nblocks) (rest : s.file.cached ++ left = blocks (i + 1))
      (sync : o.mode = .fsyncEvery → synced = i / o.every * o.every * kBlockSize)
  | syncing (i : ℕ) (phase : s.phase = .syncing (i + 1)) (silent : s.reported = none)
      (more : i < o.nblocks) (full : s.file.cached = blocks (i + 1)) (due : (i + 1) % o.every = 0)
      (sync : synced = i / o.every * o.every * kBlockSize)
  | trailing (phase : s.phase = .trailing) (silent : s.reported = none)
      (mode : o.mode = .fsyncEvery) (full : s.file.cached = o.contents)
      (sync : synced = o.nblocks / o.every * o.every * kBlockSize)
  | closing (phase : s.phase = .closing) (line : s.reported = some o.bytes)
      (mode : o.mode = .buffered) (full : s.file.cached = o.contents)
  | stopped (code : ℕ) (phase : s.phase = .exited (code + 1))
      (line : s.reported = none ∨ o.mode = .buffered ∧ s.reported = some o.bytes)
      (written : s.file.cached <+: o.contents)
      (lost : o.mode = .fsyncEvery → s.file.cached.length ≤ synced + o.every * kBlockSize)
  | finished (phase : s.phase = .exited 0) (line : s.reported = some o.bytes)
      (full : s.file.cached = o.contents)
      (sync : o.mode = .buffered ∨ o.mode = .fsyncEvery ∧ o.nblocks ≠ 0 →
        synced = o.contents.length ∧ s.file.size ≤ o.contents.length)
      (lost : o.mode = .fsyncEvery → o.contents.length ≤ synced + o.every * kBlockSize)

inductive Fine (o : Options) (s : Process) : Prop where
  | before (closed : s.opened = false) (silent : s.reported = none)
      (phase : s.phase = .opening ∨ ∃ code, s.phase = .exited (code + 1))
  | after (opened : s.opened = true) (synced : ℕ) (durable : s.file.Durable synced)
      (place : AtPhase o s synced)

section Steps

variable {o : Options} {s t : Process} {synced i : ℕ}

/-- A block is at most `every` blocks behind the last sync. -/
theorem within_every (o : Options) (i : ℕ) :
    (i + 1) * kBlockSize ≤ i / o.every * o.every * kBlockSize + o.every * kBlockSize := by
  rw [← Nat.add_mul]
  exact Nat.mul_le_mul_right _ (Nat.lt_div_mul_add o.every.2.1)

namespace AtPhase

theorem written (place : AtPhase o s synced) : s.file.cached <+: o.contents := by
  cases place with
  | allocating _ _ empty => exact empty ▸ List.nil_prefix
  | writing i left _ _ more rest _ =>
    exact List.IsPrefix.trans ⟨left, rest⟩ (blocks_isPrefix more)
  | syncing i _ _ more full _ _ => exact full ▸ blocks_isPrefix more
  | trailing _ _ _ full _ => exact full ▸ List.prefix_rfl
  | closing _ _ _ full => exact full ▸ List.prefix_rfl
  | stopped _ _ _ written _ => exact written
  | finished _ _ full _ _ => exact full ▸ List.prefix_rfl

/-- What a crash can lose. -/
theorem lost (place : AtPhase o s synced) (mode : o.mode = .fsyncEvery) :
    s.file.cached.length ≤ synced + o.every * kBlockSize := by
  cases place with
  | allocating _ _ empty => simp [empty]
  | writing i left _ _ _ rest sync =>
    have length := congrArg List.length rest
    rw [List.length_append, length_blocks] at length
    have bound := within_every o i
    rw [sync mode]
    omega
  | syncing i _ _ _ full _ sync =>
    rw [full, length_blocks, sync]
    exact within_every o i
  | trailing _ _ _ full sync =>
    rw [full, Options.contents, length_blocks, sync, ← Nat.add_mul]
    exact Nat.mul_le_mul_right _ (Nat.lt_div_mul_add o.every.2.1).le
  | closing _ _ other _ => exact absurd (mode.symm.trans other) Mode.noConfusion
  | stopped _ _ _ _ lost => exact lost mode
  | finished _ _ full _ lost => exact full ▸ lost mode

/-- The kernel's own writes change the disk only. -/
theorem kernel (place : AtPhase o s synced) {file : WriteBack UInt8}
    (same : file.cached = s.file.cached)
    (size : s.file.size ≤ s.file.cached.length → file.size ≤ s.file.cached.length) :
    AtPhase o { s with file := file } synced := by
  cases place with
  | allocating phase silent empty => exact .allocating phase silent (same.trans empty)
  | writing i left phase silent more rest sync =>
    exact .writing i left phase silent more (same.symm ▸ rest) sync
  | syncing i phase silent more full due sync =>
    exact .syncing i phase silent more (same.trans full) due sync
  | trailing phase silent mode full sync => exact .trailing phase silent mode (same.trans full) sync
  | closing phase line mode full => exact .closing phase line mode (same.trans full)
  | stopped code phase line written lost =>
    exact .stopped code phase line (same.symm ▸ written) (same.symm ▸ lost)
  | finished phase line full sync lost =>
    refine .finished phase line (same.trans full) (fun due => ?_) lost
    rw [full] at size
    exact ⟨(sync due).1, size (sync due).2⟩

end AtPhase

/-- Behind the trailing sync. -/
theorem fine_report (opened : s.opened = true) (full : s.file.cached = o.contents)
    (durable : s.file.Durable synced)
    (sync : o.mode = .fsyncEvery ∧ o.nblocks ≠ 0 → synced = o.contents.length)
    (lost : o.mode = .fsyncEvery → o.contents.length ≤ synced + o.every * kBlockSize) :
    Fine o (o.report s) := by
  refine .after opened synced durable ?_
  by_cases buffered : o.mode = .buffered
  · refine .closing ?_ rfl buffered full
    rw [Options.report, if_pos buffered]
  · refine .finished ?_ rfl full (fun due => ?_) lost
    · rw [Options.report, if_neg buffered]
    · have all := sync (due.resolve_left buffered)
      have some : 0 < o.contents.length := by
        rw [Options.contents, length_blocks]
        exact Nat.mul_pos (Nat.pos_of_ne_zero (due.resolve_left buffered).2) (by decide)
      refine ⟨all, ?_⟩
      have settled := durable.settled (by omega)
      rwa [full] at settled

/-- At the head of the loop. -/
theorem fine_iterate (opened : s.opened = true) (silent : s.reported = none)
    (reached : i ≤ o.nblocks) (full : s.file.cached = blocks i) (durable : s.file.Durable synced)
    (sync : o.mode = .fsyncEvery → synced = i / o.every * o.every * kBlockSize) :
    Fine o (o.iterate i s) := by
  rw [Options.iterate]
  split_ifs with more trails
  · refine .after opened synced durable (.writing i makeBlock rfl silent more ?_ sync)
    rw [blocks_succ]
    exact congrArg (· ++ makeBlock) full
  · obtain rfl : i = o.nblocks := by omega
    exact .after opened synced durable (.trailing rfl silent trails.1 full (sync trails.1))
  · obtain rfl : i = o.nblocks := by omega
    have length : o.contents.length = o.nblocks * kBlockSize := length_blocks _
    refine fine_report opened full durable (fun due => ?_) fun mode => ?_
    · have even : o.nblocks % o.every = 0 := by
        by_contra odd
        exact trails ⟨due.1, odd⟩
      rw [sync due.1, length, Nat.div_mul_cancel (Nat.dvd_of_mod_eq_zero even)]
    · rw [sync mode, length, ← Nat.add_mul]
      exact Nat.mul_le_mul_right _ (Nat.lt_div_mul_add o.every.2.1).le

/-- Behind `write_all`. -/
theorem fine_wrote (opened : s.opened = true) (silent : s.reported = none) (more : i < o.nblocks)
    (full : s.file.cached = blocks (i + 1)) (durable : s.file.Durable synced)
    (sync : o.mode = .fsyncEvery → synced = i / o.every * o.every * kBlockSize) :
    Fine o (o.wrote i s) := by
  rw [Options.wrote]
  split_ifs with due
  · exact .after opened synced durable (.syncing i rfl silent more full due.2 (sync due.1))
  · refine fine_iterate opened silent more full durable fun mode => ?_
    have odd : ¬ (o.every : ℕ) ∣ i + 1 := fun divides =>
      due ⟨mode, Nat.mod_eq_zero_of_dvd divides⟩
    rw [sync mode, Nat.succ_div_of_not_dvd odd]

/-- A call fails and the program gives up. -/
theorem fine_stop (opened : s.opened = true) (durable : s.file.Durable synced)
    (place : AtPhase o s synced) (line : s.reported = none ∨ o.mode = .buffered ∧
      s.reported = some o.bytes) : Fine o { s with phase := .exited 1 } :=
  .after opened synced durable (.stopped 0 rfl line place.written place.lost)

variable {lang : Language}

theorem fine_returns {a : Answer} (fine : Fine o s) (taken : o.returns lang s a = some t) :
    Fine o t := by
  cases fine with
  | before closed silent phase =>
    rcases phase with opening | ⟨code, exited⟩
    · simp only [Options.returns, opening] at taken
      cases a with
      | ok =>
        obtain rfl := Option.some.inj taken
        exact .after rfl 0 WriteBack.durable_zero (.allocating rfl silent rfl)
      | count n => cases taken
      | err e =>
        simp only at taken
        split_ifs at taken
        · obtain rfl := Option.some.inj taken
          exact .before closed silent (.inr ⟨3, rfl⟩)
        · obtain rfl := Option.some.inj taken
          exact .before closed silent (.inr ⟨0, rfl⟩)
    · simp only [Options.returns, exited] at taken
      cases a <;> cases taken
  | after opened synced durable place =>
    have stop (line : s.reported = none ∨ o.mode = .buffered ∧ s.reported = some o.bytes) :=
      fine_stop opened durable place line
    cases place with
    | allocating phase silent empty =>
      simp only [Options.returns, phase] at taken
      cases a with
      | ok =>
        obtain rfl := Option.some.inj taken
        exact fine_iterate opened silent (Nat.zero_le _) empty WriteBack.durable_zero
          fun _ => by simp
      | count n => cases taken
      | err e =>
        simp only at taken
        split_ifs at taken
        obtain rfl := Option.some.inj taken
        exact stop (.inl silent)
    | writing i left phase silent more rest sync =>
      simp only [Options.returns, phase] at taken
      cases a with
      | ok => cases taken
      | count n =>
        simp only at taken
        split_ifs at taken with fits all
        · obtain rfl := Option.some.inj taken
          refine fine_wrote opened silent more ?_ (durable.append _) sync
          rw [← rest, ← List.take_append_drop n left, all, List.append_nil, List.take_take]
          simp [WriteBack.append]
        · obtain rfl := Option.some.inj taken
          refine .after opened synced (durable.append _)
            (.writing i _ rfl silent more ?_ sync)
          rw [← rest, WriteBack.append, List.append_assoc, List.take_append_drop]
      | err e =>
        simp only at taken
        split_ifs at taken
        · obtain rfl := Option.some.inj taken
          exact .after opened synced durable (.writing i left phase silent more rest sync)
        · obtain rfl := Option.some.inj taken
          exact stop (.inl silent)
    | syncing i phase silent more full due sync =>
      simp only [Options.returns, phase] at taken
      cases a with
      | ok =>
        obtain rfl := Option.some.inj taken
        refine fine_iterate opened silent more full (WriteBack.durable_sync _) fun _ => ?_
        rw [full, length_blocks, Nat.div_mul_cancel (Nat.dvd_of_mod_eq_zero due)]
      | count n => cases taken
      | err e =>
        obtain rfl := Option.some.inj taken
        exact stop (.inl silent)
    | trailing phase silent mode full sync =>
      simp only [Options.returns, phase] at taken
      cases a with
      | ok =>
        obtain rfl := Option.some.inj taken
        refine fine_report opened full (WriteBack.durable_sync _) (fun _ => ?_) fun _ => ?_
        · rw [full]
        · rw [full]
          exact Nat.le_add_right _ _
      | count n => cases taken
      | err e =>
        obtain rfl := Option.some.inj taken
        exact stop (.inl silent)
    | closing phase line mode full =>
      simp only [Options.returns, phase] at taken
      cases a with
      | ok =>
        obtain rfl := Option.some.inj taken
        refine .after opened _ (WriteBack.durable_sync _) (.finished rfl line full (fun _ => ?_) ?_)
        · exact ⟨congrArg List.length full, (congrArg List.length full).le⟩
        · intro other
          cases mode.symm.trans other
      | count n => cases taken
      | err e =>
        obtain rfl := Option.some.inj taken
        exact stop (.inr ⟨mode, line⟩)
    | stopped code phase _ _ _ =>
      simp only [Options.returns, phase] at taken
      cases a <;> cases taken
    | finished phase _ _ _ _ =>
      simp only [Options.returns, phase] at taken
      cases a <;> cases taken

theorem fine_step {a : Act} (fine : Fine o s) (taken : o.step lang s a = some t) : Fine o t := by
  cases a with
  | returns a => exact fine_returns fine taken
  | flush i =>
    obtain rfl := Option.some.inj taken
    cases fine with
    | before closed silent phase => exact .before closed silent phase
    | after opened synced durable place =>
      refine .after opened synced (durable.flush i)
        (place.kernel (s.file.cached_flush i) fun fits => ?_)
      rwa [WriteBack.size_flush]
  | resize n =>
    obtain rfl := Option.some.inj taken
    cases fine with
    | before closed silent phase => exact .before closed silent phase
    | after opened synced durable place =>
      exact .after opened synced (durable.resize n)
        (place.kernel (s.file.cached_resize n) (s.file.size_resize n))

theorem fine_of_run {file : WriteBack UInt8} {acts : List Act}
    (run : (o.machine lang file).run? acts = some s) : Fine o s := by
  refine Machine.run?_keeps ?_ (fun s a t fine (taken : o.step lang s a = some t) => ?_) run
  · exact .before rfl rfl (.inl rfl)
  · exact fine_step fine taken

theorem Fine.reported {n : ℕ} (fine : Fine o s) (line : s.reported = some n) : n = o.bytes := by
  cases fine with
  | before _ silent _ => cases silent.symm.trans line
  | after _ synced _ place =>
    cases place with
    | allocating _ silent _ | writing _ _ _ silent _ _ _ | syncing _ _ silent _ _ _ _
    | trailing _ silent _ _ _ => cases silent.symm.trans line
    | closing _ other _ _ | finished _ other _ _ _ =>
      exact Option.some.inj (line.symm.trans other)
    | stopped _ _ either _ _ =>
      rcases either with silent | ⟨-, other⟩
      · cases silent.symm.trans line
      · exact Option.some.inj (line.symm.trans other)

/-- Where the loop syncs, all is on the disk when the line is out. -/
theorem Fine.recovered_of_reported (fine : Fine o s) (mode : o.mode = .fsyncEvery)
    (some : o.nblocks ≠ 0) (line : s.reported ≠ none) : s.file.recovered = o.contents := by
  have other : o.mode ≠ .buffered := mode ▸ Mode.noConfusion
  cases fine with
  | before _ silent _ => exact absurd silent line
  | after _ synced durable place =>
    cases place with
    | allocating _ silent _ | writing _ _ _ silent _ _ _ | syncing _ _ silent _ _ _ _
    | trailing _ silent _ _ _ => exact absurd silent line
    | closing _ _ buffered _ => exact absurd buffered other
    | stopped _ _ either _ _ =>
      rcases either with silent | ⟨buffered, -⟩
      · exact absurd silent line
      · exact absurd buffered other
    | finished _ _ full sync _ =>
      obtain ⟨rfl, size⟩ := sync (.inr ⟨mode, some⟩)
      rw [← full] at durable size
      rw [WriteBack.recovered_of_durable durable size, full]

theorem Fine.recovered_of_exit (fine : Fine o s) (exit : s.phase = .exited 0)
    (synced : o.mode = .buffered ∨ o.mode = .fsyncEvery ∧ o.nblocks ≠ 0) :
    s.file.recovered = o.contents := by
  cases fine with
  | before _ _ phase =>
    rcases phase with opening | ⟨code, exited⟩
    · cases opening.symm.trans exit
    · cases exited.symm.trans exit
  | after _ k durable place =>
    cases place with
    | allocating phase _ _ | writing _ _ phase _ _ _ _ | syncing _ phase _ _ _ _ _
    | trailing phase _ _ _ _ | closing phase _ _ _ | stopped _ phase _ _ _ =>
      cases phase.symm.trans exit
    | finished _ _ full sync _ =>
      obtain ⟨rfl, size⟩ := sync synced
      rw [← full] at durable size
      rw [WriteBack.recovered_of_durable durable size, full]

end Steps

section Lost

variable {o : Options} (lang : Language)

/-- The disk is as it was before: nothing of the file has been written back. -/
theorem exists_report (never : o.mode ≠ .fsyncEvery ∨ o.nblocks = 0) (file : WriteBack UInt8)
    {i : ℕ} (reached : i ≤ o.nblocks) (s : Process) : ∃ acts t,
      (o.machine lang file).runFrom? (o.iterate i s) acts = some (o.report t) ∧
        t.file.disk = s.file.disk ∧ t.file.size = s.file.size := by
  obtain ⟨left, all⟩ := Nat.exists_eq_add_of_le reached
  induction left generalizing i s with
  | zero =>
    have last : ¬ i < o.nblocks := by omega
    have even : ¬ (o.mode = .fsyncEvery ∧ o.nblocks % o.every ≠ 0) := by
      rintro ⟨mode, odd⟩
      exact odd (by rw [never.resolve_left (not_not.mpr mode), Nat.zero_mod])
    refine ⟨[], s, ?_, rfl, rfl⟩
    rw [Options.iterate, if_neg last, if_neg even, Machine.runFrom?_nil]
  | succ left ih =>
    have more : i < o.nblocks := by omega
    have mode : o.mode ≠ .fsyncEvery := never.resolve_right (by omega)
    obtain ⟨acts, t, run, disk, size⟩ :=
      ih (i := i + 1) (by omega) { s with file := s.file.append makeBlock } (by omega)
    refine ⟨.returns (.count kBlockSize) :: acts, t, ?_, disk, size⟩
    rw [← run, Options.iterate, if_pos more]
    refine Machine.runFrom?_cons ?_ acts
    rw [o.machine_step]
    exact o.step_block lang mode i s

/-- A file of one byte that was there before. -/
def stale : WriteBack UInt8 := ⟨[0], fun _ => 0, 1⟩

theorem contents_ne_stale (o : Options) : stale.recovered ≠ o.contents := by
  intro same
  have length := congrArg List.length same
  rw [Options.contents, length_blocks, kBlockSize] at length
  simp only [WriteBack.recovered, stale, List.length_map, List.length_range] at length
  omega

/-- The line can be out and nothing of the file on the disk. -/
theorem exists_lost (never : o.mode ≠ .fsyncEvery ∨ o.nblocks = 0) : ∃ acts s,
    (o.machine lang stale).run? acts = some (o.report s) ∧
      (o.report s).file.recovered ≠ o.contents := by
  obtain ⟨acts, s, run, disk, size⟩ := exists_report lang never stale (Nat.zero_le _)
    ⟨.allocating, true, stale.truncate, none⟩
  refine ⟨.returns .ok :: .returns .ok :: acts, s, run, ?_⟩
  have same : (o.report s).file.recovered = stale.recovered := by
    change (List.range s.file.size).map s.file.disk = _
    rw [disk, size]
    rfl
  rw [same]
  exact contents_ne_stale o

end Lost

section Main

variable {lang : Language} {args : List Bytes} {o : Options}

/-- What is on the disk when the line is out, and when the program has ended well. Without a block,
which takes a size of 2^60 or a multiple, even the old contents may still be there. -/
theorem durable_iff (parsed : parseArgs lang args = some o) :
    ((∀ file acts s, (main lang args file).run? acts = some s → s.reported ≠ none →
        s.file.recovered = o.contents) ↔ o.mode = .fsyncEvery ∧ o.nblocks ≠ 0) ∧
    ((∀ file acts s, (main lang args file).run? acts = some s → s.phase = .exited 0 →
        s.file.recovered = o.contents) ↔
      o.mode = .buffered ∨ o.mode = .fsyncEvery ∧ o.nblocks ≠ 0) := by
  have machine (file : WriteBack UInt8) : main lang args file = o.machine lang file := by
    rw [main, parsed]
  simp only [machine]
  refine ⟨⟨fun always => ?_, ?_⟩, fun always => ?_, ?_⟩
  · by_contra never
    obtain ⟨acts, s, run, lost⟩ := exists_lost lang (o := o) (by tauto)
    exact lost (always stale acts _ run (Option.some_ne_none _))
  · rintro ⟨mode, some⟩ file acts s run line
    exact (fine_of_run run).recovered_of_reported mode some line
  · by_contra never
    rw [not_or] at never
    obtain ⟨acts, s, run, lost⟩ := exists_lost lang (o := o) (by tauto)
    exact lost (always stale acts _ run (if_neg never.1))
  · intro synced file acts s run exit
    exact (fine_of_run run).recovered_of_exit exit synced

theorem durable_iff_direct : ¬ ∀ file acts s,
    (main .cpp [ascii "--mode", ascii "direct", ascii "f"] file).run? acts = some s →
      s.phase = .exited 0 → s.file.recovered = blocks 1024 := by
  intro always
  have parsed : parseArgs .cpp [ascii "--mode", ascii "direct", ascii "f"] =
      some ⟨.direct, ⟨8, by decide⟩, ⟨64, by decide⟩, ascii "f"⟩ := by decide
  exact absurd ((durable_iff parsed).2.mp always) (by decide)

end Main

end LinuxSys.Iobench
