import LinuxSys.Lib.Bytes
import LinuxSys.Lib.Inodes
import LinuxSys.Lib.Machine

/-! # Copying a file

`copyx` of ch05, the same in three languages. Reads and writes may be short, be interrupted and
fail, and the destination may be a name of the source.
-/

namespace LinuxSys.Copyx

open Lib

/-- The buffer of the copy loop. -/
def kBuffer : ℕ := 64 * 1024

abbrev Errno := ℕ

def EINTR : Errno := 4

/-- The system call that failed. -/
inductive Call where
  | openSrc
  | read
  | openDst
  | write
  | close
deriving DecidableEq, Repr

/-- Failures on the side of the source exit with 2, those on the other side with 3. -/
def Call.exitCode : Call → ℕ
  | .openSrc | .read => 2
  | .openDst | .write | .close => 3

theorem exitCode_ne_zero (call : Call) : call.exitCode ≠ 0 := by cases call <;> decide

/-- Where `copy_file` stands: `total` bytes are through, and of the `size` bytes in the buffer so
many are left to be written. -/
inductive Phase where
  | openingSrc
  | openingDst (src : ℕ)
  | reading (src dst total : ℕ)
  | writing (src dst total size : ℕ) (left : Bytes)
  | closing (total : ℕ)
  | copied (total : ℕ)
  | failed (call : Call) (errno : Errno)
deriving DecidableEq, Repr

def Phase.exitCode : Phase → Option ℕ
  | .copied _ => some 0
  | .failed call _ => some call.exitCode
  | _ => none

/-- What is printed: on stdout, or on stderr with the text of the errno. -/
def Phase.printed (src dst : String) (strerror : Errno → String) : Phase → Option String
  | .copied total => some ("copied " ++ toString total ++ " bytes")
  | .failed .openSrc e => some ("copyx: " ++ src ++ ": " ++ strerror e)
  | .failed .read e => some ("copyx: read " ++ src ++ ": " ++ strerror e)
  | .failed .openDst e => some ("copyx: " ++ dst ++ ": " ++ strerror e)
  | .failed .write e => some ("copyx: write " ++ dst ++ ": " ++ strerror e)
  | .failed .close e => some ("copyx: close " ++ dst ++ ": " ++ strerror e)
  | _ => none

structure State where
  fs : Inodes String UInt8
  phase : Phase

/-- What a system call returns. -/
inductive Answer where
  | ok
  | count (n : ℕ)
  | err (errno : Errno)
deriving DecidableEq, Repr

namespace State

variable (src dst : String) (s : State)

/-- The bytes of the source that are not yet read. -/
def unread (i total : ℕ) : Bytes := s.fs.readAt i total kBuffer

def step : Answer → Option State
  | .ok =>
    match s.phase with
    | .openingSrc => (s.fs.dir src).map fun i => { s with phase := .openingDst i }
    | .openingDst i =>
      let (fs, j) := s.fs.openTrunc dst
      some ⟨fs, .reading i j 0⟩
    | .closing total => some { s with phase := .copied total }
    | _ => none
  | .count n =>
    match s.phase with
    | .reading i j total =>
      let there := s.unread i total
      if n ≤ there.length ∧ (n = 0 → there = []) then
        if n = 0 then some { s with phase := .closing total }
        else some { s with phase := .writing i j total n (there.take n) }
      else none
    | .writing i j total size left =>
      if 0 < n ∧ n ≤ left.length then
        let fs := s.fs.writeAt j (total + (size - left.length)) (left.take n)
        if left.drop n = [] then some ⟨fs, .reading i j (total + size)⟩
        else some ⟨fs, .writing i j total size (left.drop n)⟩
      else none
    | _ => none
  | .err e =>
    let fail (call : Call) := some { s with phase := .failed call e }
    match s.phase with
    | .openingSrc => fail .openSrc
    | .openingDst _ => fail .openDst
    | .reading _ _ _ => if e = EINTR then some s else fail .read
    | .writing _ _ _ _ _ => if e = EINTR then some s else fail .write
    | .closing _ => fail .close
    | _ => none

end State

def machine (src dst : String) (fs : Inodes String UInt8) : Machine State Answer :=
  ⟨⟨fs, .openingSrc⟩, State.step src dst⟩

section Steps

variable {src dst : String} {fs₀ : Inodes String UInt8} {s t : State} {i woff : ℕ}

/-- The source as it is behind the opening of the destination. -/
def source (fs₀ : Inodes String UInt8) (dst : String) (i : ℕ) : Bytes :=
  (fs₀.openTrunc dst).1.data i

/-- So many bytes of the source are in the destination. -/
structure Got (fs₀ : Inodes String UInt8) (dst : String) (i woff : ℕ) (fs : Inodes String UInt8) :
    Prop where
  dir : fs.dir = (fs₀.openTrunc dst).1.dir
  rest : ∀ j, j ≠ (fs₀.openTrunc dst).2 → fs.data j = (fs₀.openTrunc dst).1.data j
  got : fs.data (fs₀.openTrunc dst).2 = (source fs₀ dst i).take woff
  bound : woff ≤ (source fs₀ dst i).length

/-- Behind the opening of the destination. -/
inductive Place (fs₀ : Inodes String UInt8) (dst : String) (i woff : ℕ) : Phase → Prop where
  | reading : Place fs₀ dst i woff (.reading i (fs₀.openTrunc dst).2 woff)
  | writing (total size : ℕ) (left : Bytes) (some : left ≠ []) (short : left.length ≤ size)
      (place : total + (size - left.length) = woff)
      (next : left = ((source fs₀ dst i).drop woff).take left.length) :
      Place fs₀ dst i woff (.writing i (fs₀.openTrunc dst).2 total size left)
  | closing (all : woff = (source fs₀ dst i).length) : Place fs₀ dst i woff (.closing woff)
  | copied (all : woff = (source fs₀ dst i).length) : Place fs₀ dst i woff (.copied woff)
  | failed (call : Call) (e : Errno) : Place fs₀ dst i woff (.failed call e)

inductive Fine (fs₀ : Inodes String UInt8) (src dst : String) (s : State) : Prop where
  | opening (same : s.fs = fs₀) (phase : s.phase = .openingSrc)
  | opened (same : s.fs = fs₀) (i : ℕ) (phase : s.phase = .openingDst i)
      (leads : fs₀.dir src = some i)
  | stopped (same : s.fs = fs₀) (call : Call) (e : Errno) (phase : s.phase = .failed call e)
  | copying (i woff : ℕ) (leads : fs₀.dir src = some i) (got : Got fs₀ dst i woff s.fs)
      (place : Place fs₀ dst i woff s.phase)

theorem Got.source_eq (got : Got fs₀ dst i woff s.fs) : s.fs.data i = source fs₀ dst i := by
  by_cases same : i = (fs₀.openTrunc dst).2
  · have empty : source fs₀ dst i = [] := same ▸ Inodes.data_openTrunc_self
    have here := got.got
    rw [empty, List.take_nil] at here
    rw [empty, ← here, same]
  · exact got.rest i same

/-- The first bytes of what is left are written. -/
theorem Got.write (got : Got fs₀ dst i woff s.fs) {left : Bytes} {n : ℕ}
    (next : left = ((source fs₀ dst i).drop woff).take left.length) (fits : n ≤ left.length) :
    Got fs₀ dst i (woff + n) (s.fs.writeAt (fs₀.openTrunc dst).2 woff (left.take n)) := by
  have length : (s.fs.data (fs₀.openTrunc dst).2).length = woff := by
    rw [got.got, List.length_take_of_le got.bound]
  have there : left.length ≤ (source fs₀ dst i).length - woff := by
    have short := congrArg List.length next
    rw [List.length_take, List.length_drop] at short
    omega
  refine ⟨got.dir, fun j other => ?_, ?_, ?_⟩
  · exact (Function.update_of_ne other ..).trans (got.rest j other)
  · rw [Inodes.data_writeAt_length length, got.got, List.take_add, next, List.take_take,
      Nat.min_eq_left (next ▸ fits)]
  · have bound := got.bound
    omega

/-- Opening the destination, whether it is a name of the source or not. -/
theorem fine_openTrunc (leads : fs₀.dir src = some i) :
    Fine fs₀ src dst ⟨(fs₀.openTrunc dst).1, .reading i (fs₀.openTrunc dst).2 0⟩ :=
  .copying i 0 leads ⟨rfl, fun _ _ => rfl, Inodes.data_openTrunc_self, Nat.zero_le _⟩ .reading

theorem fine_reading {a : Answer} (leads : fs₀.dir src = some i) (got : Got fs₀ dst i woff s.fs)
    (phase : s.phase = .reading i (fs₀.openTrunc dst).2 woff) (taken : s.step src dst a = some t) :
    Fine fs₀ src dst t := by
  cases a with
  | ok => simp [State.step, phase] at taken
  | count n =>
    simp only [State.step, phase, State.unread, Inodes.readAt, got.source_eq] at taken
    split_ifs at taken with fits none
    · obtain rfl := Option.some.inj taken
      refine .copying i woff leads got (.closing ?_)
      have ended := fits.2 none
      have bound := got.bound
      rw [List.take_eq_nil_iff, List.drop_eq_nil_iff] at ended
      have past := ended.resolve_left (by decide)
      omega
    · obtain rfl := Option.some.inj taken
      have length := List.length_take_of_le fits.1
      refine .copying i woff leads got (.writing woff n _ ?_ length.le ?_ ?_)
      · exact List.ne_nil_of_length_pos (by omega)
      · rw [length, Nat.sub_self, Nat.add_zero]
      · rw [length, List.take_take]
        rw [List.length_take] at fits
        rw [Nat.min_eq_left (by omega)]
  | err e =>
    simp only [State.step, phase] at taken
    split_ifs at taken with interrupted
    · obtain rfl := Option.some.inj taken
      exact .copying i woff leads got (phase ▸ .reading)
    · obtain rfl := Option.some.inj taken
      exact .copying i woff leads got (.failed .read e)

theorem fine_writing {a : Answer} (leads : fs₀.dir src = some i) (got : Got fs₀ dst i woff s.fs)
    {total size : ℕ} {left : Bytes} (some : left ≠ []) (short : left.length ≤ size)
    (place : total + (size - left.length) = woff)
    (next : left = ((source fs₀ dst i).drop woff).take left.length)
    (phase : s.phase = .writing i (fs₀.openTrunc dst).2 total size left)
    (taken : s.step src dst a = Option.some t) : Fine fs₀ src dst t := by
  cases a with
  | ok => simp [State.step, phase] at taken
  | count n =>
    simp only [State.step, phase, place] at taken
    split_ifs at taken with fits last
    · obtain rfl := Option.some.inj taken
      have all : left.length ≤ n := List.drop_eq_nil_iff.mp last
      have sum : woff + n = total + size := by omega
      exact .copying i (woff + n) leads (got.write next fits.2) (sum ▸ .reading)
    · obtain rfl := Option.some.inj taken
      have length : (left.drop n).length = left.length - n := List.length_drop
      refine .copying i (woff + n) leads (got.write next fits.2)
        (.writing total size _ last (by omega) (by omega) ?_)
      rw [length]
      conv_lhs => rw [next]
      rw [List.drop_take, List.drop_drop]
  | err e =>
    simp only [State.step, phase] at taken
    split_ifs at taken with interrupted
    · obtain rfl := Option.some.inj taken
      exact .copying i woff leads got (phase ▸ .writing total size left some short place next)
    · obtain rfl := Option.some.inj taken
      exact .copying i woff leads got (.failed .write e)

theorem fine_step {a : Answer} (fine : Fine fs₀ src dst s) (taken : s.step src dst a = some t) :
    Fine fs₀ src dst t := by
  cases fine with
  | opening same phase =>
    cases a with
    | ok =>
      simp only [State.step, phase, Option.map_eq_some_iff, same] at taken
      obtain ⟨i, leads, rfl⟩ := taken
      exact .opened rfl i rfl leads
    | count n => simp [State.step, phase] at taken
    | err e =>
      simp only [State.step, phase] at taken
      obtain rfl := Option.some.inj taken
      exact .stopped same .openSrc e rfl
  | opened same i phase leads =>
    cases a with
    | ok =>
      simp only [State.step, phase, same] at taken
      obtain rfl := Option.some.inj taken
      exact fine_openTrunc leads
    | count n => simp [State.step, phase] at taken
    | err e =>
      simp only [State.step, phase] at taken
      obtain rfl := Option.some.inj taken
      exact .stopped same .openDst e rfl
  | stopped same call e phase => cases a <;> simp [State.step, phase] at taken
  | copying i woff leads got place =>
    generalize phase : s.phase = here at place
    cases place with
    | reading => exact fine_reading leads got phase taken
    | writing total size left some short place next =>
      exact fine_writing leads got some short place next phase taken
    | closing all =>
      cases a with
      | ok =>
        simp only [State.step, phase] at taken
        obtain rfl := Option.some.inj taken
        exact .copying i woff leads got (.copied all)
      | count n => simp [State.step, phase] at taken
      | err e =>
        simp only [State.step, phase] at taken
        obtain rfl := Option.some.inj taken
        exact .copying i woff leads got (.failed .close e)
    | copied all => cases a <;> simp [State.step, phase] at taken
    | failed call e => cases a <;> simp [State.step, phase] at taken

theorem fine_of_run {acts : List Answer} (run : (machine src dst fs₀).run? acts = some s) :
    Fine fs₀ src dst s := by
  refine Machine.run?_keeps ?_ (fun s a t fine (taken : s.step src dst a = some t) => ?_) run
  · exact .opening rfl rfl
  · exact fine_step fine taken

/-- A name of the source leaves nothing of it. -/
theorem source_of_leads (dst : String) (leads : fs₀.dir src = some i) : source fs₀ dst i =
    if fs₀.dir src = fs₀.dir dst then [] else fs₀.data i := by
  have same : i = (fs₀.openTrunc dst).2 ↔ fs₀.dir src = fs₀.dir dst := by
    have names := Inodes.leads_iff fs₀ dst src
    rw [leads, Option.some.injEq] at names
    rw [names, leads]
    exact and_iff_right (Option.some_ne_none i)
  split_ifs with one
  · exact (same.mpr one) ▸ Inodes.data_openTrunc_self
  · exact Inodes.data_openTrunc_of_ne fun two => one (same.mp two)

/-- What the names lead to while the copy is under way. -/
theorem Got.contents (leads : fs₀.dir src = some i) (got : Got fs₀ dst i woff s.fs) :
    s.fs.contents dst = some ((source fs₀ dst i).take woff) ∧
      s.fs.contents src = some (source fs₀ dst i) := by
  have here : s.fs.dir dst = some (fs₀.openTrunc dst).2 := by
    rw [got.dir, Inodes.dir_openTrunc_self]
  refine ⟨by rw [Inodes.contents, here, Option.map_some, got.got], ?_⟩
  have there : s.fs.dir src = some i := by
    by_cases same : src = dst
    · subst same
      rw [here, ← leads]
      have names := Inodes.leads_iff fs₀ src src
      refine (names.mpr ⟨?_, rfl⟩).symm
      rw [leads]
      exact Option.some_ne_none i
    · rw [got.dir, Inodes.dir_openTrunc_of_ne same, leads]
  rw [Inodes.contents, there, Option.map_some, got.source_eq]

/-- When `copyx` exits with 0 the destination has what the source had, unless both are names of one
file, which it has then emptied; no other file is changed in any run, and at every moment the
destination has what it had or a first part of the source. -/
theorem copied_of_run {acts : List Answer} (run : (machine src dst fs₀).run? acts = some s) :
    (s.phase.exitCode = some 0 → ∃ original, fs₀.contents src = some original ∧
      let kept := if fs₀.dir src = fs₀.dir dst then [] else original
      s.fs.contents dst = some kept ∧ s.fs.contents src = some kept ∧ ∀ strerror,
        s.phase.printed src dst strerror = some ("copied " ++ toString kept.length ++ " bytes")) ∧
    (∀ q, q ≠ dst → fs₀.dir q = none ∨ fs₀.dir q ≠ fs₀.dir dst →
      s.fs.contents q = fs₀.contents q) ∧
    (s.fs.contents dst = fs₀.contents dst ∨ ∃ original, fs₀.contents src = some original ∧
      ∃ got, s.fs.contents dst = some got ∧ got <+: original) := by
  cases fine_of_run run with
  | opening same phase | opened same _ phase _ | stopped same _ _ phase =>
    refine ⟨fun exit => ?_, fun q _ _ => by rw [same], .inl (by rw [same])⟩
    rw [phase] at exit
    simp [Phase.exitCode, exitCode_ne_zero] at exit
  | copying i woff leads got place =>
    have original : fs₀.contents src = some (fs₀.data i) := by
      rw [Inodes.contents, leads, Option.map_some]
    obtain ⟨there, here⟩ := got.contents leads
    have kept := source_of_leads dst leads
    refine ⟨fun exit => ⟨fs₀.data i, original, ?_⟩, fun q other apart => ?_,
      .inr ⟨fs₀.data i, original, _, there, ?_⟩⟩
    · generalize s.phase = phase at exit place ⊢
      cases place with
      | reading | writing | closing => cases exit
      | failed call e => simp [Phase.exitCode, exitCode_ne_zero] at exit
      | copied all =>
        rw [all, List.take_length] at there
        rw [← kept]
        exact ⟨there, here, fun strerror => by rw [Phase.printed, all]⟩
    · refine Inodes.contents_eq_of_data ?_ fun j leads => ?_
      · rw [got.dir, Inodes.dir_openTrunc_of_ne other]
      · have aside : j ≠ (fs₀.openTrunc dst).2 := by
          rintro rfl
          obtain ⟨some, same⟩ := (Inodes.leads_iff fs₀ dst q).mp leads
          exact apart.elim some fun different => different same
        rw [got.rest j aside, Inodes.data_openTrunc_of_ne aside]
    · refine (List.take_prefix _ _).trans ?_
      rw [kept]
      split_ifs
      · exact List.nil_prefix
      · exact List.prefix_rfl

/-- A file with two names. -/
def linked : Inodes String UInt8 where
  dir p := if p = "a" ∨ p = "b" then some 0 else none
  data _ := [1, 2]
  next := 1
  fresh p i leads := by
    split_ifs at leads
    exact Option.some.inj leads ▸ Nat.zero_lt_one

theorem copied_of_run_linked : linked.contents "a" = some [1, 2] ∧ ∃ s,
    (machine "a" "b" linked).run? [.ok, .ok, .count 0, .ok] = some s ∧
      s.phase.exitCode = some 0 ∧ s.fs.contents "a" = some [] := by
  refine ⟨by decide, ?_⟩
  have run : (machine "a" "b" linked).run? [.ok, .ok, .count 0, .ok] = some _ := rfl
  obtain ⟨original, -, -, here, -⟩ := (copied_of_run run).1 rfl
  exact ⟨_, run, rfl, here⟩

end Steps

end LinuxSys.Copyx
