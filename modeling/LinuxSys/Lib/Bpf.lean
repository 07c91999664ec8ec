import Mathlib.Data.List.Basic
import Mathlib.Order.Basic

/-! # Classic BPF

A program is a list of instructions, and a jump skips some of the instructions behind it. The kernel
takes a program whose loads are allowed, whose jumps stay inside and whose last instruction returns;
such a program returns a word whatever it is run on. Scratch memory is left out.
-/

namespace LinuxSys.Lib.Bpf

/-- `struct sock_filter`. -/
structure SockFilter where
  code : UInt16
  jt : UInt8
  jf : UInt8
  k : UInt32
deriving DecidableEq, Repr

inductive Alu where
  | add
  | sub
  | mul
  | div
  | or
  | and
  | lsh
  | rsh
  | xor
deriving DecidableEq, Repr

inductive Test where
  | jeq
  | jgt
  | jge
  | jset
deriving DecidableEq, Repr

/-- The constant of the instruction or the index register. -/
inductive Operand where
  | const (k : UInt32)
  | index
deriving DecidableEq, Repr

inductive Insn where
  | ldAbs (offset : UInt32)
  | ldImm (k : UInt32)
  | ldLen
  | ldxImm (k : UInt32)
  | ldxLen
  | alu (op : Alu) (operand : Operand)
  | neg
  | tax
  | txa
  | ja (skip : UInt32)
  | jump (test : Test) (operand : Operand) (jt jf : UInt8)
  | retK (k : UInt32)
  | retA
deriving DecidableEq, Repr

namespace SockFilter

/-- Bit 3 of an arithmetic instruction or a jump chooses the operand. -/
def operand (f : SockFilter) : Operand := if f.code.toNat / 8 % 2 = 0 then .const f.k else .index

def alu? (f : SockFilter) : Option Alu :=
  match f.code.toNat / 16 with
  | 0x0 => some .add
  | 0x1 => some .sub
  | 0x2 => some .mul
  | 0x3 => some .div
  | 0x4 => some .or
  | 0x5 => some .and
  | 0x6 => some .lsh
  | 0x7 => some .rsh
  | 0xA => some .xor
  | _ => none

def test? (f : SockFilter) : Option Test :=
  match f.code.toNat / 16 with
  | 0x1 => some .jeq
  | 0x2 => some .jgt
  | 0x3 => some .jge
  | 0x4 => some .jset
  | _ => none

def decode (f : SockFilter) : Option Insn :=
  match f.code.toNat with
  | 0x00 => some (.ldImm f.k)
  | 0x20 => some (.ldAbs f.k)
  | 0x80 => some .ldLen
  | 0x01 => some (.ldxImm f.k)
  | 0x81 => some .ldxLen
  | 0x84 => some .neg
  | 0x07 => some .tax
  | 0x87 => some .txa
  | 0x05 => some (.ja f.k)
  | 0x06 => some (.retK f.k)
  | 0x16 => some .retA
  | code =>
    match code % 8 with
    | 4 => f.alu?.map fun op => .alu op f.operand
    | 5 => f.test?.map fun test => .jump test f.operand f.jt f.jf
    | _ => none

end SockFilter

/-! Running. -/

/-- Accumulator and index register. -/
structure Regs where
  a : UInt32 := 0
  x : UInt32 := 0
deriving DecidableEq, Repr

/-- What a filter is run on: a word at each offset, and a length. -/
structure Packet where
  load : UInt32 → UInt32
  len : UInt32

def Operand.value (r : Regs) : Operand → UInt32
  | .const k => k
  | .index => r.x

/-- There is no quotient by zero. A shift takes its distance modulo 32. -/
def Alu.apply (a b : UInt32) : Alu → Option UInt32
  | .add => some (a + b)
  | .sub => some (a - b)
  | .mul => some (a * b)
  | .div => if b = 0 then none else some (a / b)
  | .or => some (a ||| b)
  | .and => some (a &&& b)
  | .lsh => some (a <<< b)
  | .rsh => some (a >>> b)
  | .xor => some (a ^^^ b)

def Test.holds (a b : UInt32) : Test → Bool
  | .jeq => a = b
  | .jgt => b < a
  | .jge => b ≤ a
  | .jset => a &&& b ≠ 0

/-- Return a word, or go on behind some of the instructions that follow. -/
inductive Next where
  | done (value : UInt32)
  | skip (count : ℕ) (r : Regs)
deriving DecidableEq, Repr

/-- A division by zero returns zero. -/
def Insn.step (p : Packet) (r : Regs) : Insn → Next
  | .ldAbs offset => .skip 0 { r with a := p.load offset }
  | .ldImm k => .skip 0 { r with a := k }
  | .ldLen => .skip 0 { r with a := p.len }
  | .ldxImm k => .skip 0 { r with x := k }
  | .ldxLen => .skip 0 { r with x := p.len }
  | .alu op operand =>
    match op.apply r.a (operand.value r) with
    | some a => .skip 0 { r with a := a }
    | none => .done 0
  | .neg => .skip 0 { r with a := 0 - r.a }
  | .tax => .skip 0 { r with x := r.a }
  | .txa => .skip 0 { r with a := r.x }
  | .ja skip => .skip skip.toNat r
  | .jump test operand jt jf =>
    .skip (if test.holds r.a (operand.value r) then jt.toNat else jf.toNat) r
  | .retK k => .done k
  | .retA => .done r.a

/-- The word a program returns, if it does not run off its end. -/
def exec (p : Packet) : ℕ → Regs → List Insn → Option UInt32
  | _, _, [] => none
  | count + 1, r, _ :: rest => exec p count r rest
  | 0, r, insn :: rest =>
    match insn.step p r with
    | .done value => some value
    | .skip count next => exec p count next rest

def run (p : Packet) (prog : List SockFilter) : Option UInt32 :=
  (prog.mapM SockFilter.decode).bind fun insns => exec p 0 {} insns

section Exec

variable {p : Packet} {r : Regs} {insn : Insn} {rest : List Insn}

theorem exec_eq_drop (count : ℕ) (insns : List Insn) :
    exec p count r insns = exec p 0 r (insns.drop count) := by
  induction insns generalizing count with
  | nil =>
    rw [List.drop_nil]
    cases count with
    | zero => rfl
    | succ count => rfl
  | cons insn rest ih =>
    cases count with
    | zero => rfl
    | succ count => exact ih count

theorem exec_of_done {value : UInt32} (done : insn.step p r = .done value) :
    exec p 0 r (insn :: rest) = some value := by
  rw [exec, done]

theorem exec_of_skip {count : ℕ} {next : Regs} (skips : insn.step p r = .skip count next) :
    exec p 0 r (insn :: rest) = exec p 0 next (rest.drop count) := by
  rw [exec, skips]
  exact exec_eq_drop count rest

theorem exec_ldAbs (offset : UInt32) :
    exec p 0 r (.ldAbs offset :: rest) = exec p 0 { r with a := p.load offset } rest := rfl

theorem exec_jeq (k : UInt32) (jt jf : UInt8) :
    exec p 0 r (.jump .jeq (.const k) jt jf :: rest) =
      exec p 0 r (rest.drop (if r.a = k then jt.toNat else jf.toNat)) := by
  refine exec_of_skip ?_
  by_cases same : r.a = k <;> simp [Insn.step, Test.holds, Operand.value, same]

theorem exec_retK (k : UInt32) : exec p 0 r (.retK k :: rest) = some k := exec_of_done rfl

end Exec

/-! What the kernel takes. -/

/-- No division by a constant zero, no shift by a constant out of range. -/
def Alu.takes (op : Alu) : Operand → Bool
  | .const k => if op = .div then k ≠ 0 else if op = .lsh ∨ op = .rsh then k < 32 else true
  | .index => true

/-- The instruction may stand in front of so many others. -/
def Insn.fits (readable : UInt32 → Bool) (behind : ℕ) : Insn → Bool
  | .ldAbs offset => readable offset && 0 < behind
  | .alu op operand => op.takes operand && 0 < behind
  | .ja skip => skip.toNat < behind
  | .jump _ _ jt jf => jt.toNat < behind && jf.toNat < behind
  | .retK _ | .retA => true
  | .ldImm _ | .ldLen | .ldxImm _ | .ldxLen | .neg | .tax | .txa => 0 < behind

def checks (readable : UInt32 → Bool) : List Insn → Bool
  | [] => true
  | insn :: rest => insn.fits readable rest.length && checks readable rest

def maxInsns : ℕ := 4096

def accepts (readable : UInt32 → Bool) (prog : List SockFilter) : Bool :=
  0 < prog.length && prog.length ≤ maxInsns &&
    match prog.mapM SockFilter.decode with
    | some insns => checks readable insns
    | none => false

theorem mapM_decode_take {prog : List SockFilter} {insns : List Insn}
    (decoded : prog.mapM SockFilter.decode = some insns) (count : ℕ) :
    (prog.take count).mapM SockFilter.decode = some (insns.take count) := by
  induction prog generalizing insns count with
  | nil =>
    obtain rfl : [] = insns := Option.some.inj decoded
    rw [List.take_nil, List.take_nil]
    rfl
  | cons f rest ih =>
    simp only [List.mapM_cons, Option.bind_eq_bind, Option.bind_eq_some_iff, Option.pure_def,
      Option.some.injEq] at decoded
    obtain ⟨insn, first, others, later, rfl⟩ := decoded
    cases count with
    | zero => rfl
    | succ count =>
      rw [List.take_succ_cons, List.mapM_cons, first, ih later count]
      rfl

section Checks

variable {readable : UInt32 → Bool} {insn : Insn} {rest : List Insn}

theorem checks_cons : checks readable (insn :: rest) ↔
    insn.fits readable rest.length ∧ checks readable rest := by
  rw [checks, Bool.and_eq_true]

theorem checks_drop {insns : List Insn} (fine : checks readable insns) (count : ℕ) :
    checks readable (insns.drop count) := by
  induction insns generalizing count with
  | nil => rwa [List.drop_nil]
  | cons insn rest ih =>
    cases count with
    | zero => exact fine
    | succ count => exact ih (checks_cons.mp fine).2 count

theorem fits_getLast {insns : List Insn} (fine : checks readable insns) (some : insns ≠ []) :
    (insns.getLast some).fits readable 0 := by
  induction insns with
  | nil => exact absurd rfl some
  | cons insn rest ih =>
    obtain ⟨fits, later⟩ := checks_cons.mp fine
    cases rest with
    | nil => exact fits
    | cons next rest =>
      rw [List.getLast_cons (List.cons_ne_nil next rest)]
      exact ih later (List.cons_ne_nil next rest)

/-- An instruction that fits returns, or goes on at an instruction that is there. -/
theorem Insn.lt_of_fits {behind count : ℕ} {p : Packet} {r next : Regs}
    (fits : insn.fits readable behind) (skips : insn.step p r = .skip count next) :
    count < behind := by
  cases insn with
  | ja skip =>
    cases skips
    simpa [Insn.fits] using fits
  | jump test operand jt jf =>
    cases skips
    obtain ⟨left, right⟩ : jt.toNat < behind ∧ jf.toNat < behind := by
      simpa [Insn.fits] using fits
    split
    · exact left
    · exact right
  | alu op operand =>
    have positive : 0 < behind :=
      (by simpa [Insn.fits] using fits : op.takes operand ∧ 0 < behind).2
    simp only [Insn.step] at skips
    split at skips
    · cases skips
      exact positive
    · cases skips
  | retK k => cases skips
  | retA => cases skips
  | ldAbs offset =>
    cases skips
    exact (by simpa [Insn.fits] using fits : readable offset ∧ 0 < behind).2
  | ldImm | ldLen | ldxImm | ldxLen | neg | tax | txa =>
    cases skips
    simpa [Insn.fits] using fits

/-- A program that passes the checks returns a word. -/
theorem exec_isSome_of_checks (p : Packet) {r : Regs} {insns : List Insn} (some : insns ≠ [])
    (fine : checks readable insns) : (exec p 0 r insns).isSome := by
  induction length : insns.length using Nat.strongRecOn generalizing insns r with
  | ind n ih =>
    cases insns with
    | nil => exact absurd rfl some
    | cons insn rest =>
      obtain ⟨fits, later⟩ := checks_cons.mp fine
      cases step : insn.step p r with
      | done value =>
        rw [exec_of_done step]
        rfl
      | skip count next =>
        have inside := Insn.lt_of_fits fits step
        rw [exec_of_skip step]
        refine ih _ ?_ ?_ (checks_drop later count) rfl
        · rw [← length, List.length_drop, List.length_cons]
          omega
        · exact fun empty => absurd (List.drop_eq_nil_iff.mp empty) (by omega)

/-- What the kernel takes returns a word on everything. -/
theorem run_isSome_of_accepts {prog : List SockFilter} (taken : accepts readable prog) (p : Packet) :
    (run p prog).isSome := by
  rw [accepts, Bool.and_eq_true, Bool.and_eq_true] at taken
  obtain ⟨⟨some, -⟩, fine⟩ := taken
  rw [run]
  cases decoded : prog.mapM SockFilter.decode with
  | none =>
    rw [decoded] at fine
    cases fine
  | some insns =>
    rw [decoded] at fine
    refine exec_isSome_of_checks p ?_ fine
    rintro rfl
    cases prog with
    | nil => cases (of_decide_eq_true some)
    | cons f prog => simp [Option.bind_eq_some_iff] at decoded

end Checks

end LinuxSys.Lib.Bpf
