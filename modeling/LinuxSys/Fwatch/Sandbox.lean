import LinuxSys.Lib.Bpf

/-! # The seccomp filter of fwatch ch33

The Go program assembles its allowlist by hand: one test for each number that jumps behind the
refusal. A distance has eight bits and the length of the program sixteen. The kernel refuses what is
longer than 4096 instructions, so a length that wraps is never taken; a distance that wraps lands
inside the list, and only the last 255 numbers are admitted.
-/

namespace LinuxSys.Fwatch.Sandbox

open Lib Bpf

def bpfLD : UInt16 := 0x00
def bpfW : UInt16 := 0x00
def bpfABS : UInt16 := 0x20
def bpfJMP : UInt16 := 0x05
def bpfJEQ : UInt16 := 0x10
def bpfK : UInt16 := 0x00
def bpfRET : UInt16 := 0x06

def seccompDataNrOff : UInt32 := 0
def seccompDataArchOff : UInt32 := 4

/-! `golang.org/x/sys/unix`. -/

def auditArchX86_64 : UInt32 := 0xC000003E
def seccompRetKillProcess : UInt32 := 0x80000000
def seccompRetErrno : UInt32 := 0x00050000
def seccompRetAllow : UInt32 := 0x7FFF0000
def seccompRetData : UInt32 := 0x0000FFFF

def bpfStmt (code : UInt16) (k : UInt32) : SockFilter := ⟨code, 0, 0, k⟩

def bpfJump (code : UInt16) (k : UInt32) (jt jf : UInt8) : SockFilter := ⟨code, jt, jf, k⟩

/-- The loop of `buildAllowlist`; what remains behind a number is the rest of the list. -/
def equalityTests : List UInt32 → List SockFilter
  | [] => []
  | nr :: rest =>
    bpfJump (bpfJMP ||| bpfJEQ ||| bpfK) nr (UInt8.ofNat (rest.length + 1)) 0 :: equalityTests rest

def buildAllowlist (allowed : List UInt32) (denyErrno : UInt32) : List SockFilter :=
  [bpfStmt (bpfLD ||| bpfW ||| bpfABS) seccompDataArchOff,
    bpfJump (bpfJMP ||| bpfJEQ ||| bpfK) auditArchX86_64 1 0,
    bpfStmt bpfRET seccompRetKillProcess,
    bpfStmt (bpfLD ||| bpfW ||| bpfABS) seccompDataNrOff] ++
  equalityTests allowed ++
  [bpfStmt bpfRET (seccompRetErrno ||| (denyErrno &&& seccompRetData)),
    bpfStmt bpfRET seccompRetAllow]

/-- What the kernel reads by `Len: uint16(len(prog))`. -/
def fprog (prog : List SockFilter) : List SockFilter := prog.take (UInt16.ofNat prog.length).toNat

/-- `struct seccomp_data`. -/
structure SeccompData where
  nr : UInt32
  arch : UInt32
  instructionPointer : UInt64
  args : Fin 6 → UInt64

namespace SeccompData

/-- The words of the record on a little-endian machine. -/
def word (d : SeccompData) (i : ℕ) : UInt32 :=
  let half (value : UInt64) : UInt32 := UInt32.ofNat (value.toNat >>> (32 * (i % 2)))
  if i = 0 then d.nr
  else if i = 1 then d.arch
  else if i < 4 then half d.instructionPointer
  else if inside : i / 2 - 2 < 6 then half (d.args ⟨i / 2 - 2, inside⟩)
  else 0

def packet (d : SeccompData) : Packet := ⟨fun offset => d.word (offset.toNat / 4), 64⟩

end SeccompData

/-- A filter may load the aligned words of the record. -/
def readable (offset : UInt32) : Bool := offset.toNat < 64 && offset.toNat % 4 = 0

/-! The program as instructions. -/

def testInsns : List UInt32 → List Insn
  | [] => []
  | nr :: rest => .jump .jeq (.const nr) (UInt8.ofNat (rest.length + 1)) 0 :: testInsns rest

def verdictInsns (denyErrno : UInt32) : List Insn :=
  [.retK (seccompRetErrno ||| (denyErrno &&& seccompRetData)), .retK seccompRetAllow]

def allowlistInsns (allowed : List UInt32) (denyErrno : UInt32) : List Insn :=
  .ldAbs seccompDataArchOff :: .jump .jeq (.const auditArchX86_64) 1 0 ::
    .retK seccompRetKillProcess :: .ldAbs seccompDataNrOff ::
      (testInsns allowed ++ verdictInsns denyErrno)

theorem decode_load (offset : UInt32) :
    (bpfStmt (bpfLD ||| bpfW ||| bpfABS) offset).decode = some (.ldAbs offset) := by
  simp [bpfStmt, bpfLD, bpfW, bpfABS, SockFilter.decode]

theorem decode_equalityTest (nr : UInt32) (jt jf : UInt8) :
    (bpfJump (bpfJMP ||| bpfJEQ ||| bpfK) nr jt jf).decode =
      some (.jump .jeq (.const nr) jt jf) := by
  simp [bpfJump, bpfJMP, bpfJEQ, bpfK, SockFilter.decode, SockFilter.test?, SockFilter.operand]

theorem decode_return (value : UInt32) : (bpfStmt bpfRET value).decode = some (.retK value) := by
  simp [bpfStmt, bpfRET, SockFilter.decode]

theorem mapM_decode_equalityTests (allowed : List UInt32) :
    (equalityTests allowed).mapM SockFilter.decode = some (testInsns allowed) := by
  induction allowed with
  | nil => rfl
  | cons nr rest ih =>
    rw [equalityTests, List.mapM_cons, decode_equalityTest, ih]
    rfl

theorem mapM_decode_buildAllowlist (allowed : List UInt32) (denyErrno : UInt32) :
    (buildAllowlist allowed denyErrno).mapM SockFilter.decode =
      some (allowlistInsns allowed denyErrno) := by
  rw [buildAllowlist, List.mapM_append, List.mapM_append, mapM_decode_equalityTests]
  simp only [List.mapM_cons, List.mapM_nil, decode_load, decode_equalityTest, decode_return]
  rfl

@[simp] theorem length_testInsns (allowed : List UInt32) :
    (testInsns allowed).length = allowed.length := by
  induction allowed with
  | nil => rfl
  | cons nr rest ih => rw [testInsns, List.length_cons, ih, List.length_cons]

@[simp] theorem length_equalityTests (allowed : List UInt32) :
    (equalityTests allowed).length = allowed.length := by
  induction allowed with
  | nil => rfl
  | cons nr rest ih => rw [equalityTests, List.length_cons, ih, List.length_cons]

theorem length_buildAllowlist (allowed : List UInt32) (denyErrno : UInt32) :
    (buildAllowlist allowed denyErrno).length = allowed.length + 6 := by
  simp only [buildAllowlist, List.length_append, List.length_cons, List.length_nil,
    length_equalityTests]
  omega

/-- What follows a test is the program of the numbers behind it. -/
theorem drop_testInsns (allowed : List UInt32) (count : ℕ) :
    (testInsns allowed).drop count = testInsns (allowed.drop count) := by
  induction allowed generalizing count with
  | nil => rw [testInsns, List.drop_nil, List.drop_nil, testInsns]
  | cons nr rest ih =>
    cases count with
    | zero => rfl
    | succ count => exact ih count

/-! What the filter answers. -/

/-- The numbers that a test can still reach the admission from. -/
def admitted (allowed : List UInt32) : List UInt32 := allowed.drop (allowed.length - 255)

theorem admitted_of_le {allowed : List UInt32} (short : allowed.length ≤ 255) :
    admitted allowed = allowed := by
  rw [admitted, Nat.sub_eq_zero_of_le short, List.drop_zero]

theorem admitted_cons {nr : UInt32} {rest : List UInt32} (long : 255 ≤ rest.length) :
    admitted (nr :: rest) = admitted rest := by
  rw [admitted, admitted, List.length_cons, Nat.succ_sub long, List.drop_succ_cons]

theorem admitted_drop {allowed : List UInt32} {count : ℕ}
    (behind : count + 255 ≤ allowed.length) :
    admitted (allowed.drop count) = admitted allowed := by
  rw [admitted, admitted, List.drop_drop, List.length_drop]
  exact congrArg (allowed.drop ·) (by omega)

theorem mem_admitted_cons_of_ne {nr other : UInt32} {rest : List UInt32} (different : nr ≠ other) :
    nr ∈ admitted (other :: rest) ↔ nr ∈ admitted rest := by
  by_cases short : rest.length < 255
  · rw [admitted_of_le (by rw [List.length_cons]; omega), admitted_of_le (by omega),
      List.mem_cons, or_iff_right different]
  · rw [admitted_cons (by omega)]

def decision (allowed : List UInt32) (denyErrno nr : UInt32) : UInt32 :=
  if nr ∈ admitted allowed then seccompRetAllow
  else seccompRetErrno ||| (denyErrno &&& seccompRetData)

section Verdict

variable {p : Packet} {r : Regs}

/-- A match jumps to the admission, or, if the distance wraps, to a later test. -/
theorem exec_testInsns (allowed : List UInt32) (denyErrno : UInt32) :
    exec p 0 r (testInsns allowed ++ verdictInsns denyErrno) =
      some (decision allowed denyErrno r.a) := by
  induction size : allowed.length using Nat.strongRecOn generalizing allowed with
  | ind n ih =>
    cases allowed with
    | nil => rfl
    | cons nr rest =>
      rw [List.length_cons] at size
      rw [testInsns, List.cons_append, exec_jeq, UInt8.toNat_ofNat']
      by_cases found : r.a = nr
      · rw [if_pos found]
        by_cases short : rest.length < 255
        · -- behind the tests and the refusal stands the admission
          have jump : (rest.length + 1) % 2 ^ 8 = (testInsns rest).length + 1 := by
            rw [length_testInsns]
            omega
          rw [jump, List.drop_append, List.drop_of_length_le (by omega), decision,
            admitted_of_le (by rw [List.length_cons]; omega), if_pos (by simp [found])]
          simp [verdictInsns, exec, Insn.step]
        · have inside : (rest.length + 1) % 2 ^ 8 + 255 ≤ rest.length := by omega
          rw [List.drop_append_of_le_length (by rw [length_testInsns]; omega), drop_testInsns,
            ih _ (by rw [List.length_drop]; omega) _ rfl, decision, decision,
            admitted_drop inside, admitted_cons (by omega)]
      · rw [if_neg found, UInt8.toNat_zero, List.drop_zero, ih _ (by omega) _ rfl, decision,
          decision]
        exact congrArg some (if_congr (mem_admitted_cons_of_ne found).symm rfl rfl)

/-- The whole filter. -/
theorem run_buildAllowlist (allowed : List UInt32) (denyErrno : UInt32) (d : SeccompData) :
    run d.packet (buildAllowlist allowed denyErrno) =
      some (if d.arch = auditArchX86_64 then decision allowed denyErrno d.nr
        else seccompRetKillProcess) := by
  have arch : d.packet.load seccompDataArchOff = d.arch := rfl
  have nr : d.packet.load seccompDataNrOff = d.nr := rfl
  rw [run, mapM_decode_buildAllowlist, Option.bind_some, allowlistInsns, exec_ldAbs, arch, exec_jeq]
  by_cases native : d.arch = auditArchX86_64
  · rw [if_pos native, if_pos native]
    change exec _ 0 _ (.ldAbs seccompDataNrOff :: (testInsns allowed ++ verdictInsns denyErrno)) = _
    rw [exec_ldAbs, nr, exec_testInsns]
  · rw [if_neg native, if_neg native, UInt8.toNat_zero, List.drop_zero, exec_retK]

end Verdict

/-! Which of the programs the kernel takes. -/

theorem checks_testInsns (allowed : List UInt32) (denyErrno : UInt32) :
    checks readable (testInsns allowed ++ verdictInsns denyErrno) := by
  induction allowed with
  | nil => rfl
  | cons nr rest ih =>
    have jump : (UInt8.ofNat (rest.length + 1)).toNat ≤ rest.length + 1 := by
      rw [UInt8.toNat_ofNat']
      exact Nat.mod_le _ _
    have behind : (testInsns rest ++ verdictInsns denyErrno).length = rest.length + 2 := by
      rw [List.length_append, length_testInsns]
      rfl
    rw [testInsns, List.cons_append]
    refine checks_cons.mpr ⟨?_, ih⟩
    rw [behind]
    simp only [Insn.fits, Bool.and_eq_true, decide_eq_true_eq, UInt8.toNat_zero]
    omega

theorem checks_allowlistInsns (allowed : List UInt32) (denyErrno : UInt32) :
    checks readable (allowlistInsns allowed denyErrno) := by
  refine checks_cons.mpr ⟨rfl, checks_cons.mpr ⟨?_, checks_cons.mpr ⟨rfl, checks_cons.mpr ⟨?_,
    checks_testInsns allowed denyErrno⟩⟩⟩⟩
  · simp [Insn.fits]
  · simp [Insn.fits, readable, seccompDataNrOff, verdictInsns]

theorem mem_testInsns {allowed : List UInt32} {insn : Insn} (member : insn ∈ testInsns allowed) :
    ∃ nr jt, insn = .jump .jeq (.const nr) jt 0 := by
  induction allowed with
  | nil => cases member
  | cons nr rest ih =>
    rcases List.mem_cons.mp member with rfl | member
    · exact ⟨nr, _, rfl⟩
    · exact ih member

/-- A program that ends in a load or a test is refused. -/
theorem not_checks_of_tests (allowed : List UInt32) (offset : UInt32) (count : ℕ) :
    ¬ checks readable (.ldAbs offset :: (testInsns allowed).take count) := by
  intro fine
  have some := List.cons_ne_nil (Insn.ldAbs offset) ((testInsns allowed).take count)
  have last := fits_getLast fine some
  have member := List.getLast_mem some
  rcases List.mem_cons.mp member with load | test
  · rw [load] at last
    simp [Insn.fits] at last
  · obtain ⟨nr, jt, test⟩ := mem_testInsns (List.mem_of_mem_take test)
    rw [test] at last
    simp [Insn.fits] at last

theorem not_checks_take {allowed : List UInt32} {denyErrno : UInt32} {count : ℕ}
    (some : 0 < count) (short : count < allowed.length + 5) :
    ¬ checks readable ((allowlistInsns allowed denyErrno).take count) := by
  intro fine
  match count with
  | 1 => simp [allowlistInsns, checks, Insn.fits] at fine
  | 2 => simp [allowlistInsns, checks, Insn.fits] at fine
  | 3 => simp [allowlistInsns, checks, Insn.fits] at fine
  | count + 4 =>
    have later := checks_drop fine 3
    rw [allowlistInsns, List.take_succ_cons, List.take_succ_cons, List.take_succ_cons,
      List.take_succ_cons, List.take_append_of_le_length (by rw [length_testInsns]; omega)] at later
    exact not_checks_of_tests allowed _ count later

theorem mapM_decode_fprog (allowed : List UInt32) (denyErrno : UInt32) :
    (fprog (buildAllowlist allowed denyErrno)).mapM SockFilter.decode =
      some ((allowlistInsns allowed denyErrno).take ((allowed.length + 6) % 65536)) := by
  rw [fprog, length_buildAllowlist, UInt16.toNat_ofNat']
  exact mapM_decode_take (mapM_decode_buildAllowlist allowed denyErrno) _

/-- The kernel takes the filter of a list of up to 4090 numbers, and takes it whole. -/
theorem accepts_fprog_iff (allowed : List UInt32) (denyErrno : UInt32) :
    accepts readable (fprog (buildAllowlist allowed denyErrno)) ↔ allowed.length ≤ 4090 := by
  have length : (fprog (buildAllowlist allowed denyErrno)).length =
      (allowed.length + 6) % 65536 := by
    rw [fprog, List.length_take, length_buildAllowlist, UInt16.toNat_ofNat']
    exact Nat.min_eq_left (Nat.mod_le _ _)
  rw [accepts, mapM_decode_fprog, length, Bool.and_eq_true, Bool.and_eq_true, decide_eq_true_eq,
    decide_eq_true_eq, maxInsns]
  constructor
  · rintro ⟨⟨some, few⟩, fine⟩
    by_contra long
    -- the length has wrapped, and the last instruction taken is a test or a load
    exact not_checks_take some (by omega) fine
  · intro short
    rw [Nat.mod_eq_of_lt (by omega)]
    refine ⟨⟨by omega, by omega⟩, ?_⟩
    have whole : (allowlistInsns allowed denyErrno).length = allowed.length + 6 := by
      simp [allowlistInsns, verdictInsns]
    rw [← whole, List.take_length]
    exact checks_allowlistInsns allowed denyErrno

theorem fprog_of_le {allowed : List UInt32} {denyErrno : UInt32}
    (short : allowed.length ≤ 4090) :
    fprog (buildAllowlist allowed denyErrno) = buildAllowlist allowed denyErrno := by
  have size := length_buildAllowlist allowed denyErrno
  rw [fprog, size, UInt16.toNat_ofNat', Nat.mod_eq_of_lt (by omega), ← size, List.take_length]

/-- What the kernel answers to a call, if it has taken the filter. -/
def kernelAnswer (prog : List SockFilter) (d : SeccompData) : Option UInt32 :=
  if accepts readable prog then run d.packet prog else none

/-- A list of up to 4090 numbers makes a filter, and no other does; it admits the last 255 of them on
the native architecture and refuses the others there. -/
theorem kernelAnswer_fprog (allowed : List UInt32) (denyErrno : UInt32) (d : SeccompData) :
    kernelAnswer (fprog (buildAllowlist allowed denyErrno)) d =
      if allowed.length ≤ 4090 then
        some (if d.arch = auditArchX86_64 then
          if d.nr ∈ allowed.drop (allowed.length - 255) then seccompRetAllow
          else seccompRetErrno ||| (denyErrno &&& seccompRetData)
        else seccompRetKillProcess)
      else none := by
  rw [kernelAnswer]
  refine ite_congr (propext (accepts_fprog_iff allowed denyErrno)) (fun short => ?_) fun _ => rfl
  rw [fprog_of_le short, run_buildAllowlist]
  rfl

end LinuxSys.Fwatch.Sandbox
