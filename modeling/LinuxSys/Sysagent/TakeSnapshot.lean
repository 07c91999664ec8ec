import LinuxSys.Lib.Wrap
import LinuxSys.Sysagent.Readable

/-! # How sysagent takes a snapshot

`take_snapshot` reads `/proc/stat`, lets five readers run, waits for them and reads `/proc/stat`
again. C++ counts the readers that succeeded, pressure among them, and wants four; Rust and Go want
that no required one failed. The percentages are kept as the differences that they are made of.
-/

namespace LinuxSys.Sysagent.Procfs

open Lib InStream

/-- The differences that the percentages are made of. -/
structure Shares where
  busy : ℤ
  user : ℤ
  system : ℤ
  total : ℤ
deriving DecidableEq, Repr

structure MemUse where
  totalKb : ℤ := 0
  availableKb : ℤ := 0
  usedKb : ℤ := 0
deriving DecidableEq, Repr

/-- The percentages are zero without shares, pressure is not available without `psi`. -/
structure Sample (F : Type) where
  cpu : Option Shares := none
  load : LoadAvg F
  mem : MemUse := {}
  disks : List DiskStat := []
  net : List NetStat := []
  psi : Option (Psi F) := none
deriving DecidableEq, Repr

inductive Worker where
  | load
  | mem
  | disk
  | net
  | psi
deriving DecidableEq, Repr

def Worker.all : List Worker := [.load, .mem, .disk, .net, .psi]

/-! Arithmetic. -/

def Fits (x : ℤ) : Prop := -2 ^ 63 ≤ x ∧ x < 2 ^ 63

instance (x : ℤ) : Decidable (Fits x) := inferInstanceAs (Decidable (_ ∧ _))

/-- Overflow is undefined in C++. -/
def arith (lang : Language) (x : ℤ) : Option ℤ :=
  match lang with
  | .cpp => if Fits x then some x else none
  | .rust | .go => some (toSigned 64 x)

/-- The busy time without interrupts, and the total. -/
def sums (lang : Language) (t : CpuTicks) : Option (ℤ × ℤ) := do
  let busy ← arith lang (t.user + t.nice)
  let busy ← arith lang (busy + t.system)
  let idle ← arith lang (t.idle + t.iowait)
  let total ← arith lang (busy + idle)
  let total ← arith lang (total + t.irq)
  let total ← arith lang (total + t.softirq)
  let total ← arith lang (total + t.steal)
  return (busy, total)

def shares (lang : Language) (t0 t1 : CpuTicks) : Option (Option Shares) := do
  let (busy0, total0) ← sums lang t0
  let (busy1, total1) ← sums lang t1
  let total ← arith lang (total1 - total0)
  let busy ← arith lang (busy1 - busy0)
  let irq ← arith lang (t1.irq - t0.irq)
  let busy ← arith lang (busy + irq)
  let softirq ← arith lang (t1.softirq - t0.softirq)
  let busy ← arith lang (busy + softirq)
  let steal ← arith lang (t1.steal - t0.steal)
  let busy ← arith lang (busy + steal)
  let user ← arith lang (t1.user - t0.user)
  let system ← arith lang (t1.system - t0.system)
  return if 0 < total then some ⟨busy, user, system, total⟩ else none

/-! The readers at work. -/

section Snapshot

variable {F : Type} (num : Doubles F)

/-- `okCount` is the C++ program's. -/
structure Gather (F : Type) where
  snap : Sample F
  okCount : ℕ := 0
  firstError : Option Fault := none
deriving DecidableEq, Repr

def Gather.note (g : Gather F) (fault : Fault) : Gather F :=
  { g with firstError := g.firstError.or (some fault) }

/-- `none` is the end of the process. -/
def work (lang : Language) (src : Sources) (g : Gather F) : Worker → Option (Gather F)
  | .load =>
    match readLoadavg num lang src.loadavg with
    | .done (.ok load) => some ⟨{ g.snap with load := load }, g.okCount + 1, g.firstError⟩
    | .done (.error fault) => some (g.note fault)
    | .thrown => none
  | .mem =>
    match readMeminfo lang src.meminfo with
    | .ok mi => (arith lang (mi.totalKb - mi.availableKb)).map fun used =>
        ⟨{ g.snap with mem := ⟨mi.totalKb, mi.availableKb, used⟩ }, g.okCount + 1, g.firstError⟩
    | .error fault => some (g.note fault)
  | .disk =>
    match readDiskstats lang src.diskstats with
    | .ok disks => some ⟨{ g.snap with disks := disks }, g.okCount + 1, g.firstError⟩
    | .error fault => some (g.note fault)
  | .net =>
    match readNetdev lang src.netDev with
    | .ok net => some ⟨{ g.snap with net := net }, g.okCount + 1, g.firstError⟩
    | .error fault => some (g.note fault)
  | .psi => some ⟨{ g.snap with psi := readPsi num lang src }, g.okCount + 1, g.firstError⟩

/-- The order in which results are taken: Rust joins its threads in an order of its own. -/
def joined (lang : Language) (order : List Worker) : List Worker :=
  match lang with
  | .rust => Worker.all
  | .cpp | .go => order

def enough (lang : Language) (g : Gather F) : Bool :=
  match lang with
  | .cpp => 4 ≤ g.okCount
  | .rust | .go => g.firstError.isNone

inductive Outcome (F : Type) where
  | snapshot (s : Sample F)
  | error (fault : Option Fault)
  | died
deriving DecidableEq, Repr

def Outcome.succeeds : Outcome F → Prop
  | .snapshot _ => True
  | _ => False

def start : Gather F := { snap := { load := ⟨num.zero, num.zero, num.zero, 0, 0⟩ } }

/-- `take_snapshot` when the readers finish in this order. -/
def takeSnapshot (lang : Language) (order : List Worker) (src : Sources) : Outcome F :=
  match readCpuTicks lang src.stat with
  | .ok t0 =>
    match (joined lang order).foldlM (work num lang src) (start num) with
    | none => .died
    | some g =>
      if enough lang g then
        match readCpuTicks lang src.statAgain with
        | .ok t1 =>
          match shares lang t0 t1 with
          | some cpu => .snapshot { g.snap with cpu := cpu }
          | none => .died
        | .error fault => .error (some fault)
      else .error g.firstError
  | .error fault => .error (some fault)

end Snapshot

/-! What a snapshot is to say. -/

section Right

variable {F : Type} (num : Doubles F)

def busyOf (t : CpuTicks) : ℤ := t.user + t.nice + t.system + t.irq + t.softirq + t.steal

def totalOf (t : CpuTicks) : ℤ := busyOf t + t.idle + t.iowait

/-- The shares, without overflow. -/
def sharesOf (t0 t1 : CpuTicks) : Option Shares :=
  if 0 < totalOf t1 - totalOf t0 then
    some ⟨busyOf t1 - busyOf t0, t1.user - t0.user, t1.system - t0.system, totalOf t1 - totalOf t0⟩
  else none

/-- Pressure is that of the own group or else the system's. -/
def psiOf (lang : Language) (src : Sources) : Option (Psi F) :=
  (readPsiOfGroup num lang src).or (readPsiFrom num lang src.pressure)

/-- The snapshot of sources that can all be read. -/
def sampleOf (lang : Language) (src : Sources) : Option (Sample F) := do
  let t0 ← (readCpuTicks lang src.stat).toOption
  let load ← (readLoadavg num lang src.loadavg).toOption
  let mi ← (readMeminfo lang src.meminfo).toOption
  let disks ← (readDiskstats lang src.diskstats).toOption
  let net ← (readNetdev lang src.netDev).toOption
  let t1 ← (readCpuTicks lang src.statAgain).toOption
  return ⟨sharesOf t0 t1, load, ⟨mi.totalKb, mi.availableKb, mi.totalKb - mi.availableKb⟩, disks, net,
    psiOf num lang src⟩

def Right (lang : Language) (src : Sources) : Outcome F → Prop
  | .snapshot s => sampleOf num lang src = some s
  | .error _ => sampleOf num lang src = none
  | .died => False

/-- The source of a reader can be read; pressure need not be. -/
def Readable (lang : Language) (src : Sources) : Worker → Prop
  | .load => HasLoads num lang src.loadavg
  | .mem => HasKeys lang src.meminfo
  | .disk => Lists lang src.diskstats
  | .net => Lists lang src.netDev
  | .psi => True

structure Reads (lang : Language) (src : Sources) : Prop where
  stat : HasTicks lang src.stat
  readers : ∀ w, Readable num lang src w
  statAgain : HasTicks lang src.statAgain

/-- The used memory fits into a word. -/
def MemFits (lang : Language) (src : Sources) : Prop :=
  ∀ mi, readMeminfo lang src.meminfo = .ok mi → Fits (mi.totalKb - mi.availableKb)

/-- The sums on the way to the total of a reading. -/
def sumsOf (t : CpuTicks) : List ℤ :=
  let busy := t.user + t.nice + t.system
  [t.user + t.nice, busy, t.idle + t.iowait, busy + (t.idle + t.iowait),
    busy + (t.idle + t.iowait) + t.irq, busy + (t.idle + t.iowait) + t.irq + t.softirq,
    busy + (t.idle + t.iowait) + t.irq + t.softirq + t.steal]

/-- The differences of two readings, and the sums on the way to the busy time. -/
def differencesOf (t0 t1 : CpuTicks) : List ℤ :=
  let busy := t1.user + t1.nice + t1.system - (t0.user + t0.nice + t0.system)
  [totalOf t1 - totalOf t0, busy, t1.irq - t0.irq, busy + (t1.irq - t0.irq),
    t1.softirq - t0.softirq, busy + (t1.irq - t0.irq) + (t1.softirq - t0.softirq),
    t1.steal - t0.steal,
    busy + (t1.irq - t0.irq) + (t1.softirq - t0.softirq) + (t1.steal - t0.steal),
    t1.user - t0.user, t1.system - t0.system]

/-- C++ computes nothing that does not fit into a word; elsewhere the differences fit if any of them
is used. -/
def TicksFit (lang : Language) (t0 t1 : CpuTicks) : Prop :=
  match lang with
  | .cpp => ∀ x ∈ sumsOf t0 ++ sumsOf t1 ++ differencesOf t0 t1, Fits x
  | .rust | .go => 0 < totalOf t1 - totalOf t0 ∨ 0 < toSigned 64 (totalOf t1 - totalOf t0) →
      Fits (totalOf t1 - totalOf t0) ∧ Fits (busyOf t1 - busyOf t0) ∧ Fits (t1.user - t0.user) ∧
        Fits (t1.system - t0.system)

/-- Pressure is found in the own group, or the system has none. -/
def PsiFound (lang : Language) (src : Sources) : Prop :=
  (readPsiOfGroup num lang src).isSome ∨ ∀ r, readPressure num lang (src.pressure r) = none

/-- What C++ needs once `/proc/stat` was read. -/
structure FineCpp (src : Sources) : Prop where
  numbers : ¬ Throws num src.loadavg
  mem : MemFits .cpp src
  notAlone : HasTicks .cpp src.statAgain → ¬ ∃! w, ¬ Readable num .cpp src w
  ticks : (∀ w, Readable num .cpp src w) → ∀ t0 t1, readCpuTicks .cpp src.stat = .ok t0 →
    readCpuTicks .cpp src.statAgain = .ok t1 → TicksFit .cpp t0 t1

/-- What Rust and Go need if all sources can be read. -/
structure FineOther (lang : Language) (src : Sources) : Prop where
  mem : MemFits lang src
  ticks : ∀ t0 t1, readCpuTicks lang src.stat = .ok t0 → readCpuTicks lang src.statAgain = .ok t1 →
    TicksFit lang t0 t1
  psi : PsiFound num lang src

def Fine (src : Sources) : Prop :=
  (HasTicks .cpp src.stat → FineCpp num src) ∧
    (Reads num .rust src → FineOther num .rust src) ∧ (Reads num .go src → FineOther num .go src)

end Right

/-! Arithmetic. -/

section Arithmetic

variable {lang : Language} {t t0 t1 : CpuTicks} {x y : ℤ}

theorem bind_arith_cpp_iff {β : Type} {f : ℤ → Option β} {b : β} :
    (arith .cpp x >>= f) = some b ↔ Fits x ∧ f x = some b := by
  unfold arith
  dsimp only
  split
  · next fits => exact (and_iff_right fits).symm
  · next wide => exact iff_of_false nofun fun both => wide both.1

theorem toSigned_eq_iff : toSigned 64 x = x ↔ Fits x := by
  constructor
  · intro same
    have least := @Int.le_bmod x (2 ^ 64) (by decide)
    have most := @Int.bmod_lt x (2 ^ 64) (by decide)
    rw [toSigned] at same
    rw [same] at least most
    exact ⟨by omega, by omega⟩
  · rintro ⟨least, most⟩
    exact toSigned_of_lt least most

theorem arith_eq_self_iff : arith lang x = some x ↔ Fits x := by
  cases lang with
  | cpp => simp [arith]
  | rust | go => exact (Option.some.injEq _ _).to_iff.trans toSigned_eq_iff

/-- C++ computes the exact values, if none on the way is too large. -/
theorem sums_cpp_iff {pair : ℤ × ℤ} : sums .cpp t = some pair ↔
    (∀ x ∈ sumsOf t, Fits x) ∧ (t.user + t.nice + t.system, totalOf t) = pair := by
  have order : t.user + t.nice + t.system + (t.idle + t.iowait) + t.irq + t.softirq + t.steal =
      totalOf t := by
    unfold totalOf busyOf
    omega
  unfold sums sumsOf
  simp only [bind_arith_cpp_iff, order, Option.pure_def, Option.some.injEq, List.forall_mem_cons,
    List.not_mem_nil, false_imp_iff, implies_true, and_true, and_assoc]

theorem bind_sums_cpp_iff {β : Type} {f : ℤ × ℤ → Option β} {b : β} :
    (sums .cpp t >>= f) = some b ↔
      (∀ x ∈ sumsOf t, Fits x) ∧ f (t.user + t.nice + t.system, totalOf t) = some b := by
  rw [Option.bind_eq_bind, Option.bind_eq_some_iff]
  simp only [sums_cpp_iff]
  constructor
  · rintro ⟨_, ⟨fits, rfl⟩, same⟩
    exact ⟨fits, same⟩
  · rintro ⟨fits, same⟩
    exact ⟨_, ⟨fits, rfl⟩, same⟩

theorem busy_differences : t1.user + t1.nice + t1.system - (t0.user + t0.nice + t0.system) +
    (t1.irq - t0.irq) + (t1.softirq - t0.softirq) + (t1.steal - t0.steal) =
      busyOf t1 - busyOf t0 := by
  unfold busyOf
  omega

theorem shares_cpp_iff {cpu : Option Shares} : shares .cpp t0 t1 = some cpu ↔
    TicksFit .cpp t0 t1 ∧ sharesOf t0 t1 = cpu := by
  unfold shares TicksFit differencesOf sharesOf
  simp only [bind_sums_cpp_iff, bind_arith_cpp_iff, busy_differences, Option.pure_def,
    Option.some.injEq, List.forall_mem_append, List.forall_mem_cons, List.not_mem_nil,
    false_imp_iff, implies_true, and_true, and_assoc]

theorem arith_of_ne (other : lang ≠ .cpp) (x : ℤ) : arith lang x = some (toSigned 64 x) := by
  cases lang with
  | cpp => exact absurd rfl other
  | rust | go => rfl

theorem toSigned_add_left (x y : ℤ) : toSigned 64 (toSigned 64 x + y) = toSigned 64 (x + y) :=
  Int.bmod_add_bmod

theorem toSigned_add_right (x y : ℤ) : toSigned 64 (x + toSigned 64 y) = toSigned 64 (x + y) :=
  Int.add_bmod_bmod

theorem toSigned_sub (x y : ℤ) :
    toSigned 64 (toSigned 64 x - toSigned 64 y) = toSigned 64 (x - y) :=
  Int.bmod_sub_bmod.trans Int.sub_bmod_bmod

theorem sums_wrapping (other : lang ≠ .cpp) : sums lang t =
    some (toSigned 64 (t.user + t.nice + t.system), toSigned 64 (totalOf t)) := by
  have order : t.user + t.nice + t.system + (t.idle + t.iowait) + t.irq + t.softirq + t.steal =
      totalOf t := by
    unfold totalOf busyOf
    omega
  unfold sums
  simp only [arith_of_ne other, Option.bind_eq_bind, Option.bind_some, Option.pure_def]
  simp only [toSigned_add_left, toSigned_add_right, order]

/-- The shares of differences that are cut to a word. -/
def sharesWrapped (t0 t1 : CpuTicks) : Option Shares :=
  if 0 < toSigned 64 (totalOf t1 - totalOf t0) then
    some ⟨toSigned 64 (busyOf t1 - busyOf t0), toSigned 64 (t1.user - t0.user),
      toSigned 64 (t1.system - t0.system), toSigned 64 (totalOf t1 - totalOf t0)⟩
  else none

/-- Rust and Go compute modulo the size of a word. -/
theorem shares_wrapping (other : lang ≠ .cpp) :
    shares lang t0 t1 = some (sharesWrapped t0 t1) := by
  unfold shares sharesWrapped
  simp only [sums_wrapping other, arith_of_ne other, Option.bind_eq_bind, Option.bind_some,
    Option.pure_def]
  simp only [toSigned_add_left, toSigned_add_right, toSigned_sub, busy_differences]

theorem sharesWrapped_iff (other : lang ≠ .cpp) :
    sharesWrapped t0 t1 = sharesOf t0 t1 ↔ TicksFit lang t0 t1 := by
  have fit : TicksFit lang t0 t1 ↔ TicksFit .go t0 t1 := by
    cases lang with
    | cpp => exact absurd rfl other
    | rust | go => rfl
  rw [fit]
  unfold TicksFit sharesWrapped sharesOf
  simp only
  by_cases exact' : 0 < totalOf t1 - totalOf t0
  · rw [if_pos exact']
    constructor
    · intro same _
      split at same
      · simp only [Option.some.injEq, Shares.mk.injEq, toSigned_eq_iff] at same
        exact ⟨same.2.2.2, same.1, same.2.1, same.2.2.1⟩
      · cases same
    · intro fits
      obtain ⟨total, busy, user, system⟩ := fits (.inl exact')
      rw [toSigned_eq_iff.mpr total, toSigned_eq_iff.mpr busy, toSigned_eq_iff.mpr user,
        toSigned_eq_iff.mpr system, if_pos exact']
  · rw [if_neg exact']
    constructor
    · intro same either
      rcases either with here | wrapped
      · exact absurd here exact'
      · rw [if_pos wrapped] at same
        cases same
    · intro fits
      refine if_neg fun wrapped => ?_
      have total := toSigned_eq_iff.mpr (fits (.inr wrapped)).1
      rw [total] at wrapped
      exact exact' wrapped

end Arithmetic

/-! The readers, in any order. -/

section Gather

variable {F : Type} (num : Doubles F) (lang : Language) (src : Sources)

/-- What a reader adds to the snapshot. -/
def fill (s : Sample F) : Worker → Sample F
  | .load => { s with load := (readLoadavg num lang src.loadavg).toOption.getD s.load }
  | .mem => { s with
      mem := ((readMeminfo lang src.meminfo).toOption.map fun mi =>
        ⟨mi.totalKb, mi.availableKb, (arith lang (mi.totalKb - mi.availableKb)).getD 0⟩).getD s.mem }
  | .disk => { s with disks := (readDiskstats lang src.diskstats).toOption.getD s.disks }
  | .net => { s with net := (readNetdev lang src.netDev).toOption.getD s.net }
  | .psi => { s with psi := readPsi num lang src }

def faultOf {α : Type} : Except Fault α → Option Fault
  | .ok _ => none
  | .error fault => some fault

/-- What a reader complains about. -/
def fault : Worker → Option Fault
  | .load =>
    match readLoadavg num lang src.loadavg with
    | .done result => faultOf result
    | .thrown => none
  | .mem => faultOf (readMeminfo lang src.meminfo)
  | .disk => faultOf (readDiskstats lang src.diskstats)
  | .net => faultOf (readNetdev lang src.netDev)
  | .psi => none

/-- A reader ends the process. -/
def Dies : Worker → Prop
  | .load => readLoadavg num lang src.loadavg = .thrown
  | .mem => ∃ mi, readMeminfo lang src.meminfo = .ok mi ∧
      arith lang (mi.totalKb - mi.availableKb) = none
  | .disk | .net | .psi => False

variable {num lang src}

theorem work_of_dies {g : Gather F} {w : Worker} (dies : Dies num lang src w) :
    work num lang src g w = none := by
  cases w with
  | load =>
    unfold work
    rw [show readLoadavg num lang src.loadavg = .thrown from dies]
  | mem =>
    obtain ⟨mi, read, wide⟩ := dies
    unfold work
    rw [read]
    simp only [wide, Option.map_none]
  | disk | net | psi => cases dies

theorem work_eq {g : Gather F} {w : Worker} (lives : ¬ Dies num lang src w) :
    work num lang src g w = some ⟨fill num lang src g.snap w,
      g.okCount + (if (fault num lang src w).isNone then 1 else 0),
      g.firstError.or (fault num lang src w)⟩ := by
  cases w with
  | load =>
    unfold work fill fault
    dsimp only
    cases read : readLoadavg num lang src.loadavg with
    | done result =>
      cases result with
      | ok load => simp [faultOf, Read.toOption, Except.toOption]
      | error e => simp [faultOf, Read.toOption, Except.toOption, Gather.note]
    | thrown => exact absurd read lives
  | mem =>
    unfold work fill fault
    dsimp only
    cases read : readMeminfo lang src.meminfo with
    | ok mi =>
      cases used : arith lang (mi.totalKb - mi.availableKb) with
      | none => exact absurd ⟨mi, read, used⟩ lives
      | some n => simp [faultOf, Except.toOption, used]
    | error e => simp [faultOf, Except.toOption, Gather.note]
  | disk =>
    unfold work fill fault
    dsimp only
    cases readDiskstats lang src.diskstats with
    | ok disks => simp [faultOf, Except.toOption]
    | error e => simp [faultOf, Except.toOption, Gather.note]
  | net =>
    unfold work fill fault
    dsimp only
    cases readNetdev lang src.netDev with
    | ok net => simp [faultOf, Except.toOption]
    | error e => simp [faultOf, Except.toOption, Gather.note]
  | psi => simp [work, fill, fault]

/-- Where a reader ends the process, the order does not matter. -/
theorem foldlM_work_of_dies {order : List Worker} {w : Worker} (member : w ∈ order)
    (dies : Dies num lang src w) (g : Gather F) :
    order.foldlM (work num lang src) g = none := by
  induction order generalizing g with
  | nil => cases member
  | cons v rest ih =>
    rw [List.foldlM_cons]
    rcases List.mem_cons.mp member with rfl | later
    · rw [work_of_dies dies]
      rfl
    · cases work num lang src g v with
      | none => rfl
      | some next => exact ih later next

theorem foldlM_work {order : List Worker} (lives : ∀ w ∈ order, ¬ Dies num lang src w)
    (g : Gather F) : order.foldlM (work num lang src) g =
      some ⟨order.foldl (fill num lang src) g.snap,
        g.okCount + order.countP fun w => (fault num lang src w).isNone,
        g.firstError.or (order.findSome? (fault num lang src))⟩ := by
  induction order generalizing g with
  | nil => simp
  | cons w rest ih =>
    obtain ⟨here, later⟩ := List.forall_mem_cons.mp lives
    rw [List.foldlM_cons, work_eq here, Option.bind_eq_bind, Option.bind_some, ih later,
      List.foldl_cons, List.countP_cons, List.findSome?_cons]
    congr 2
    · dsimp only
      omega
    · rw [Option.or_assoc]
      cases fault num lang src w with
      | _ => rfl

theorem fill_comm (s : Sample F) (v w : Worker) :
    fill num lang src (fill num lang src s v) w = fill num lang src (fill num lang src s w) v := by
  cases v with
  | _ => cases w with | _ => rfl

theorem foldl_fill_perm {order : List Worker} (perm : order.Perm Worker.all) (s : Sample F) :
    order.foldl (fill num lang src) s = Worker.all.foldl (fill num lang src) s :=
  perm.foldl_eq' (fun v _ w _ s => fill_comm s v w) s

theorem faultOf_eq_none_iff {α : Type} {result : Except Fault α} :
    faultOf result = none ↔ result.toOption.isSome := by
  cases result with
  | ok a => exact iff_of_true rfl rfl
  | error e => exact iff_of_false nofun nofun

theorem fault_eq_none_iff {w : Worker} (lives : ¬ Dies num lang src w) :
    fault num lang src w = none ↔ Readable num lang src w := by
  cases w with
  | load =>
    refine Iff.trans ?_ readLoadavg_iff
    unfold fault
    dsimp only
    cases read : readLoadavg num lang src.loadavg with
    | done result => exact faultOf_eq_none_iff
    | thrown => exact absurd read lives
  | mem => exact faultOf_eq_none_iff.trans readMeminfo_iff
  | disk => exact faultOf_eq_none_iff.trans readDiskstats_iff
  | net => exact faultOf_eq_none_iff.trans readNetdev_iff
  | psi => exact iff_of_true rfl trivial

theorem mem_of_perm {order : List Worker} (perm : order.Perm Worker.all) (w : Worker) :
    w ∈ order := by
  refine perm.mem_iff.mpr ?_
  cases w with
  | _ => decide

theorem joined_perm {order : List Worker} (perm : order.Perm Worker.all) :
    (joined lang order).Perm Worker.all := by
  cases lang with
  | cpp | go => exact perm
  | rust => exact .refl _

/-- At most one meets a test if none does or one alone. -/
theorem length_filter_le_one_iff {α : Type} {all : List α} (nodup : all.Nodup)
    (complete : ∀ a, a ∈ all) (q : α → Bool) :
    (all.filter q).length ≤ 1 ↔ (∀ a, ¬ q a) ∨ ∃! a, q a := by
  have member : ∀ a, a ∈ all.filter q ↔ q a := by
    intro a
    rw [List.mem_filter, and_iff_right (complete a)]
  have distinct : (all.filter q).Nodup := nodup.filter q
  cases found : all.filter q with
  | nil =>
    refine iff_of_true (Nat.zero_le 1) (.inl fun a here => ?_)
    have inside := (member a).mpr here
    rw [found] at inside
    cases inside
  | cons a rest =>
    rw [found] at member distinct
    have here : q a := (member a).mp List.mem_cons_self
    cases rest with
    | nil =>
      refine iff_of_true (Nat.le_refl 1) (.inr ⟨a, here, fun b other => ?_⟩)
      exact List.mem_singleton.mp ((member b).mpr other)
    | cons b rest =>
      refine iff_of_false (by simp) ?_
      have next : q b := (member b).mp (by simp)
      rintro (none | ⟨c, -, only⟩)
      · exact none a here
      · have same : a = b := (only a here).trans (only b next).symm
        exact (List.nodup_cons.mp distinct).1 (by simp [same])

/-- Four of the five succeed if all do or if one alone does not. -/
theorem four_le_countP_iff (p : Worker → Bool) :
    4 ≤ Worker.all.countP p ↔ (∀ w, p w) ∨ ∃! w, ¬ p w := by
  have complete : ∀ w, w ∈ Worker.all := mem_of_perm (.refl _)
  have few := length_filter_le_one_iff (by decide) complete fun w => decide ¬ p w
  have count := Worker.all.length_eq_countP_add_countP p
  have five : Worker.all.length = 5 := rfl
  simp only [decide_eq_true_eq, not_not, ← List.countP_eq_length_filter] at few
  rw [← few]
  omega

end Gather

end LinuxSys.Sysagent.Procfs
