import LinuxSys.Fwatch.Sandbox
import LinuxSys.Lib.Machine
import Mathlib.Algebra.Order.Ring.Int

/-! # The sandbox of fwatch ch33 over all threads

`watch --sandbox DIR` confines a process whose runtime starts and ends threads as it likes. Landlock
and seccomp are states of a thread that a new thread inherits; both are installed with a flag that
reaches every thread there is. Where Landlock refuses that flag, the program asks again without it,
and then the other threads stay as they were.
-/

namespace LinuxSys.Fwatch.Sandbox

open Lib Bpf

abbrev Tid := ℕ

abbrev Errno := ℕ

def EPERM : Errno := 1
def E2BIG : Errno := 7
def ENOMEM : Errno := 12
def EACCES : Errno := 13
def EINVAL : Errno := 22

/-- A path with its links resolved. -/
abbrev Path := List String

/-- An installed filter; two with one program are two filters. -/
structure Filter where
  id : ℕ
  prog : List SockFilter
deriving DecidableEq

/-- The filters of a thread, the newest first, and for each of its Landlock layers the hierarchy that
stays readable. -/
structure Thread where
  tid : Tid
  noNewPrivs : Bool
  filters : List Filter
  domains : List Path
deriving DecidableEq

/-! What a thread may do. -/

/-- The upper half of a verdict as a signed number, by which the kernel compares verdicts. -/
def actionOnly (ret : UInt32) : ℤ :=
  if ret.toNat < 2 ^ 31 then ret.toNat / 2 ^ 16 else ret.toNat / 2 ^ 16 - 2 ^ 16

def Filter.verdict (d : SeccompData) (f : Filter) : UInt32 := (run d.packet f.prog).getD 0

def stricter (d : SeccompData) (ret : UInt32) (f : Filter) : UInt32 :=
  if actionOnly (f.verdict d) < actionOnly ret then f.verdict d else ret

namespace Thread

/-- Every filter is run, and the strictest verdict wins. -/
def verdict (t : Thread) (d : SeccompData) : UInt32 := t.filters.foldl (stricter d) seccompRetAllow

/-- The call is made. -/
def Permits (t : Thread) (d : SeccompData) : Prop :=
  actionOnly (t.verdict d) = actionOnly seccompRetAllow

/-- A file is opened for reading. -/
def Reads (t : Thread) (path : Path) : Prop := ∀ dir ∈ t.domains, dir <+: path

end Thread

/-! The process and its calls. -/

/-- Where `cmdWatch` stands. -/
inductive Pc where
  | landlockABI
  | createRuleset
  | openDir
  | addRule
  | landlockPrctl
  | restrictSelfTSYNC
  | restrictSelf
  | seccompPrctl
  | seccomp
  | watching (n : ℕ)
  | failed (context : String) (errno : Option Errno)
deriving DecidableEq

structure Process where
  main : Thread
  others : List Thread
  nextId : ℕ
  pc : Pc
deriving DecidableEq

namespace Process

variable (p : Process)

def threads : List Thread := p.main :: p.others

/-- `PR_SET_NO_NEW_PRIVS` -/
def noNewPrivs : Process := { p with main := { p.main with noNewPrivs := true } }

/-- `landlock_restrict_self` with a ruleset for one hierarchy. The flag came with the eighth version
of the interface; it gives the state of the caller to every other thread. -/
def landlockRestrictSelf (abi : ℕ) (dir : Path) (tsync : Bool) : Except Errno Process :=
  if tsync ∧ abi < 8 then .error EINVAL
  else if ¬ p.main.noNewPrivs then .error EPERM
  else if 16 ≤ p.main.domains.length then .error E2BIG
  else
    let domains := dir :: p.main.domains
    .ok { p with
      main := { p.main with domains := domains }
      others :=
        if tsync then p.others.map fun t => { t with noNewPrivs := true, domains := domains }
        else p.others }

/-- The instructions that a thread runs at each call, with a surcharge for each filter. -/
def pathLength (filters : List Filter) : ℕ := (filters.map fun f => f.prog.length + 4).sum

/-- `SECCOMP_SET_MODE_FILTER` with `SECCOMP_FILTER_FLAG_TSYNC`. A thread whose filters are not among
those of the caller is in the way, and its number is the answer. -/
def seccompSetModeFilter (prog : List SockFilter) : Except Errno (Process × Tid) :=
  if prog.length = 0 ∨ maxInsns < prog.length then .error EINVAL
  else if ¬ p.main.noNewPrivs then .error EACCES
  else if ¬ accepts readable prog then .error EINVAL
  else if 32768 < prog.length + pathLength p.main.filters then .error ENOMEM
  else
    match p.others.find? fun t => ¬ t.filters <:+ p.main.filters with
    | some t => .ok (p, t.tid)
    | none =>
      let filters := ⟨p.nextId, prog⟩ :: p.main.filters
      .ok ({ p with
        main := { p.main with filters := filters }
        others := p.others.map fun t => { t with noNewPrivs := true, filters := filters }
        nextId := p.nextId + 1 }, 0)

def goto (pc : Pc) : Process := { p with pc := pc }

def clone (parent child : Tid) : Option Process :=
  if p.threads.any (·.tid = child) then none
  else (p.threads.find? (·.tid = parent)).map fun t =>
    { p with others := { t with tid := child } :: p.others }

/-- The main goroutine is locked to its thread, which stays. -/
def exit (tid : Tid) : Option Process :=
  if p.others.any (·.tid = tid) then some { p with others := p.others.filter (·.tid ≠ tid) }
  else none

end Process

/-- `Some` fault makes a call fail. -/
inductive Act where
  | call (fault : Option Errno)
  | clone (parent child : Tid)
  | exit (tid : Tid)
deriving DecidableEq

/-- The kernel's version of Landlock, the directory as it is written and as it resolves, and what
`installSeccomp` is given. -/
structure Setup where
  abi : ℕ
  dirName : String
  dir : Path
  allowed : List UInt32
  denyErrno : UInt32

namespace Setup

variable (c : Setup)

/-- What an error of a call is wrapped in. -/
def context : Pc → String
  | .landlockABI => "Landlock not supported by this kernel"
  | .createRuleset => "landlock: landlock_create_ruleset"
  | .openDir => "landlock: open " ++ c.dirName
  | .addRule => "landlock: landlock_add_rule"
  | .landlockPrctl => "landlock: prctl(PR_SET_NO_NEW_PRIVS)"
  | .restrictSelfTSYNC | .restrictSelf => "landlock: landlock_restrict_self"
  | .seccompPrctl => "seccomp: prctl(PR_SET_NO_NEW_PRIVS)"
  | _ => "seccomp"

/-- A call that returns an error: only the first `landlock_restrict_self` is tried again. -/
def fails (p : Process) (errno : Errno) : Process :=
  match p.pc with
  | .landlockABI => p.goto (.failed (c.context .landlockABI) none)
  | .restrictSelfTSYNC => p.goto .restrictSelf
  | pc => p.goto (.failed (c.context pc) (some errno))

/-- The next call of the main goroutine, up to the watch loop. -/
def succeeds (p : Process) : Option Process :=
  match p.pc with
  | .landlockABI => some (if c.abi = 0 then c.fails p EINVAL else p.goto .createRuleset)
  | .createRuleset => some (p.goto .openDir)
  | .openDir => some (p.goto .addRule)
  | .addRule => some (p.goto .landlockPrctl)
  | .landlockPrctl => some (p.noNewPrivs.goto .restrictSelfTSYNC)
  | .restrictSelfTSYNC =>
    match p.landlockRestrictSelf c.abi c.dir true with
    | .ok q => some (q.goto .seccompPrctl)
    | .error errno => some (c.fails p errno)
  | .restrictSelf =>
    match p.landlockRestrictSelf c.abi c.dir false with
    | .ok q => some (q.goto .seccompPrctl)
    | .error errno => some (c.fails p errno)
  | .seccompPrctl => some (p.noNewPrivs.goto .seccomp)
  | .seccomp =>
    match p.seccompSetModeFilter (fprog (buildAllowlist c.allowed c.denyErrno)) with
    | .ok (q, _) => some (q.goto (.watching c.allowed.length))
    | .error errno => some (c.fails p errno)
  | .watching _ | .failed _ _ => none

def step (p : Process) : Act → Option Process
  | .call none => c.succeeds p
  | .call (some errno) =>
    match p.pc with
    | .watching _ | .failed _ _ => none
    | _ => some (c.fails p errno)
  | .clone parent child => p.clone parent child
  | .exit tid => p.exit tid

/-- A process starts with one thread, and perhaps under the filters and layers of its parent. -/
def watch (start : Thread) (nextId : ℕ) : Machine Process Act :=
  ⟨⟨start, [], nextId, .landlockABI⟩, c.step⟩

end Setup

/-! Verdicts. -/

theorem actionOnly_le (ret : UInt32) : actionOnly ret ≤ actionOnly seccompRetAllow := by
  have bound := ret.toNat_lt
  have allow : actionOnly seccompRetAllow = 32767 := by decide
  rw [allow, actionOnly]
  split_ifs
  · omega
  · omega

theorem foldl_stricter_eq_allow_iff {d : SeccompData} (filters : List Filter) (ret : UInt32) :
    actionOnly (filters.foldl (stricter d) ret) = actionOnly seccompRetAllow ↔
      actionOnly ret = actionOnly seccompRetAllow ∧
        ∀ f ∈ filters, actionOnly (f.verdict d) = actionOnly seccompRetAllow := by
  induction filters generalizing ret with
  | nil => simp
  | cons f rest ih =>
    have first : actionOnly (stricter d ret f) = actionOnly seccompRetAllow ↔
        actionOnly ret = actionOnly seccompRetAllow ∧
          actionOnly (f.verdict d) = actionOnly seccompRetAllow := by
      have atMost := actionOnly_le ret
      have other := actionOnly_le (f.verdict d)
      rw [stricter]
      split_ifs
      · omega
      · omega
    rw [List.foldl_cons, ih, first, List.forall_mem_cons, and_assoc]

/-- A call is made if every filter admits it. -/
theorem Thread.permits_iff (t : Thread) (d : SeccompData) :
    t.Permits d ↔ ∀ f ∈ t.filters, actionOnly (f.verdict d) = actionOnly seccompRetAllow :=
  (foldl_stricter_eq_allow_iff t.filters seccompRetAllow).trans (and_iff_right rfl)

theorem actionOnly_decision {allowed : List UInt32} {denyErrno nr : UInt32} :
    actionOnly (decision allowed denyErrno nr) = actionOnly seccompRetAllow ↔
      nr ∈ admitted allowed := by
  rw [decision]
  split_ifs with found
  · exact iff_of_true rfl found
  · refine iff_of_false ?_ found
    have small : (denyErrno &&& seccompRetData).toNat < 2 ^ 16 := by
      rw [UInt32.toNat_and]
      exact Nat.and_lt_two_pow _ (by decide)
    have refusal : (seccompRetErrno ||| (denyErrno &&& seccompRetData)).toNat / 2 ^ 16 = 5 := by
      rw [UInt32.toNat_or, Nat.or_div_two_pow, Nat.div_eq_of_lt small]
      rfl
    have allow : actionOnly seccompRetAllow = 32767 := by decide
    rw [allow, actionOnly]
    split_ifs
    · omega
    · omega

/-- The filter of the program admits what the native interface numbers in its list. -/
theorem Filter.verdict_eq_allow_iff (allowed : List UInt32) (denyErrno : UInt32) (id : ℕ)
    (d : SeccompData) :
    actionOnly (Filter.verdict d ⟨id, buildAllowlist allowed denyErrno⟩) =
        actionOnly seccompRetAllow ↔ d.arch = auditArchX86_64 ∧ d.nr ∈ admitted allowed := by
  rw [verdict, run_buildAllowlist, Option.getD_some]
  split_ifs with native
  · rw [actionOnly_decision, and_iff_right native]
  · exact iff_of_false (by decide) fun both => native both.1

/-! Steps. -/

namespace Process

variable {p q : Process}

@[simp] theorem threads_goto (pc : Pc) : (p.goto pc).threads = p.threads := rfl

@[simp] theorem nextId_goto (pc : Pc) : (p.goto pc).nextId = p.nextId := rfl

@[simp] theorem pc_goto (pc : Pc) : (p.goto pc).pc = pc := rfl

/-- What a thread cannot tell about itself: the threads of one state stand in the place of some of
another, with the same filters. -/
def FilteredAs (q p : Process) : Prop :=
  ∀ t ∈ q.threads, ∃ s ∈ p.threads, t.filters = s.filters

theorem FilteredAs.refl (p : Process) : p.FilteredAs p := fun t member => ⟨t, member, rfl⟩

theorem filteredAs_noNewPrivs (p : Process) : p.noNewPrivs.FilteredAs p := by
  intro t member
  rcases List.mem_cons.mp member with rfl | member
  · exact ⟨p.main, List.mem_cons_self, rfl⟩
  · exact ⟨t, List.mem_cons_of_mem _ member, rfl⟩

/-- A new thread has the filters and the layers of the one that started it. -/
theorem clone_eq_some {parent child : Tid} (cloned : p.clone parent child = some q) :
    q.main = p.main ∧ q.pc = p.pc ∧ q.nextId = p.nextId ∧
      ∀ t ∈ q.others, t ∈ p.others ∨
        ∃ s ∈ p.threads, t.filters = s.filters ∧ t.domains = s.domains := by
  rw [clone] at cloned
  split_ifs at cloned with used
  obtain ⟨s, found, rfl⟩ := Option.map_eq_some_iff.mp cloned
  refine ⟨rfl, rfl, rfl, fun t member => ?_⟩
  rcases List.mem_cons.mp member with rfl | member
  · exact .inr ⟨s, List.mem_of_find?_eq_some found, rfl, rfl⟩
  · exact .inl member

theorem exit_eq_some {tid : Tid} (exited : p.exit tid = some q) :
    q.main = p.main ∧ q.pc = p.pc ∧ q.nextId = p.nextId ∧ ∀ t ∈ q.others, t ∈ p.others := by
  rw [exit] at exited
  split_ifs at exited with alive
  obtain rfl := Option.some.inj exited
  exact ⟨rfl, rfl, rfl, fun t member => List.mem_of_mem_filter member⟩

theorem landlockRestrictSelf_eq_ok {abi : ℕ} {dir : Path} {tsync : Bool}
    (restricted : p.landlockRestrictSelf abi dir tsync = .ok q) :
    q.FilteredAs p ∧ q.nextId = p.nextId ∧ p.main.domains.length < 16 ∧
      q.main.domains = dir :: p.main.domains ∧
      if tsync then ∀ t ∈ q.others, t.domains = dir :: p.main.domains
      else q.others = p.others := by
  rw [landlockRestrictSelf] at restricted
  split_ifs at restricted with old privileged deep synced
  · obtain rfl := Except.ok.inj restricted
    refine ⟨fun t member => ?_, rfl, by omega, rfl, ?_⟩
    · rcases List.mem_cons.mp member with rfl | member
      · exact ⟨p.main, List.mem_cons_self, rfl⟩
      · obtain ⟨s, there, rfl⟩ := List.mem_map.mp member
        exact ⟨s, List.mem_cons_of_mem _ there, rfl⟩
    · rw [if_pos synced]
      intro t member
      obtain ⟨s, -, rfl⟩ := List.mem_map.mp member
      rfl
  · obtain rfl := Except.ok.inj restricted
    refine ⟨fun t member => ?_, rfl, by omega, rfl, ?_⟩
    · rcases List.mem_cons.mp member with rfl | member
      · exact ⟨p.main, List.mem_cons_self, rfl⟩
      · exact ⟨t, List.mem_cons_of_mem _ member, rfl⟩
    · rw [if_neg synced]

/-- Either every thread is under the new filter, or the answer is a thread that was in the way. -/
theorem seccompSetModeFilter_eq_ok {prog : List SockFilter} {answer : Tid}
    (installed : p.seccompSetModeFilter prog = .ok (q, answer)) :
    accepts readable prog ∧ q.main.domains = p.main.domains ∧
      ((q = p ∧ ∃ t ∈ p.others, ¬ t.filters <:+ p.main.filters) ∨
        (∀ t ∈ q.threads, t.filters = ⟨p.nextId, prog⟩ :: p.main.filters) ∧
          ∀ t ∈ q.others, ∃ s ∈ p.others, t.domains = s.domains) := by
  rw [seccompSetModeFilter] at installed
  split_ifs at installed with size privileged fine deep
  refine ⟨fine, ?_⟩
  cases blocked : p.others.find? fun t => ¬ t.filters <:+ p.main.filters with
  | some t =>
    rw [blocked] at installed
    cases installed
    exact ⟨rfl, .inl ⟨rfl, t, List.mem_of_find?_eq_some blocked,
      by simpa using List.find?_some blocked⟩⟩
  | none =>
    rw [blocked] at installed
    cases installed
    refine ⟨rfl, .inr ⟨fun t member => ?_, fun t member => ?_⟩⟩
    · rcases List.mem_cons.mp member with rfl | member
      · rfl
      · obtain ⟨s, -, rfl⟩ := List.mem_map.mp member
        rfl
    · obtain ⟨s, there, rfl⟩ := List.mem_map.mp member
      exact ⟨s, there, rfl⟩

end Process

/-! Every run. -/

namespace Setup

variable {c : Setup} {start : Thread} {id : ℕ} {p q : Process}

theorem threads_fails (p : Process) (errno : Errno) : (c.fails p errno).threads = p.threads := by
  rw [fails]
  split <;> rfl

theorem nextId_fails (p : Process) (errno : Errno) : (c.fails p errno).nextId = p.nextId := by
  rw [fails]
  split <;> rfl

def isWatching : Pc → Bool
  | .watching _ => true
  | _ => false

theorem isWatching_fails (p : Process) (errno : Errno) :
    isWatching (c.fails p errno).pc = false := by
  rw [fails]
  split <;> rfl

/-- What every thread runs its calls by. -/
def filters (c : Setup) (start : Thread) (id : ℕ) (pc : Pc) : List Filter :=
  if isWatching pc then ⟨id, buildAllowlist c.allowed c.denyErrno⟩ :: start.filters
  else start.filters

/-- All threads have the same filters at any time. -/
structure Filtered (c : Setup) (start : Thread) (id : ℕ) (p : Process) : Prop where
  same : ∀ t ∈ p.threads, t.filters = c.filters start id p.pc
  unused : isWatching p.pc = false → p.nextId = id
  reported : ∀ n, p.pc = .watching n → n = c.allowed.length ∧ n ≤ 4090

theorem Filtered.of_filteredAs (inv : c.Filtered start id p) (waits : isWatching p.pc = false)
    (kept : q.FilteredAs p) (pc : isWatching q.pc = false) (nextId : q.nextId = p.nextId) :
    c.Filtered start id q := by
  refine ⟨fun t member => ?_, fun _ => nextId.trans (inv.unused waits), fun n watching => ?_⟩
  · obtain ⟨s, there, same⟩ := kept t member
    rw [same, inv.same s there, filters, filters, waits, pc]
  · rw [watching] at pc
    cases pc

theorem Filtered.fails (inv : c.Filtered start id p) (waits : isWatching p.pc = false)
    (errno : Errno) : c.Filtered start id (c.fails p errno) := by
  refine inv.of_filteredAs waits (fun t member => ?_) (isWatching_fails p errno)
    (nextId_fails p errno)
  rw [threads_fails] at member
  exact ⟨t, member, rfl⟩

theorem Filtered.goto (inv : c.Filtered start id p) (waits : isWatching p.pc = false) {pc : Pc}
    (pc_waits : isWatching pc = false) : c.Filtered start id (p.goto pc) :=
  inv.of_filteredAs waits (fun t member => ⟨t, member, rfl⟩) pc_waits rfl

theorem Filtered.noNewPrivs (inv : c.Filtered start id p) (waits : isWatching p.pc = false) :
    c.Filtered start id p.noNewPrivs :=
  inv.of_filteredAs waits (Process.filteredAs_noNewPrivs p) waits rfl

theorem Filtered.restrictSelf (inv : c.Filtered start id p) (waits : isWatching p.pc = false)
    {tsync : Bool} (restricted : p.landlockRestrictSelf c.abi c.dir tsync = .ok q) :
    c.Filtered start id (q.goto .seccompPrctl) := by
  obtain ⟨kept, nextId, -⟩ := Process.landlockRestrictSelf_eq_ok restricted
  exact inv.of_filteredAs waits (fun t member => kept t member) rfl nextId

/-- No thread is ever in the way, so the number that comes back is no thread's. -/
theorem Filtered.seccomp (inv : c.Filtered start id p) (waits : isWatching p.pc = false)
    {answer : Tid}
    (installed : p.seccompSetModeFilter (fprog (buildAllowlist c.allowed c.denyErrno)) =
      .ok (q, answer)) : c.Filtered start id (q.goto (.watching c.allowed.length)) := by
  obtain ⟨taken, -, ⟨-, t, member, apart⟩ | ⟨new, -⟩⟩ := Process.seccompSetModeFilter_eq_ok installed
  · rw [inv.same t (List.mem_cons_of_mem _ member),
      inv.same p.main List.mem_cons_self] at apart
    exact absurd (List.suffix_refl _) apart
  · have short := (accepts_fprog_iff _ _).mp taken
    refine ⟨fun t member => ?_, fun waits => ?_, fun n watching => ?_⟩
    · rw [new t member, inv.unused waits, inv.same p.main List.mem_cons_self, fprog_of_le short]
      rw [filters, waits, if_neg Bool.false_ne_true]
      rfl
    · cases waits
    · cases watching
      exact ⟨rfl, short⟩

theorem Filtered.succeeds (inv : c.Filtered start id p) (taken : c.succeeds p = some q) :
    c.Filtered start id q := by
  have waits : isWatching p.pc = false := by
    by_contra watching
    cases pc : p.pc <;> simp_all [Setup.succeeds, isWatching]
  cases pc : p.pc with
  | landlockABI =>
    simp only [Setup.succeeds, pc] at taken
    cases taken
    split_ifs
    · exact inv.fails waits EINVAL
    · exact inv.goto waits rfl
  | createRuleset | openDir | addRule =>
    simp only [Setup.succeeds, pc] at taken
    cases taken
    exact inv.goto waits rfl
  | landlockPrctl | seccompPrctl =>
    simp only [Setup.succeeds, pc] at taken
    cases taken
    exact (inv.noNewPrivs waits).goto waits rfl
  | restrictSelfTSYNC | restrictSelf =>
    simp only [Setup.succeeds, pc] at taken
    split at taken
    case h_1 restricted =>
      cases taken
      exact inv.restrictSelf waits restricted
    case h_2 errno _ =>
      cases taken
      exact inv.fails waits errno
  | seccomp =>
    simp only [Setup.succeeds, pc] at taken
    split at taken
    case h_1 installed =>
      cases taken
      exact inv.seccomp waits installed
    case h_2 errno _ =>
      cases taken
      exact inv.fails waits errno
  | watching n => simp only [Setup.succeeds, pc, reduceCtorEq] at taken
  | failed context errno => simp only [Setup.succeeds, pc, reduceCtorEq] at taken

theorem Filtered.step {a : Act} (inv : c.Filtered start id p) (taken : c.step p a = some q) :
    c.Filtered start id q := by
  -- threads come and go under the filters of their parents
  have inherits (main : q.main = p.main) (pc : q.pc = p.pc) (nextId : q.nextId = p.nextId)
      (others : ∀ t ∈ q.others, ∃ s ∈ p.threads, t.filters = s.filters) :
      c.Filtered start id q := by
    refine ⟨fun t member => ?_, fun waits => ?_, fun n watching => ?_⟩
    · rcases List.mem_cons.mp member with rfl | member
      · rw [main, pc]
        exact inv.same p.main List.mem_cons_self
      · obtain ⟨s, there, same⟩ := others t member
        rw [same, pc]
        exact inv.same s there
    · rw [pc] at waits
      exact nextId.trans (inv.unused waits)
    · rw [pc] at watching
      exact inv.reported n watching
  cases a with
  | call fault =>
    cases fault with
    | none => exact inv.succeeds taken
    | some errno =>
      have waits : isWatching p.pc = false := by
        by_contra watching
        cases pc : p.pc <;> simp_all [Setup.step, isWatching]
      have failed : c.fails p errno = q := by
        rw [Setup.step] at taken
        split at taken
        · cases taken
        · cases taken
        · exact Option.some.inj taken
      rw [← failed]
      exact inv.fails waits errno
  | clone parent child =>
    obtain ⟨main, pc, nextId, others⟩ := Process.clone_eq_some taken
    refine inherits main pc nextId fun t member => ?_
    rcases others t member with there | ⟨s, there, same, -⟩
    · exact ⟨t, List.mem_cons_of_mem _ there, rfl⟩
    · exact ⟨s, there, same⟩
  | exit tid =>
    obtain ⟨main, pc, nextId, others⟩ := Process.exit_eq_some taken
    exact inherits main pc nextId fun t member =>
      ⟨t, List.mem_cons_of_mem _ (others t member), rfl⟩

/-- However threads come and go and whatever calls fail: once the program reports how many numbers it
admits, no thread makes a call outside the list, and before that, or if the program has given up,
every thread makes the calls it made at the start. -/
theorem permits_of_run (c : Setup) (start : Thread) (id : ℕ) {acts : List Act} {p : Process}
    (run : (c.watch start id).run? acts = some p) :
    (∀ n, p.pc = .watching n → n = c.allowed.length ∧ n ≤ 4090) ∧
    ∀ t ∈ p.threads, ∀ d, t.Permits d ↔
      start.Permits d ∧
        (isWatching p.pc → d.arch = auditArchX86_64 ∧ d.nr ∈ admitted c.allowed) := by
  have inv : c.Filtered start id p := by
    refine Machine.run?_keeps ?_ (fun s a t kept taken => kept.step taken) run
    refine ⟨fun t member => ?_, fun _ => rfl, fun n watching => ?_⟩
    · rw [List.mem_singleton.mp member]
      rfl
    · cases watching
  refine ⟨inv.reported, fun t member d => ?_⟩
  rw [Thread.permits_iff, inv.same t member, filters, Thread.permits_iff]
  cases isWatching p.pc with
  | false => simp
  | true =>
    rw [if_pos rfl, List.forall_mem_cons, Filter.verdict_eq_allow_iff]
    simp only [forall_const]
    exact and_comm

/-- Two numbers, a thread before the calls of Landlock and one behind the filter. -/
theorem permits_of_run_two :
    ∃ p, ((Setup.mk 8 "d" ["d"] [0, 1] 1).watch ⟨1, false, [], []⟩ 7).run?
        [.call none, .call none, .call none, .clone 1 2, .call none, .call none, .call none,
          .call none, .call none, .clone 2 3, .exit 2] = some p ∧ p.pc = .watching 2 ∧
      ∀ t ∈ p.threads, ∀ d, t.Permits d ↔
        Thread.Permits ⟨1, false, [], []⟩ d ∧
          (isWatching p.pc → d.arch = auditArchX86_64 ∧ d.nr ∈ admitted [0, 1]) := by
  have run : ((Setup.mk 8 "d" ["d"] [0, 1] 1).watch ⟨1, false, [], []⟩ 7).run?
      [.call none, .call none, .call none, .clone 1 2, .call none, .call none, .call none,
        .call none, .call none, .clone 2 3, .exit 2] =
      some ⟨⟨1, true, [⟨7, buildAllowlist [0, 1] 1⟩], [["d"]]⟩,
        [⟨3, true, [⟨7, buildAllowlist [0, 1] 1⟩], [["d"]]⟩], 8, .watching 2⟩ := rfl
  exact ⟨_, run, rfl, (permits_of_run _ _ _ run).2⟩

/-! Landlock. -/

def isBefore : Pc → Bool
  | .seccompPrctl | .seccomp | .watching _ | .failed _ _ => false
  | _ => true

/-- `fwatch: landlock ABI=%d enforced` has been reported. -/
def isEnforced : Pc → Bool
  | .seccompPrctl | .seccomp | .watching _ => true
  | _ => false

/-- A step that gives no thread a new layer. -/
structure Quiet (p q : Process) : Prop where
  main : q.main.domains = p.main.domains
  others : ∀ t ∈ q.others, ∃ s ∈ p.threads, t.domains = s.domains
  before : isBefore q.pc → isBefore p.pc
  enforced : isEnforced q.pc → isEnforced p.pc
  privileged : q.pc = .restrictSelfTSYNC ∨ q.pc = .restrictSelf → q.main.noNewPrivs ∨
    (p.pc = .restrictSelfTSYNC ∨ p.pc = .restrictSelf) ∧ q.main = p.main

theorem quiet_fails {errno : Errno} : Quiet p (c.fails p errno) := by
  rw [fails]
  split
  case h_1 =>
    exact ⟨rfl, fun t member => ⟨t, List.mem_cons_of_mem _ member, rfl⟩, by simp [isBefore],
      by simp [isEnforced], by simp⟩
  case h_2 pc =>
    exact ⟨rfl, fun t member => ⟨t, List.mem_cons_of_mem _ member, rfl⟩, by simp [isBefore, pc],
      by simp [isEnforced], fun _ => .inr ⟨.inl pc, rfl⟩⟩
  case h_3 =>
    exact ⟨rfl, fun t member => ⟨t, List.mem_cons_of_mem _ member, rfl⟩, by simp [isBefore],
      by simp [isEnforced], by simp⟩

theorem quiet_goto {pc : Pc} (before : isBefore pc → isBefore p.pc)
    (enforced : isEnforced pc → isEnforced p.pc)
    (elsewhere : pc ≠ .restrictSelfTSYNC ∧ pc ≠ .restrictSelf) : Quiet p (p.goto pc) :=
  ⟨rfl, fun t member => ⟨t, List.mem_cons_of_mem _ member, rfl⟩, before, enforced,
    fun there => (there.elim elsewhere.1 elsewhere.2).elim⟩

/-- Only `landlock_restrict_self` changes a layer. -/
theorem domains_of_succeeds (taken : c.succeeds p = some q) :
    Quiet p q ∨
    (p.pc = .restrictSelfTSYNC ∧ q.pc = .seccompPrctl ∧
      ∀ t ∈ q.threads, t.domains = c.dir :: p.main.domains) ∨
    (p.pc = .restrictSelf ∧ q.pc = .seccompPrctl ∧ p.main.domains.length < 16 ∧
      q.main.domains = c.dir :: p.main.domains ∧ q.others = p.others) := by
  cases pc : p.pc with
  | landlockABI =>
    simp only [Setup.succeeds, pc] at taken
    cases taken
    split_ifs
    · exact .inl quiet_fails
    · exact .inl (quiet_goto (fun _ => by rw [pc]; rfl) (fun e => by cases e) (by simp))
  | createRuleset | openDir | addRule =>
    simp only [Setup.succeeds, pc] at taken
    cases taken
    exact .inl (quiet_goto (fun _ => by rw [pc]; rfl) (fun e => by cases e) (by simp))
  | landlockPrctl =>
    simp only [Setup.succeeds, pc] at taken
    cases taken
    exact .inl ⟨rfl, fun t member => ⟨t, List.mem_cons_of_mem _ member, rfl⟩,
      fun _ => (by rw [pc]; rfl), fun e => (by cases e), fun _ => .inl rfl⟩
  | seccompPrctl =>
    simp only [Setup.succeeds, pc] at taken
    cases taken
    exact .inl ⟨rfl, fun t member => ⟨t, List.mem_cons_of_mem _ member, rfl⟩,
      fun b => (by cases b), fun _ => (by rw [pc]; rfl), fun _ => .inl rfl⟩
  | restrictSelfTSYNC =>
    simp only [Setup.succeeds, pc] at taken
    split at taken
    case h_1 restricted =>
      cases taken
      obtain ⟨-, -, -, main, others⟩ := Process.landlockRestrictSelf_eq_ok restricted
      refine .inr (.inl ⟨rfl, rfl, fun t member => ?_⟩)
      rcases List.mem_cons.mp member with rfl | member
      · exact main
      · exact others t member
    case h_2 =>
      cases taken
      exact .inl quiet_fails
  | restrictSelf =>
    simp only [Setup.succeeds, pc] at taken
    split at taken
    case h_1 restricted =>
      cases taken
      obtain ⟨-, -, shallow, main, others⟩ := Process.landlockRestrictSelf_eq_ok restricted
      exact .inr (.inr ⟨rfl, rfl, shallow, main, others⟩)
    case h_2 =>
      cases taken
      exact .inl quiet_fails
  | seccomp =>
    simp only [Setup.succeeds, pc] at taken
    split at taken
    case h_1 next _ installed =>
      cases taken
      obtain ⟨-, main, ⟨rfl, -⟩ | ⟨-, others⟩⟩ := Process.seccompSetModeFilter_eq_ok installed
      · exact .inl (quiet_goto (fun b => by cases b) (fun _ => by rw [pc]; rfl) (by simp))
      · refine .inl ⟨main, fun t member => ?_, fun b => (by cases b), fun _ => (by rw [pc]; rfl),
          fun calls => (by simp at calls)⟩
        obtain ⟨s, there, same⟩ := others t member
        exact ⟨s, List.mem_cons_of_mem _ there, same⟩
    case h_2 =>
      cases taken
      exact .inl quiet_fails
  | watching n => simp only [Setup.succeeds, pc, reduceCtorEq] at taken
  | failed context errno => simp only [Setup.succeeds, pc, reduceCtorEq] at taken

theorem domains_of_step {a : Act} (taken : c.step p a = some q) :
    Quiet p q ∨
    (p.pc = .restrictSelfTSYNC ∧ q.pc = .seccompPrctl ∧
      ∀ t ∈ q.threads, t.domains = c.dir :: p.main.domains) ∨
    (p.pc = .restrictSelf ∧ q.pc = .seccompPrctl ∧ a = .call none ∧
      p.main.domains.length < 16 ∧ q.main.domains = c.dir :: p.main.domains ∧
      q.others = p.others) := by
  have inherits (main : q.main = p.main) (pc : q.pc = p.pc)
      (others : ∀ t ∈ q.others, ∃ s ∈ p.threads, t.domains = s.domains) : Quiet p q :=
    ⟨by rw [main], others, by rw [pc]; exact id, by rw [pc]; exact id, fun there =>
      .inr ⟨by rwa [← pc], main⟩⟩
  cases a with
  | call fault =>
    cases fault with
    | none =>
      rcases domains_of_succeeds taken with quiet | synced | ⟨here, there, rest⟩
      · exact .inl quiet
      · exact .inr (.inl synced)
      · exact .inr (.inr ⟨here, there, rfl, rest⟩)
    | some errno =>
      rw [Setup.step] at taken
      split at taken
      · cases taken
      · cases taken
      · rw [← Option.some.inj taken]
        exact .inl quiet_fails
  | clone parent child =>
    obtain ⟨main, pc, -, others⟩ := Process.clone_eq_some taken
    refine .inl (inherits main pc fun t member => ?_)
    rcases others t member with there | ⟨s, there, -, same⟩
    · exact ⟨t, List.mem_cons_of_mem _ there, rfl⟩
    · exact ⟨s, there, same⟩
  | exit tid =>
    obtain ⟨main, pc, -, others⟩ := Process.exit_eq_some taken
    exact .inl (inherits main pc fun t member =>
      ⟨t, List.mem_cons_of_mem _ (others t member), rfl⟩)

/-- The layers up to `landlock_restrict_self`, and those of the main thread behind it. -/
structure Layered (c : Setup) (start : Thread) (p : Process) : Prop where
  before : isBefore p.pc → ∀ t ∈ p.threads, t.domains = start.domains
  main : isEnforced p.pc → p.main.domains = c.dir :: start.domains
  privileged : p.pc = .restrictSelfTSYNC ∨ p.pc = .restrictSelf → p.main.noNewPrivs

/-- Every thread has the layer that has been reported. -/
def Confined (c : Setup) (start : Thread) (p : Process) : Prop :=
  isEnforced p.pc → ∀ t ∈ p.threads, t.domains = c.dir :: start.domains

theorem Layered.step {a : Act} (inv : c.Layered start p) (taken : c.step p a = some q) :
    c.Layered start q := by
  rcases domains_of_step taken with quiet | ⟨here, there, synced⟩ | ⟨here, there, -, -, main, -⟩
  · refine ⟨fun before t member => ?_, fun enforced => ?_, fun calls => ?_⟩
    · have same := inv.before (quiet.before before)
      rcases List.mem_cons.mp member with rfl | member
      · exact quiet.main.trans (same p.main List.mem_cons_self)
      · obtain ⟨s, there, copied⟩ := quiet.others t member
        exact copied.trans (same s there)
    · exact quiet.main.trans (inv.main (quiet.enforced enforced))
    · rcases quiet.privileged calls with set | ⟨before, main⟩
      · exact set
      · rw [main]
        exact inv.privileged before
  · have start := inv.before (by rw [here]; rfl) p.main List.mem_cons_self
    refine ⟨fun before => ?_, fun _ => ?_, fun calls => ?_⟩
    · rw [there] at before
      cases before
    · rw [synced q.main List.mem_cons_self, start]
    · rw [there] at calls
      simp at calls
  · have start := inv.before (by rw [here]; rfl) p.main List.mem_cons_self
    refine ⟨fun before => ?_, fun _ => ?_, fun calls => ?_⟩
    · rw [there] at before
      cases before
    · rw [main, start]
    · rw [there] at calls
      simp at calls

/-- The second `landlock_restrict_self` is answered while there is no other thread. -/
def AsksAlone (p : Process) (a : Act) : Prop :=
  p.pc = .restrictSelf → a = .call none → p.main.domains.length < 16 → p.others = []

theorem restrictSelf_succeeds (here : p.pc = .restrictSelf) (privileged : p.main.noNewPrivs)
    (shallow : p.main.domains.length < 16) :
    ∃ q, c.step p (.call none) = some q ∧ isEnforced q.pc ∧ q.others = p.others := by
  simp only [Setup.step, Setup.succeeds, here, Process.landlockRestrictSelf, privileged]
  simp [Nat.not_le_of_lt shallow, Process.goto, isEnforced]

theorem confined_step_iff {a : Act} (inv : c.Layered start p) (confined : c.Confined start p) :
    (∀ q, c.step p a = some q → c.Confined start q) ↔ AsksAlone p a := by
  constructor
  · intro stays here called shallow
    subst called
    obtain ⟨q, taken, enforced, others⟩ := restrictSelf_succeeds (c := c) here
      (inv.privileged (.inr here)) shallow
    -- a thread that had no part in the call keeps fewer layers
    refine List.eq_nil_iff_forall_not_mem.mpr fun t member => ?_
    have new := stays q taken enforced t (List.mem_cons_of_mem _ (others ▸ member))
    have old := inv.before (by rw [here]; rfl) t (List.mem_cons_of_mem _ member)
    rw [old] at new
    exact absurd (congrArg List.length new) (by simp)
  · intro alone q taken enforced t member
    rcases domains_of_step taken with quiet | ⟨here, -, synced⟩ | ⟨here, -, called, shallow, main, same⟩
    · have before := confined (quiet.enforced enforced)
      rcases List.mem_cons.mp member with rfl | member
      · exact quiet.main.trans (before p.main List.mem_cons_self)
      · obtain ⟨s, there, copied⟩ := quiet.others t member
        exact copied.trans (before s there)
    · rw [synced t member, inv.before (by rw [here]; rfl) p.main List.mem_cons_self]
    · rw [Process.threads, same, alone here called shallow, List.mem_singleton] at member
      rw [member, main, inv.before (by rw [here]; rfl) p.main List.mem_cons_self]

/-- What a confined thread reads. -/
theorem reads_iff_of_confined (confined : c.Confined start p) (enforced : isEnforced p.pc)
    {t : Thread} (member : t ∈ p.threads) (path : Path) :
    t.Reads path ↔ c.dir <+: path ∧ start.Reads path := by
  rw [Thread.Reads, confined enforced t member, List.forall_mem_cons, Thread.Reads]

theorem layered_init : c.Layered start (c.watch start id).init := by
  refine ⟨fun _ t member => ?_, fun enforced => ?_, fun calls => ?_⟩
  · rw [List.mem_singleton.mp member]
    rfl
  · cases enforced
  · simp [watch] at calls

/-- All threads have the reported layer in all states of a run exactly when the second call, if there
is one, is answered while the main thread is alone; and then no thread reads outside the directory. -/
theorem confined_always_iff (c : Setup) (start : Thread) (id : ℕ) (acts : List Act) :
    ((c.watch start id).Always (c.Confined start) (c.watch start id).init acts ↔
      (c.watch start id).Meets AsksAlone (c.watch start id).init acts) ∧
    ((c.watch start id).Meets AsksAlone (c.watch start id).init acts →
      ∀ p, (c.watch start id).run? acts = some p → isEnforced p.pc →
        ∀ t ∈ p.threads, ∀ path, t.Reads path ↔ c.dir <+: path ∧ start.Reads path) := by
  have always : (c.watch start id).Always (c.Confined start) (c.watch start id).init acts ↔
      (c.watch start id).Meets AsksAlone (c.watch start id).init acts := by
    have keeps (s : Process) (a : Act) (t : Process) (kept : c.Layered start s)
        (taken : (c.watch start id).step s a = some t) : c.Layered start t := kept.step taken
    have exact' (s : Process) (a : Act) (kept : c.Layered start s) (fine : c.Confined start s) :
        (∀ t, (c.watch start id).step s a = some t → c.Confined start t) ↔ AsksAlone s a :=
      confined_step_iff kept fine
    refine Machine.always_iff_meets keeps exact' layered_init ?_ acts
    intro enforced
    cases enforced
  refine ⟨always, fun alone p run enforced t member path => ?_⟩
  have confined := Machine.good_of_always_run (always.mpr alone) run
  exact reads_iff_of_confined confined enforced member path

end Setup

end LinuxSys.Fwatch.Sandbox
