import LinuxSys.Lib.Credentials
import LinuxSys.Lib.Numeral

/-! # The privilege drop of pmon ch14

`pmon drop` takes the identity of a user, keeps one capability or none and becomes a command. A call
that fails ends the program with its name, so the command runs only behind all of them. The calls
are those of the C++ and the Rust program; the arguments are read as the Rust program reads them.
-/

namespace LinuxSys.Pmon.Drop

open Lib

/-- The fields of `struct passwd` that are used. -/
structure Passwd where
  uid : UInt32
  gid : UInt32
deriving DecidableEq, Repr

inductive Errno where
  | cred (e : CredError)
  | other (n : ℕ)
deriving DecidableEq, Repr

structure SysErr where
  what : Bytes
  errno : Errno
deriving DecidableEq, Repr

/-- A failure of a call that the rules of credentials do not explain. -/
structure Faults where
  keepCaps : Option ℕ := none
  setgroups : Option ℕ := none
  setresgid : Option ℕ := none
  setresuid : Option ℕ := none
  capset : Option ℕ := none
  raise : Option ℕ := none
  execvp : Option ℕ := none

def check (fault : Option ℕ) (rc : Except CredError Cred) (what : Bytes) : Except SysErr Cred :=
  match fault, rc with
  | some n, _ => .error ⟨what, .other n⟩
  | none, .error e => .error ⟨what, .cred e⟩
  | none, .ok c => .ok c

/-- The capability is pinned and raised. -/
def pinCap (f : Faults) (c : Cred) : Except SysErr Cred := do
  let bit : Finset Cap := {Cap.netBindService}
  let c ← check f.capset (c.capset bit bit bit) (ascii "capset")
  check f.raise (c.raiseAmbient Cap.netBindService) (ascii "PR_CAP_AMBIENT_RAISE")

/-- The credentials that the command starts with. -/
def arrangeAndExec (f : Faults) (pw : Passwd) (keepCap : Bool) (name : Bytes) (c : Cred) :
    Except SysErr Cred := do
  let c ← (if keepCap then check f.keepCaps (.ok (c.setKeepCaps true)) (ascii "PR_SET_KEEPCAPS")
    else .ok c)
  let c ← check f.setgroups (c.setgroups [pw.gid]) (ascii "setgroups")
  let c ← check f.setresgid (c.setresgid pw.gid pw.gid pw.gid) (ascii "setresgid")
  let c ← check f.setresuid (c.setresuid pw.uid pw.uid pw.uid) (ascii "setresuid")
  let c ← (if keepCap then pinCap f c else .ok c)
  check f.execvp (.ok c.execve) (ascii "execvp " ++ name)

structure Opts where
  user : Option Bytes := none
  keepCap : Bool := false
  cmd : List Bytes := []
deriving DecidableEq, Repr

/-- The loop over the arguments. -/
def parse (o : Opts) : List Bytes → Except Bytes Opts
  | [] => .ok o
  | a :: rest =>
    if a = ascii "--" then .ok { o with cmd := rest }
    else if a ≠ ascii "--user" ∧ a ≠ ascii "--keep-cap" then
      .error (ascii "drop: unexpected argument: " ++ a)
    else
      match rest with
      | [] => .error (ascii "drop: " ++ a ++ ascii " needs a value")
      | value :: rest =>
        if a = ascii "--user" then parse { o with user := some value } rest
        else if value = ascii "net_bind_service" then parse { o with keepCap := true } rest
        else .error (ascii "drop: unsupported --keep-cap: " ++ value)

/-- What the host has besides the process. -/
structure Host where
  getpwnam : Bytes → Option Passwd
  faults : Faults
  strerror : Errno → Bytes
  /-- Somebody listens at the port. -/
  bound : ℕ → Bool

/-- The program ends with a status and a line, or it has become the command. -/
inductive Outcome where
  | exit (status : ℕ) (line : Bytes)
  | exec (cmd : List Bytes) (c : Cred)
deriving DecidableEq

def cmdDrop (h : Host) (args : List Bytes) (c : Cred) : Outcome :=
  match parse {} args with
  | .error line => .exit 2 line
  | .ok o =>
    match o.user, o.cmd with
    | none, _ => .exit 2 (ascii "drop: --user <name> is required")
    | some _, [] => .exit 2 (ascii "drop: missing -- CMD")
    | some user, name :: _ =>
      if c.ruid ≠ 0 then .exit 1 (ascii "drop: must run as root")
      else
        match h.getpwnam user with
        | none => .exit 1 (ascii "drop: unknown user: " ++ user)
        | some pw =>
          match arrangeAndExec h.faults pw o.keepCap name c with
          | .ok c => .exec o.cmd c
          | .error e => .exit 1 (ascii "drop: " ++ e.what ++ ascii ": " ++ h.strerror e.errno)

/-- A port as `str::parse` reads it. -/
def u16 : IntParser := ⟨true, false, 0, 2 ^ 16 - 1⟩

def parsePort (port : ℕ) : List Bytes → Except Bytes ℕ
  | [] => .ok port
  | a :: rest =>
    if a ≠ ascii "--port" then .error (ascii "bindprobe: unexpected argument: " ++ a)
    else
      match rest with
      | [] => .error (ascii "bindprobe: --port needs a value")
      | value :: rest =>
        match u16.parse value with
        | none => .error (ascii "bindprobe: bad port: " ++ value)
        | some port => parsePort port.toNat rest

/-- `bind` on every address: port 0 asks for some port. -/
def bindable (h : Host) (port : ℕ) (c : Cred) : Bool :=
  port = 0 || ((1024 ≤ port || Cap.netBindService ∈ c.effective) && !h.bound port)

/-- The status of `pmon bindprobe`. -/
def cmdBindprobe (h : Host) (args : List Bytes) (c : Cred) : ℕ :=
  match parsePort 80 args with
  | .error _ => 2
  | .ok port => if bindable h port c then 0 else 3

/-! The calls. -/

/-- What the command is to be left with. -/
def kept (keepCap : Bool) : Finset Cap := if keepCap then {Cap.netBindService} else ∅

theorem check_eq_ok_iff {fault : Option ℕ} {rc : Except CredError Cred} {what : Bytes} {c : Cred} :
    check fault rc what = .ok c ↔ fault = none ∧ rc = .ok c := by
  cases fault with
  | none =>
    cases rc with
    | ok c => simp [check]
    | error e => simp [check]
  | some n => simp [check]

theorem bind_eq_ok_iff {α β : Type} {x : Except SysErr α} {f : α → Except SysErr β} {b : β} :
    x >>= f = .ok b ↔ ∃ a, x = .ok a ∧ f a = .ok b := by
  cases x with
  | ok a =>
    constructor
    · intro rest
      exact ⟨a, rfl, rest⟩
    · rintro ⟨_, ⟨⟩, rest⟩
      exact rest
  | error e =>
    constructor
    · intro failed
      cases failed
    · rintro ⟨_, ⟨⟩, -⟩

section Calls

variable {c q : Cred} {f : Faults} {pw : Passwd} {keepCap : Bool} {name : Bytes}

/-- Behind `setgroups` the group is a group. -/
theorem gid_ne_unchanged (called : c.setgroups [pw.gid] = .ok q) : pw.gid ≠ unchanged := by
  rw [Cred.setgroups] at called
  split_ifs at called with privileged invalid
  exact fun same => invalid (by rw [same]; exact List.mem_singleton_self _)

theorem setresgid_same {gid : UInt32} (group : gid ≠ unchanged)
    (called : c.setresgid gid gid gid = .ok q) :
    q = { c with rgid := gid, egid := gid, sgid := gid } := by
  rw [Cred.setresgid] at called
  split_ifs at called
  simpa [Cred.change, group] using (Except.ok.inj called).symm

theorem setresuid_same {uid : UInt32} (called : c.setresuid uid uid uid = .ok q) :
    q = c.fixSetuid (Cred.change c.ruid uid) (Cred.change c.euid uid) (Cred.change c.suid uid) := by
  rw [Cred.setresuid] at called
  split_ifs at called
  exact (Except.ok.inj called).symm

theorem capset_eq_ok {effective permitted inheritable : Finset Cap}
    (called : c.capset effective permitted inheritable = .ok q) :
    permitted ⊆ c.permitted ∧ q.inheritable = inheritable ∧
      q.ambient = c.ambient ∩ (permitted ∩ inheritable) ∧
      q.ruid = c.ruid ∧ q.euid = c.euid ∧ q.suid = c.suid ∧ q.rgid = c.rgid ∧ q.egid = c.egid ∧
      q.sgid = c.sgid ∧ q.groups = c.groups ∧ q.bounding = c.bounding := by
  rw [Cred.capset] at called
  split_ifs at called with priv bounded within below
  rw [← Except.ok.inj called]
  exact ⟨within, rfl, rfl, rfl, rfl, rfl, rfl, rfl, rfl, rfl, rfl⟩

/-- The ids stay, and the capability is what an `execve` will keep. -/
structure Pinned (c q : Cred) : Prop where
  ruid : q.ruid = c.ruid
  euid : q.euid = c.euid
  suid : q.suid = c.suid
  rgid : q.rgid = c.rgid
  egid : q.egid = c.egid
  sgid : q.sgid = c.sgid
  groups : q.groups = c.groups
  bounding : q.bounding = c.bounding
  ambient : q.ambient = {Cap.netBindService}

theorem pinned_of_pinCap (called : pinCap f c = .ok q) : Pinned c q := by
  obtain ⟨mid, first, last⟩ := bind_eq_ok_iff.mp called
  obtain ⟨-, set⟩ := check_eq_ok_iff.mp first
  obtain ⟨-, raised⟩ := check_eq_ok_iff.mp last
  obtain ⟨-, -, ambient, ruid, euid, suid, rgid, egid, sgid, groups, bounding⟩ := capset_eq_ok set
  rw [Cred.raiseAmbient] at raised
  split_ifs at raised
  rw [← Except.ok.inj raised]
  refine ⟨ruid, euid, suid, rgid, egid, sgid, groups, bounding, ?_⟩
  change insert Cap.netBindService mid.ambient = {Cap.netBindService}
  rw [ambient, Finset.inter_self]
  ext cap
  simp only [Finset.mem_insert, Finset.mem_inter, Finset.mem_singleton]
  tauto

/-- What the calls up to `setresuid` leave. -/
structure Became (pw : Passwd) (c q : Cred) : Prop where
  ruid : q.ruid = Cred.change c.ruid pw.uid
  euid : q.euid = Cred.change c.euid pw.uid
  suid : q.suid = Cred.change c.suid pw.uid
  rgid : q.rgid = pw.gid
  egid : q.egid = pw.gid
  sgid : q.sgid = pw.gid
  groups : q.groups = [pw.gid]
  bounding : q.bounding = c.bounding
  ambient : c.ruid = 0 → pw.uid ≠ 0 → pw.uid ≠ unchanged → q.ambient = ∅

theorem became_of_calls {mid last : Cred} (groups : c.setgroups [pw.gid] = .ok mid)
    (group : mid.setresgid pw.gid pw.gid pw.gid = .ok last)
    (user : last.setresuid pw.uid pw.uid pw.uid = .ok q) : Became pw c q := by
  have valid := gid_ne_unchanged groups
  obtain rfl := setresuid_same user
  obtain rfl := setresgid_same valid group
  obtain rfl := Cred.setgroups_eq_ok groups
  refine ⟨rfl, rfl, rfl, rfl, rfl, rfl, rfl, rfl, fun root other new => ?_⟩
  simp [Cred.fixSetuid, Cred.change, root, other, new]

/-- An `execve` leaves a user the ambient capabilities. -/
theorem execve_of_user (ruid : c.ruid ≠ 0) (euid : c.euid ≠ 0) :
    c.execve.permitted = c.ambient ∧ c.execve.effective = c.ambient := by
  simp [Cred.execve, ruid, euid]

theorem execve_of_root (root : c.ruid = 0) : c.bounding ⊆ c.execve.permitted := by
  simp only [Cred.execve, root, or_true, if_true]
  exact Finset.subset_union_left

/-- The command starts with the ids of the user; if these are not those of root, it has the
capability that was asked for and no other. -/
theorem arrangeAndExec_eq_ok (root : c.ruid = 0)
    (called : arrangeAndExec f pw keepCap name c = .ok q) :
    (pw.uid ≠ 0 → pw.uid ≠ unchanged →
      q.Holds pw.uid pw.gid [pw.gid] (kept keepCap) ∧ q.effective = kept keepCap) ∧
    (pw.uid = 0 ∨ pw.uid = unchanged → c.bounding ⊆ q.permitted) := by
  rw [arrangeAndExec] at called
  obtain ⟨start, first, called⟩ := bind_eq_ok_iff.mp called
  obtain ⟨grouped, second, called⟩ := bind_eq_ok_iff.mp called
  obtain ⟨regrouped, third, called⟩ := bind_eq_ok_iff.mp called
  obtain ⟨became, fourth, called⟩ := bind_eq_ok_iff.mp called
  obtain ⟨pinned, fifth, called⟩ := bind_eq_ok_iff.mp called
  obtain ⟨-, replaced⟩ := check_eq_ok_iff.mp called
  have begins : start.ruid = c.ruid ∧ start.euid = c.euid ∧ start.suid = c.suid ∧
      start.bounding = c.bounding := by
    cases keepCap with
    | true =>
      rw [← Except.ok.inj (check_eq_ok_iff.mp first).2]
      exact ⟨rfl, rfl, rfl, rfl⟩
    | false =>
      rw [← Except.ok.inj first]
      exact ⟨rfl, rfl, rfl, rfl⟩
  have identity : Became pw start became := became_of_calls (check_eq_ok_iff.mp second).2
    (check_eq_ok_iff.mp third).2 (check_eq_ok_iff.mp fourth).2
  have last : pinned.ruid = became.ruid ∧ pinned.euid = became.euid ∧
      pinned.rgid = became.rgid ∧ pinned.egid = became.egid ∧ pinned.sgid = became.sgid ∧
      pinned.groups = became.groups ∧ pinned.bounding = became.bounding ∧
      (became.ambient = ∅ → pinned.ambient = kept keepCap) := by
    cases keepCap with
    | true =>
      have pin := pinned_of_pinCap fifth
      exact ⟨pin.ruid, pin.euid, pin.rgid, pin.egid, pin.sgid, pin.groups, pin.bounding,
        fun _ => pin.ambient⟩
    | false =>
      rw [← Except.ok.inj fifth]
      exact ⟨rfl, rfl, rfl, rfl, rfl, rfl, rfl, id⟩
  obtain ⟨ruid, euid, rgid, egid, sgid, groups, bounding, ambient⟩ := last
  rw [← Except.ok.inj replaced]
  constructor
  · intro other new
    have changed (id : UInt32) : Cred.change id pw.uid = pw.uid := if_neg new
    have ruid : pinned.ruid = pw.uid := by rw [ruid, identity.ruid, changed]
    have euid : pinned.euid = pw.uid := by rw [euid, identity.euid, changed]
    have ambient := ambient (identity.ambient (begins.1.trans root) other new)
    obtain ⟨permitted, effective⟩ := execve_of_user (c := pinned) (by rwa [ruid]) (by rwa [euid])
    refine ⟨⟨ruid, euid, euid, rgid.trans identity.rgid, egid.trans identity.egid,
      sgid.trans identity.sgid, groups.trans identity.groups, ?_⟩, effective.trans ambient⟩
    rw [permitted, ambient]
  · intro isRoot
    have stays : pinned.ruid = 0 := by
      rw [ruid, identity.ruid, begins.1, root, Cred.change]
      split_ifs with same
      · rfl
      · exact isRoot.resolve_right same
    rw [← begins.2.2.2, ← identity.bounding, ← bounding]
    exact execve_of_root stays

/-- A root that may change ids and still has the capability gets through. -/
theorem arrangeAndExec_isOk (quiet : f = {}) (group : pw.gid ≠ unchanged)
    (mayGroup : Cap.setgid ∈ c.effective) (mayUser : Cap.setuid ∈ c.effective)
    (has : Cap.netBindService ∈ c.permitted) (bounded : Cap.netBindService ∈ c.bounding) :
    ∃ q, arrangeAndExec f pw keepCap name c = .ok q := by
  subst quiet
  have may (own : List UInt32) (id : UInt32) : Cred.mayBecome true own id := by
    simp [Cred.mayBecome]
  cases keepCap with
  | false =>
    simp [arrangeAndExec, check, Cred.setgroups, Cred.setresgid, Cred.setresuid, mayGroup, mayUser,
      group.symm, may, bind, Except.bind]
  | true =>
    simp [arrangeAndExec, check, Cred.setgroups, Cred.setresgid, Cred.setresuid, mayGroup, mayUser,
      group.symm, may, bind, Except.bind, Cred.setKeepCaps, pinCap, Cred.capset, Cred.fixSetuid,
      has, bounded, Cred.raiseAmbient]

end Calls

def dropArgs (user : Bytes) (keepCap : Bool) (cmd : List Bytes) : List Bytes :=
  [ascii "--user", user] ++
    (if keepCap then [ascii "--keep-cap", ascii "net_bind_service"] else []) ++ ascii "--" :: cmd

theorem parse_dashes (o : Opts) (cmd : List Bytes) :
    parse o (ascii "--" :: cmd) = .ok { o with cmd := cmd } := by
  cases cmd with
  | nil => simp [parse]
  | cons a rest => simp [parse]

theorem parse_dropArgs (user : Bytes) (keepCap : Bool) (cmd : List Bytes) :
    parse {} (dropArgs user keepCap cmd) = .ok ⟨some user, keepCap, cmd⟩ := by
  have user_ne : ascii "--user" ≠ ascii "--" := by decide
  have keep_ne : ascii "--keep-cap" ≠ ascii "--" := by decide
  have apart : ascii "--keep-cap" ≠ ascii "--user" := by decide
  cases keepCap with
  | false => simp [dropArgs, parse, parse_dashes, user_ne]
  | true => simp [dropArgs, parse, parse_dashes, user_ne, keep_ne, apart]

/-- A root that may change ids and has the capability becomes the command. -/
theorem cmdDrop_eq_exec {h : Host} {c : Cred} {user name : Bytes} {rest : List Bytes} {pw : Passwd}
    {keepCap : Bool} (quiet : h.faults = {}) (known : h.getpwnam user = some pw)
    (group : pw.gid ≠ unchanged) (root : c.ruid = 0)
    (mayGroup : Cap.setgid ∈ c.effective) (mayUser : Cap.setuid ∈ c.effective)
    (has : Cap.netBindService ∈ c.permitted) (bounded : Cap.netBindService ∈ c.bounding) :
    ∃ cred, arrangeAndExec h.faults pw keepCap name c = .ok cred ∧
      cmdDrop h (dropArgs user keepCap (name :: rest)) c = .exec (name :: rest) cred := by
  obtain ⟨cred, arranged⟩ : ∃ q, arrangeAndExec h.faults pw keepCap name c = .ok q :=
    arrangeAndExec_isOk quiet group mayGroup mayUser has bounded
  refine ⟨cred, arranged, ?_⟩
  simp only [cmdDrop, parse_dropArgs, root, ne_eq, not_true_eq_false, if_false, known, arranged]

theorem parsePort_decimal {port : ℕ} (small : port < 2 ^ 16) :
    parsePort 80 [ascii "--port", decimal port] = .ok port := by
  have read : u16.parse (decimal port) = some (port : ℤ) :=
    IntParser.parse_decimal (Int.natCast_nonneg port) (by simp only [u16]; omega)
  simp [parsePort, read]

/-- The two commands together: a probe of a free port behind the drop succeeds if the capability was
kept or the port is not a privileged one. -/
theorem bindprobe_of_drop (h : Host) (c : Cred) (user pmon : Bytes) (pw : Passwd) (keepCap : Bool)
    (port : ℕ) (quiet : h.faults = {}) (known : h.getpwnam user = some pw)
    (other : pw.uid ≠ 0 ∧ pw.uid ≠ unchanged ∧ pw.gid ≠ unchanged) (root : c.ruid = 0)
    (mayGroup : Cap.setgid ∈ c.effective) (mayUser : Cap.setuid ∈ c.effective)
    (has : Cap.netBindService ∈ c.permitted) (bounded : Cap.netBindService ∈ c.bounding)
    (small : port < 2 ^ 16) (free : h.bound port = false) :
    ∃ cred, cmdDrop h (dropArgs user keepCap [pmon, ascii "bindprobe", ascii "--port", decimal port])
        c = .exec [pmon, ascii "bindprobe", ascii "--port", decimal port] cred ∧
      cmdBindprobe h [ascii "--port", decimal port] cred =
        if keepCap ∨ port = 0 ∨ 1024 ≤ port then 0 else 3 := by
  obtain ⟨q, arranged, became⟩ := cmdDrop_eq_exec quiet known other.2.2 root mayGroup mayUser has
    bounded
  have effective : q.effective = kept keepCap :=
    ((arrangeAndExec_eq_ok root arranged).1 other.1 other.2.1).2
  have held : Cap.netBindService ∈ q.effective ↔ keepCap := by
    rw [effective, kept]
    cases keepCap <;> simp
  refine ⟨q, became, ?_⟩
  rw [cmdBindprobe, parsePort_decimal small]
  refine if_congr ?_ rfl rfl
  simp only [bindable, free, Bool.not_false, Bool.and_true, Bool.or_eq_true, decide_eq_true_eq, held]
  tauto

/-- Port 80 with the capability. -/
theorem bindprobe_of_drop_http :
    ∃ cred, cmdDrop ⟨fun _ => some ⟨1000, 1000⟩, {}, fun _ => [], fun _ => false⟩
        (dropArgs (ascii "web") true [ascii "pmon", ascii "bindprobe", ascii "--port", decimal 80])
        ⟨0, 0, 0, 0, 0, 0, [], {6, 7, 10}, {6, 7, 10}, ∅, ∅, {10}, false, by decide, by decide⟩ =
          .exec [ascii "pmon", ascii "bindprobe", ascii "--port", decimal 80] cred ∧
      cmdBindprobe ⟨fun _ => some ⟨1000, 1000⟩, {}, fun _ => [], fun _ => false⟩
          [ascii "--port", decimal 80] cred = 0 := by
  simpa using bindprobe_of_drop ⟨fun _ => some ⟨1000, 1000⟩, {}, fun _ => [], fun _ => false⟩
    ⟨0, 0, 0, 0, 0, 0, [], {6, 7, 10}, {6, 7, 10}, ∅, ∅, {10}, false, by decide, by decide⟩
    (ascii "web") (ascii "pmon") ⟨1000, 1000⟩ true 80 rfl rfl (by decide) rfl (by decide)
    (by decide) (by decide) (by decide) (by decide) rfl

end LinuxSys.Pmon.Drop
