import Mathlib.Data.Finset.Basic
import Mathlib.Data.Finset.Insert
import LinuxSys.Lib.Machine

/-! # The credentials of a process

User and group ids, capability sets and the calls that change them, under the default secure bits
and without files that carry privileges of their own. A process that is not root and may not change
ids keeps its ids, and its capabilities only ever shrink.
-/

namespace LinuxSys.Lib

abbrev Cap := ℕ

namespace Cap

def setgid : Cap := 6
def setuid : Cap := 7
def setpcap : Cap := 8
def netBindService : Cap := 10

end Cap

/-- An id argument that leaves an id as it is, and that no user or group has. -/
def unchanged : UInt32 := 0xFFFFFFFF

inductive CredError where
  | eperm
  | einval
deriving DecidableEq, Repr

structure Cred where
  ruid : UInt32
  euid : UInt32
  suid : UInt32
  rgid : UInt32
  egid : UInt32
  sgid : UInt32
  groups : List UInt32
  permitted : Finset Cap
  effective : Finset Cap
  inheritable : Finset Cap
  ambient : Finset Cap
  bounding : Finset Cap
  keepCaps : Bool
  effective_subset : effective ⊆ permitted
  ambient_subset : ambient ⊆ permitted ∩ inheritable
deriving DecidableEq

namespace Cred

variable (c : Cred)

/-- `PR_SET_KEEPCAPS` -/
def setKeepCaps (on : Bool) : Cred := { c with keepCaps := on }

def setgroups (groups : List UInt32) : Except CredError Cred :=
  if Cap.setgid ∉ c.effective then .error .eperm
  else if unchanged ∈ groups then .error .einval
  else .ok { c with groups := groups }

def change (old new : UInt32) : UInt32 := if new = unchanged then old else new

/-- Without the capability an id may become one of the three that are there. -/
def mayBecome (privileged : Bool) (own : List UInt32) (new : UInt32) : Bool :=
  new = unchanged || privileged || new ∈ own

def setresgid (r e s : UInt32) : Except CredError Cred :=
  if [r, e, s].all (mayBecome (Cap.setgid ∈ c.effective) [c.rgid, c.egid, c.sgid]) then
    .ok { c with rgid := change c.rgid r, egid := change c.egid e, sgid := change c.sgid s }
  else .error .eperm

/-- With the last id of root the permitted capabilities go, unless they are kept, and the ambient
ones in any case; with the effective id the effective ones go, and come back with it. -/
def fixSetuid (r e s : UInt32) : Cred :=
  let leaves := (c.ruid = 0 ∨ c.euid = 0 ∨ c.suid = 0) ∧ r ≠ 0 ∧ e ≠ 0 ∧ s ≠ 0
  let permitted := if leaves ∧ c.keepCaps = false then ∅ else c.permitted
  let effective :=
    if e ≠ 0 ∧ (c.euid = 0 ∨ leaves ∧ c.keepCaps = false) then ∅
    else if c.euid ≠ 0 ∧ e = 0 then permitted
    else c.effective
  { c with
    ruid := r
    euid := e
    suid := s
    permitted := permitted
    effective := effective
    ambient := if leaves then ∅ else c.ambient
    effective_subset := by
      have within := c.effective_subset
      simp only [effective, permitted, leaves]
      split_ifs <;> simp_all
    ambient_subset := by
      have within := c.ambient_subset
      simp only [permitted, leaves]
      split_ifs <;> simp_all }

def setresuid (r e s : UInt32) : Except CredError Cred :=
  if [r, e, s].all (mayBecome (Cap.setuid ∈ c.effective) [c.ruid, c.euid, c.suid]) then
    .ok (c.fixSetuid (change c.ruid r) (change c.euid e) (change c.suid s))
  else .error .eperm

def capset (effective permitted inheritable : Finset Cap) : Except CredError Cred :=
  if ¬ inheritable ⊆ c.inheritable ∪ c.permitted ∧ Cap.setpcap ∉ c.effective then .error .eperm
  else if ¬ inheritable ⊆ c.inheritable ∪ c.bounding then .error .eperm
  else if ¬ permitted ⊆ c.permitted then .error .eperm
  else if within : effective ⊆ permitted then
    .ok { c with
      permitted := permitted
      effective := effective
      inheritable := inheritable
      ambient := c.ambient ∩ (permitted ∩ inheritable)
      effective_subset := within
      ambient_subset := Finset.inter_subset_right }
  else .error .eperm

/-- `PR_CAP_AMBIENT_RAISE` -/
def raiseAmbient (cap : Cap) : Except CredError Cred :=
  if there : cap ∈ c.permitted ∩ c.inheritable then
    .ok { c with
      ambient := insert cap c.ambient
      ambient_subset := Finset.insert_subset there c.ambient_subset }
  else .error .eperm

/-- `PR_CAP_AMBIENT_CLEAR_ALL` -/
def clearAmbient : Cred := { c with ambient := ∅, ambient_subset := Finset.empty_subset _ }

/-- `PR_CAPBSET_DROP` -/
def dropBounding (cap : Cap) : Except CredError Cred :=
  if Cap.setpcap ∈ c.effective then .ok { c with bounding := c.bounding.erase cap }
  else .error .eperm

/-- `execve` of a file without privileges of its own: to root it is as if the file had all of
them, anyone else keeps the ambient ones. -/
def execve : Cred :=
  let root := c.euid = 0 ∨ c.ruid = 0
  let permitted := if root then c.bounding ∪ c.inheritable else c.ambient
  { c with
    suid := c.euid
    permitted := permitted
    effective := if c.euid = 0 then permitted else c.ambient
    keepCaps := false
    effective_subset := by
      have within := c.ambient_subset.trans Finset.inter_subset_right
      simp only [permitted, root]
      split_ifs
      · exact Finset.Subset.refl _
      · simp_all
      · exact within.trans Finset.subset_union_right
      · exact Finset.Subset.refl _
    ambient_subset := by
      have within := c.ambient_subset.trans Finset.inter_subset_right
      refine Finset.subset_inter ?_ within
      simp only [permitted, root]
      split_ifs
      · exact within.trans Finset.subset_union_right
      · exact Finset.Subset.refl _ }

end Cred

inductive CredCall where
  | setKeepCaps (on : Bool)
  | setgroups (groups : List UInt32)
  | setresgid (r e s : UInt32)
  | setresuid (r e s : UInt32)
  | capset (effective permitted inheritable : Finset Cap)
  | raiseAmbient (cap : Cap)
  | clearAmbient
  | dropBounding (cap : Cap)
  | execve

namespace Cred

def call (c : Cred) : CredCall → Except CredError Cred
  | .setKeepCaps on => .ok (c.setKeepCaps on)
  | .setgroups groups => c.setgroups groups
  | .setresgid r e s => c.setresgid r e s
  | .setresuid r e s => c.setresuid r e s
  | .capset effective permitted inheritable => c.capset effective permitted inheritable
  | .raiseAmbient cap => c.raiseAmbient cap
  | .clearAmbient => .ok c.clearAmbient
  | .dropBounding cap => c.dropBounding cap
  | .execve => .ok c.execve

/-- A process that makes the calls it likes; one that fails changes nothing. -/
def calls (c : Cred) : Machine Cred CredCall := ⟨c, fun c a => (c.call a).toOption⟩

/-- One user, one group, and no capability beyond some. -/
structure Holds (uid gid : UInt32) (groups : List UInt32) (caps : Finset Cap) (c : Cred) :
    Prop where
  ruid : c.ruid = uid
  euid : c.euid = uid
  suid : c.suid = uid
  rgid : c.rgid = gid
  egid : c.egid = gid
  sgid : c.sgid = gid
  groups : c.groups = groups
  permitted : c.permitted ⊆ caps

section Holds

variable {uid gid : UInt32} {groups : List UInt32} {caps : Finset Cap} {c q : Cred}

theorem Holds.effective (held : c.Holds uid gid groups caps) : c.effective ⊆ caps :=
  c.effective_subset.trans held.permitted

theorem Holds.not_mem (held : c.Holds uid gid groups caps) {cap : Cap} (without : cap ∉ caps) :
    cap ∉ c.effective :=
  fun member => without (held.effective member)

/-- Without the capability an id stays. -/
theorem change_of_mayBecome {id new : UInt32} (may : mayBecome false [id, id, id] new) :
    change id new = id := by
  rw [change]
  split_ifs with same
  · rfl
  · simpa [mayBecome, same] using may

theorem setgroups_eq_ok (called : c.setgroups groups = .ok q) :
    q = { c with groups := groups } := by
  rw [setgroups] at called
  split_ifs at called
  exact (Except.ok.inj called).symm

theorem Holds.setresgid (held : c.Holds uid gid groups caps) (without : Cap.setgid ∉ caps)
    {r e s : UInt32} (called : c.setresgid r e s = .ok q) : q.Holds uid gid groups caps := by
  rw [Cred.setresgid] at called
  split_ifs at called with may
  rw [decide_eq_false (held.not_mem without), held.rgid, held.egid, held.sgid,
    List.all_cons, List.all_cons, List.all_cons, List.all_nil, Bool.and_true, Bool.and_eq_true,
    Bool.and_eq_true] at may
  rw [← Except.ok.inj called, held.rgid, held.egid, held.sgid, change_of_mayBecome may.1,
    change_of_mayBecome may.2.1, change_of_mayBecome may.2.2]
  exact { held with rgid := rfl, egid := rfl, sgid := rfl }

theorem Holds.setresuid (held : c.Holds uid gid groups caps) (user : uid ≠ 0)
    (without : Cap.setuid ∉ caps) {r e s : UInt32} (called : c.setresuid r e s = .ok q) :
    q.Holds uid gid groups caps := by
  rw [Cred.setresuid] at called
  split_ifs at called with may
  rw [decide_eq_false (held.not_mem without), held.ruid, held.euid, held.suid,
    List.all_cons, List.all_cons, List.all_cons, List.all_nil, Bool.and_true, Bool.and_eq_true,
    Bool.and_eq_true] at may
  rw [← Except.ok.inj called, held.ruid, held.euid, held.suid, change_of_mayBecome may.1,
    change_of_mayBecome may.2.1, change_of_mayBecome may.2.2]
  refine { held with ruid := rfl, euid := rfl, suid := rfl, permitted := ?_ }
  simp only [fixSetuid, held.ruid, held.euid, held.suid, user, false_or, false_and, if_false]
  exact held.permitted

theorem Holds.capset (held : c.Holds uid gid groups caps) {effective permitted inheritable}
    (called : c.capset effective permitted inheritable = .ok q) : q.Holds uid gid groups caps := by
  rw [Cred.capset] at called
  split_ifs at called with priv bounded within below
  rw [← Except.ok.inj called]
  exact { held with permitted := within.trans held.permitted }

theorem Holds.execve (held : c.Holds uid gid groups caps) (user : uid ≠ 0) :
    c.execve.Holds uid gid groups caps := by
  refine { held with suid := held.euid, permitted := ?_ }
  have ambient := (c.ambient_subset.trans Finset.inter_subset_left).trans held.permitted
  simpa [Cred.execve, held.euid, held.ruid, user] using ambient

/-- A user without the capabilities over ids keeps its ids and gets no capability. -/
theorem Holds.call (held : c.Holds uid gid groups caps) (user : uid ≠ 0)
    (noSetuid : Cap.setuid ∉ caps) (noSetgid : Cap.setgid ∉ caps) {a : CredCall}
    (called : c.call a = .ok q) : q.Holds uid gid groups caps := by
  cases a with
  | setKeepCaps on =>
    rw [← Except.ok.inj called]
    exact { held with }
  | setgroups others =>
    simp only [Cred.call, setgroups, held.not_mem noSetgid, not_false_eq_true, if_true,
      reduceCtorEq] at called
  | setresgid r e s => exact held.setresgid noSetgid called
  | setresuid r e s => exact held.setresuid user noSetuid called
  | capset effective permitted inheritable => exact held.capset called
  | raiseAmbient cap =>
    simp only [Cred.call, raiseAmbient] at called
    split_ifs at called
    rw [← Except.ok.inj called]
    exact { held with }
  | clearAmbient =>
    rw [← Except.ok.inj called]
    exact { held with }
  | dropBounding cap =>
    simp only [Cred.call, dropBounding] at called
    split_ifs at called
    rw [← Except.ok.inj called]
    exact { held with }
  | execve =>
    rw [← Except.ok.inj called]
    exact held.execve user

/-- Whatever it does. -/
theorem Holds.run (held : c.Holds uid gid groups caps) (user : uid ≠ 0)
    (noSetuid : Cap.setuid ∉ caps) (noSetgid : Cap.setgid ∉ caps) {acts : List CredCall}
    (run : c.calls.run? acts = some q) : q.Holds uid gid groups caps := by
  refine Machine.run?_keeps held (fun s a t kept taken => ?_) run
  obtain ⟨r, called, same⟩ : ∃ r, s.call a = .ok r ∧ r = t := by
    cases called : s.call a with
    | ok r => exact ⟨r, rfl, by simpa [calls, called, Except.toOption] using taken⟩
    | error e => simp [calls, called, Except.toOption] at taken
  rw [← same]
  exact kept.call user noSetuid noSetgid called

end Holds

end Cred

end LinuxSys.Lib
