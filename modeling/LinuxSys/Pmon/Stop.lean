import Mathlib.Logic.Function.Basic
import LinuxSys.Language
import LinuxSys.Lib.Machine

/-! # The command `stop` of pmon ch19

The control loop sets `stopping`, signals the process group of the child it reads and waits for the
reaper, which collects the children and restarts them after a backoff. In C++ a child makes its own
group after the fork; in Rust and Go it has one when `spawn` returns. Process ids are not reused.
-/

namespace LinuxSys.Pmon.Stop

open Lib

/-- A child: it leads its own group, a signal to that group has reached it alive, it was waited
for. -/
structure Proc where
  alive : Bool := false
  leads : Bool := false
  reached : Bool := false
  reaped : Bool := false
deriving DecidableEq, Repr

/-- The control loop. -/
inductive Loop where
  | serving
  | killing (child : ℕ)
  | waiting
  | returned
deriving DecidableEq, Repr

inductive Reaper where
  | starting
  | waiting (pid : ℕ)
  | collected
  | backoff
  | spawning
  | spawned (pid : ℕ)
  | undoing (pid : ℕ)
  | undoWaiting (pid : ℕ)
  | ended
deriving DecidableEq, Repr

/-- `kills` is history: the groups that were signalled, and whether their leader had been reaped. -/
structure State where
  procs : ℕ → Proc
  born : ℕ := 1
  child : ℕ := 0
  restarts : ℕ := 0
  stopping : Bool := false
  childDone : Bool := false
  loop : Loop := .serving
  reaper : Reaper := .starting
  kills : List (ℕ × Bool) := []

/-- The first two are the child's own; the control loop's and the reaper's follow. -/
inductive Action where
  | setpgid (pid : ℕ)
  | exit (pid : ℕ)
  | stop
  | kill
  | wake
  | start
  | reap
  | check
  | sawStop
  | expired
  | spawn
  | spawnFailed
  | adopt
  | undo
  | undoReap
deriving DecidableEq, Repr

/-- A child that `spawn_child` has just returned. -/
def forked (lang : Language) : Proc := { alive := true, leads := decide (lang ≠ .cpp) }

namespace State

def setProc (s : State) (pid : ℕ) (p : Proc) : State :=
  { s with procs := Function.update s.procs pid p }

/-- `kill(-pid, SIGTERM)` reaches the child if it leads the group. -/
def signal (s : State) (pid : ℕ) : State :=
  { s.setProc pid { s.procs pid with
      reached := (s.procs pid).reached || (s.procs pid).alive && (s.procs pid).leads } with
    kills := s.kills ++ [(pid, (s.procs pid).reaped)] }

/-- `waitpid` has returned the child. -/
def collect (s : State) (pid : ℕ) : State := s.setProc pid { s.procs pid with reaped := true }

def finish (s : State) : State := { s with childDone := true, reaper := .ended }

def step (lang : Language) (s : State) : Action → Option State
  | .setpgid pid =>
    if (s.procs pid).alive then some (s.setProc pid { s.procs pid with leads := true }) else none
  | .exit pid =>
    if (s.procs pid).alive then some (s.setProc pid { s.procs pid with alive := false }) else none
  | .stop =>
    if s.loop = .serving then some { s with stopping := true, loop := .killing s.child } else none
  | .kill =>
    match s.loop with
    | .killing child => some { s.signal child with loop := .waiting }
    | _ => none
  | .wake => if s.loop = .waiting ∧ s.childDone then some { s with loop := .returned } else none
  | .start => if s.reaper = .starting then some { s with reaper := .waiting s.child } else none
  | .reap =>
    match s.reaper with
    | .waiting pid =>
      if (s.procs pid).alive then none else some { s.collect pid with reaper := .collected }
    | _ => none
  | .check =>
    if s.reaper = .collected then
      if s.stopping then some s.finish else some { s with reaper := .backoff }
    else none
  | .sawStop => if s.reaper = .backoff ∧ s.stopping then some s.finish else none
  -- The predicate is checked again after the time-out; `select` may choose the timer.
  | .expired =>
    if s.reaper = .backoff ∧ (s.stopping = false ∨ lang = .go) then
      some { s with reaper := .spawning }
    else none
  | .spawn =>
    if s.reaper = .spawning then
      some { s.setProc s.born (forked lang) with born := s.born + 1, reaper := .spawned s.born }
    else none
  | .spawnFailed => if s.reaper = .spawning then some s.finish else none
  | .adopt =>
    match s.reaper with
    | .spawned pid =>
      if s.stopping then some { s with reaper := .undoing pid }
      else some { s with child := pid, restarts := s.restarts + 1, reaper := .waiting pid }
    | _ => none
  | .undo =>
    match s.reaper with
    | .undoing pid => some { s.signal pid with reaper := .undoWaiting pid }
    | _ => none
  | .undoReap =>
    match s.reaper with
    | .undoWaiting pid => if (s.procs pid).alive then none else some (s.collect pid).finish
    | _ => none

end State

/-- The supervisor once its first child is spawned. -/
def supervise (lang : Language) : Machine State Action where
  init := { procs := fun pid => if pid = 0 then forked lang else {} }
  step := State.step lang

/-- The group signal has reached every living child that the supervisor waits for, unless the reaper
has it and is to signal it; no child lives when it has returned; and no group was signalled whose
leader had been reaped. -/
structure Right (s : State) : Prop where
  reached : s.loop = .waiting ∨ s.loop = .returned → ∀ pid, (s.procs pid).alive →
    (s.procs pid).reached ∨ s.reaper = .spawned pid ∨ s.reaper = .undoing pid
  undone : ∀ pid, s.reaper = .undoWaiting pid → (s.procs pid).alive → (s.procs pid).reached
  gone : s.loop = .returned → ∀ pid, (s.procs pid).alive = false
  led : ∀ kill ∈ s.kills, kill.2 = false

/-- When the control loop signals, the child has not been reaped; and in C++ a child that is
signalled has called `setpgid`, if it is alive. -/
def Aimed (lang : Language) (s : State) : Action → Prop
  | .kill => ∀ child, s.loop = .killing child → (s.procs child).reaped = false ∧
      (lang = .cpp → (s.procs child).alive → (s.procs child).leads)
  | .undo => ∀ pid, s.reaper = .undoing pid →
      (lang = .cpp → (s.procs pid).alive → (s.procs pid).leads)
  | _ => True

/-- The child that the reaper is to wait for. -/
def Reaper.holds (child : ℕ) : Reaper → Option ℕ
  | .starting => some child
  | .waiting pid | .spawned pid | .undoing pid | .undoWaiting pid => some pid
  | .collected | .backoff | .spawning | .ended => none

/-- A child that the reaper has spawned after the one that the control loop knows. -/
def Reaper.next : Reaper → Option ℕ
  | .spawned pid | .undoing pid | .undoWaiting pid => some pid
  | _ => none

/-- It has not been signalled. -/
def Reaper.unsignalled : Reaper → Option ℕ
  | .spawned pid | .undoing pid => some pid
  | _ => none

theorem Reaper.next_of_unsignalled {reaper : Reaper} {pid : ℕ}
    (unsignalled : reaper.unsignalled = some pid) : reaper.next = some pid := by
  cases reaper with
  | spawned other | undoing other => exact unsignalled
  | _ => cases unsignalled

theorem Reaper.unsignalled_iff {reaper : Reaper} {pid : ℕ} :
    reaper.unsignalled = some pid ↔ reaper = .spawned pid ∨ reaper = .undoing pid := by
  cases reaper with
  | _ => simp [Reaper.unsignalled]

/-- Only the child that the reaper holds is alive, and a signal was sent only where the loop or the
reaper has done so. -/
structure State.Inv (lang : Language) (s : State) : Prop where
  child : s.child < s.born
  fresh : ∀ pid, s.born ≤ pid → s.procs pid = {}
  held : ∀ pid, (s.procs pid).alive → s.reaper.holds s.child = some pid
  waiting : ∀ pid, s.reaper = .waiting pid → pid = s.child
  next : ∀ pid, s.reaper.next = some pid → s.child < pid ∧ pid < s.born ∧
    (s.procs pid).reaped = false
  unsignalled : ∀ pid, s.reaper.unsignalled = some pid → (s.procs pid).reached = false
  stopping : s.loop ≠ .serving → s.stopping = true
  killing : ∀ pid, s.loop = .killing pid → pid = s.child
  before : ∀ pid, s.loop = .serving ∨ s.loop = .killing pid → (s.procs s.child).reached = false
  done : s.childDone = true → s.reaper = .ended
  returned : s.loop = .returned → s.childDone = true
  leads : lang ≠ .cpp → ∀ pid, (s.procs pid).alive → (s.procs pid).leads

variable {lang : Language} {s t : State}

/-! What the steps that look at a child do. -/

theorem State.kill_eq_some (taken : s.step lang .kill = some t) :
    ∃ child, s.loop = .killing child ∧ t = { s.signal child with loop := .waiting } := by
  simp only [State.step] at taken
  split at taken
  · next child killing => exact ⟨child, killing, (Option.some.inj taken).symm⟩
  · cases taken

theorem State.reap_eq_some (taken : s.step lang .reap = some t) :
    ∃ pid, s.reaper = .waiting pid ∧ ¬ (s.procs pid).alive ∧
      t = ({ s with reaper := .collected } : State).collect pid := by
  simp only [State.step] at taken
  split at taken
  · next pid waiting =>
    obtain ⟨dead, same⟩ := Option.ite_none_left_eq_some.mp taken
    exact ⟨pid, waiting, dead, (Option.some.inj same).symm⟩
  · cases taken

theorem State.check_eq_some (taken : s.step lang .check = some t) :
    s.reaper = .collected ∧ (t = s.finish ∨ t = { s with reaper := .backoff }) := by
  obtain ⟨collected, same⟩ := Option.ite_none_right_eq_some.mp taken
  refine ⟨collected, ?_⟩
  split at same
  · exact .inl (Option.some.inj same).symm
  · exact .inr (Option.some.inj same).symm

theorem State.adopt_eq_some (taken : s.step lang .adopt = some t) :
    ∃ pid, s.reaper = .spawned pid ∧
      (s.stopping ∧ t = { s with reaper := .undoing pid } ∨
        ¬ s.stopping ∧
          t = { s with child := pid, restarts := s.restarts + 1, reaper := .waiting pid }) := by
  simp only [State.step] at taken
  split at taken
  · next pid spawned =>
    refine ⟨pid, spawned, ?_⟩
    split at taken
    · next stopping => exact .inl ⟨stopping, (Option.some.inj taken).symm⟩
    · next going => exact .inr ⟨going, (Option.some.inj taken).symm⟩
  · cases taken

theorem State.undo_eq_some (taken : s.step lang .undo = some t) :
    ∃ pid, s.reaper = .undoing pid ∧ t = { s.signal pid with reaper := .undoWaiting pid } := by
  simp only [State.step] at taken
  split at taken
  · next pid undoing => exact ⟨pid, undoing, (Option.some.inj taken).symm⟩
  · cases taken

theorem State.undoReap_eq_some (taken : s.step lang .undoReap = some t) :
    ∃ pid, s.reaper = .undoWaiting pid ∧ ¬ (s.procs pid).alive ∧ t = s.finish.collect pid := by
  simp only [State.step] at taken
  split at taken
  · next pid waiting =>
    obtain ⟨dead, same⟩ := Option.ite_none_left_eq_some.mp taken
    exact ⟨pid, waiting, dead, (Option.some.inj same).symm⟩
  · cases taken

theorem State.Inv.init (lang : Language) : ((supervise lang).init).Inv lang where
  child := Nat.one_pos
  fresh _ new := if_neg (Nat.ne_of_gt new)
  held pid alive := by
    simp only [supervise] at alive
    split at alive
    · next first =>
      rw [first]
      rfl
    · cases alive
  waiting := nofun
  next := nofun
  unsignalled := nofun
  stopping other := absurd rfl other
  killing := nofun
  before _ _ := rfl
  done := nofun
  returned := nofun
  leads other pid alive := by
    simp only [supervise] at alive ⊢
    split at alive
    · next first =>
      rw [if_pos first]
      exact decide_eq_true other
    · cases alive

theorem State.Inv.lt_born (inv : s.Inv lang) {pid : ℕ} (alive : (s.procs pid).alive) :
    pid < s.born := by
  by_contra new
  rw [inv.fresh pid (Nat.not_lt.mp new)] at alive
  cases alive

@[simp] theorem State.setProc_procs (s : State) (pid : ℕ) (p : Proc) :
    (s.setProc pid p).procs = Function.update s.procs pid p := rfl

/-- A child changes, and does not come back to life. -/
theorem State.Inv.setProc (inv : s.Inv lang) {pid : ℕ} {p : Proc} (born : pid < s.born)
    (alive : p.alive → (s.procs pid).alive)
    (unsignalled : s.reaper.unsignalled = some pid → p.reached = false)
    (before : pid = s.child → ∀ child, s.loop = .serving ∨ s.loop = .killing child →
      p.reached = false)
    (reaped : s.reaper.next = some pid → p.reaped = (s.procs pid).reaped)
    (leads : lang ≠ .cpp → p.alive → p.leads) : (s.setProc pid p).Inv lang := by
  refine { inv with
    fresh := fun other new => ?_
    held := fun other now => ?_
    next := fun other here => ?_
    unsignalled := fun other here => ?_
    before := fun child here => ?_
    leads := fun notCpp other now => ?_ }
  · have different : other ≠ pid := Nat.ne_of_gt (Nat.lt_of_lt_of_le born new)
    rw [setProc_procs, Function.update_of_ne different]
    exact inv.fresh other new
  · apply inv.held
    rw [setProc_procs] at now
    by_cases this : other = pid
    · rw [this, Function.update_self] at now
      rw [this]
      exact alive now
    · rwa [Function.update_of_ne this] at now
  · obtain ⟨after, old, unreaped⟩ := inv.next other here
    refine ⟨after, old, ?_⟩
    rw [setProc_procs]
    by_cases this : other = pid
    · subst this
      rw [Function.update_self, reaped here, unreaped]
    · rw [Function.update_of_ne this, unreaped]
  · rw [setProc_procs]
    by_cases this : other = pid
    · subst this
      rw [Function.update_self]
      exact unsignalled here
    · rw [Function.update_of_ne this]
      exact inv.unsignalled other here
  · change ((s.setProc pid p).procs s.child).reached = false
    rw [setProc_procs]
    by_cases this : s.child = pid
    · rw [this, Function.update_self]
      exact before this.symm child here
    · rw [Function.update_of_ne this]
      exact inv.before child here
  · rw [setProc_procs] at now ⊢
    by_cases this : other = pid
    · rw [this, Function.update_self] at now ⊢
      exact leads notCpp now
    · rw [Function.update_of_ne this] at now ⊢
      exact inv.leads notCpp other now

/-- A step of a child, or its collection. -/
theorem State.Inv.setProc_of_reached (inv : s.Inv lang) {pid : ℕ} {p : Proc} (born : pid < s.born)
    (alive : p.alive → (s.procs pid).alive) (reached : p.reached = (s.procs pid).reached)
    (reaped : s.reaper.next = some pid → p.reaped = (s.procs pid).reaped)
    (leads : lang ≠ .cpp → p.alive → p.leads) : (s.setProc pid p).Inv lang := by
  apply inv.setProc born alive _ _ reaped leads
  · intro here
    rw [reached]
    exact inv.unsignalled pid here
  · intro same child here
    rw [reached, same]
    exact inv.before child here

theorem State.Inv.collect (inv : s.Inv lang) {pid : ℕ} (born : pid < s.born)
    (none : s.reaper.next = none) : (s.collect pid).Inv lang := by
  apply inv.setProc_of_reached (p := { s.procs pid with reaped := true }) born id rfl
  · intro here
    rw [none] at here
    cases here
  · exact fun notCpp => inv.leads notCpp pid

theorem State.Inv.signal (inv : s.Inv lang) {pid : ℕ} (born : pid < s.born)
    (none : s.reaper.unsignalled ≠ some pid)
    (after : pid = s.child → ∀ child, ¬ (s.loop = .serving ∨ s.loop = .killing child)) :
    (s.signal pid).Inv lang := by
  have changed := inv.setProc (p := { s.procs pid with reached := (s.procs pid).reached ||
    (s.procs pid).alive && (s.procs pid).leads }) born id (fun here => absurd here none)
    (fun same child here => absurd here (after same child)) (fun _ => rfl)
    fun notCpp => inv.leads notCpp pid
  exact { changed with }

/-- A step of the reaper that touches no child. -/
theorem State.Inv.move (inv : s.Inv lang) {reaper : Reaper}
    (held : ∀ pid, (s.procs pid).alive → reaper.holds s.child = some pid)
    (waiting : ∀ pid, reaper = .waiting pid → pid = s.child)
    (next : ∀ pid, reaper.next = some pid → s.child < pid ∧ pid < s.born ∧
      (s.procs pid).reaped = false)
    (unsignalled : ∀ pid, reaper.unsignalled = some pid → (s.procs pid).reached = false)
    (going : s.reaper ≠ .ended) : ({ s with reaper } : State).Inv lang :=
  { inv with held, waiting, next, unsignalled, done := fun done => absurd (inv.done done) going }

/-- No child is alive where the reaper holds none. -/
theorem State.Inv.not_alive (inv : s.Inv lang) (none : s.reaper.holds s.child = none) (pid : ℕ) :
    ¬ (s.procs pid).alive := by
  intro alive
  have held := inv.held pid alive
  rw [none] at held
  cases held

theorem State.Inv.finish (inv : s.Inv lang) (none : ∀ pid, ¬ (s.procs pid).alive) :
    s.finish.Inv lang :=
  { inv with
    held := fun pid alive => absurd alive (none pid)
    waiting := nofun
    next := nofun
    unsignalled := nofun
    done := fun _ => rfl
    returned := fun _ => rfl }

theorem State.Inv.spawn (inv : s.Inv lang) (spawning : s.reaper = .spawning) :
    ({ s.setProc s.born (forked lang) with
      born := s.born + 1, reaper := .spawned s.born } : State).Inv lang := by
  have none := inv.not_alive (by rw [spawning]; rfl)
  have new : s.procs s.born = {} := inv.fresh s.born (Nat.le_refl _)
  have different : s.child ≠ s.born := Nat.ne_of_lt inv.child
  refine { inv with
    child := Nat.lt_succ_of_lt inv.child
    fresh := fun pid later => ?_
    held := fun pid alive => ?_
    waiting := nofun
    next := fun pid here => ?_
    unsignalled := fun pid here => ?_
    before := fun pid here => ?_
    done := fun done => ?_
    leads := fun notCpp pid alive => ?_ }
  · rw [State.setProc_procs, Function.update_of_ne (Nat.ne_of_gt later)]
    exact inv.fresh pid (Nat.le_of_succ_le later)
  · rw [State.setProc_procs] at alive
    by_cases this : pid = s.born
    · rw [this]
      rfl
    · rw [Function.update_of_ne this] at alive
      exact absurd alive (none pid)
  · cases here
    refine ⟨inv.child, Nat.lt_succ_self _, ?_⟩
    rw [State.setProc_procs, Function.update_self]
    rfl
  · cases here
    rw [State.setProc_procs, Function.update_self]
    rfl
  · change ((s.setProc s.born (forked lang)).procs s.child).reached = false
    rw [State.setProc_procs, Function.update_of_ne different]
    exact inv.before pid here
  · have ended := inv.done done
    rw [spawning] at ended
    cases ended
  · rw [State.setProc_procs] at alive ⊢
    by_cases this : pid = s.born
    · rw [this, Function.update_self]
      exact decide_eq_true notCpp
    · rw [Function.update_of_ne this] at alive
      exact absurd alive (none pid)

theorem State.Inv.adopt (inv : s.Inv lang) {pid : ℕ} (spawned : s.reaper = .spawned pid)
    (going : ¬ s.stopping) :
    ({ s with
      child := pid, restarts := s.restarts + 1, reaper := .waiting pid } : State).Inv lang := by
  obtain ⟨-, old, -⟩ := inv.next pid (by rw [spawned]; rfl)
  have serving : s.loop = .serving := by
    by_contra other
    exact going (inv.stopping other)
  refine { inv with
    child := old
    held := fun other alive => ?_
    waiting := fun other here => ?_
    next := nofun
    unsignalled := nofun
    killing := fun other here => ?_
    before := fun _ _ => inv.unsignalled pid (by rw [spawned]; rfl)
    done := fun done => ?_ }
  · have held := inv.held other alive
    rwa [spawned] at held
  · cases here
    rfl
  · rw [serving] at here
    cases here
  · have ended := inv.done done
    rw [spawned] at ended
    cases ended

theorem State.Inv.keeps {a : Action} (inv : s.Inv lang) (taken : s.step lang a = some t) :
    t.Inv lang := by
  cases a with
  | setpgid pid =>
    obtain ⟨alive, same⟩ := Option.ite_none_right_eq_some.mp taken
    cases same
    exact inv.setProc_of_reached (inv.lt_born alive) id rfl (fun _ => rfl) fun _ _ => rfl
  | exit pid =>
    obtain ⟨alive, same⟩ := Option.ite_none_right_eq_some.mp taken
    cases same
    exact inv.setProc_of_reached (inv.lt_born alive) nofun rfl (fun _ => rfl) fun _ => nofun
  | stop =>
    obtain ⟨serving, same⟩ := Option.ite_none_right_eq_some.mp taken
    cases same
    refine { inv with
      stopping := fun _ => rfl
      killing := fun pid here => ?_
      before := fun pid _ => inv.before pid (.inl serving)
      returned := nofun }
    cases here
    rfl
  | kill =>
    obtain ⟨child, killing, rfl⟩ := State.kill_eq_some taken
    have stopping := inv.stopping (by rw [killing]; exact nofun)
    have waiting : ({ s with loop := .waiting } : State).Inv lang :=
      { inv with
        stopping := fun _ => stopping
        killing := nofun
        before := nofun
        returned := nofun }
    have same := inv.killing child killing
    refine waiting.signal ?_ (fun here => ?_) fun _ => nofun
    · rw [same]
      exact inv.child
    · have after := (inv.next child (Reaper.next_of_unsignalled here)).1
      rw [same] at after
      exact Nat.lt_irrefl s.child after
  | wake =>
    obtain ⟨⟨waiting, done⟩, same⟩ := Option.ite_none_right_eq_some.mp taken
    cases same
    have stopping := inv.stopping (by rw [waiting]; exact nofun)
    exact { inv with
      stopping := fun _ => stopping
      killing := nofun
      before := nofun
      returned := fun _ => done }
  | start =>
    obtain ⟨starting, same⟩ := Option.ite_none_right_eq_some.mp taken
    cases same
    refine inv.move (fun pid alive => ?_) (fun pid here => ?_) nofun nofun ?_
    · have held := inv.held pid alive
      rw [starting] at held
      exact held
    · cases here
      rfl
    · rw [starting]
      exact nofun
  | reap =>
    obtain ⟨pid, waiting, dead, rfl⟩ := State.reap_eq_some taken
    have collected : ({ s with reaper := .collected } : State).Inv lang := by
      refine inv.move (fun other alive => ?_) nofun nofun nofun ?_
      · have held := inv.held other alive
        rw [waiting] at held
        cases held
        exact absurd alive dead
      · rw [waiting]
        exact nofun
    refine collected.collect ?_ rfl
    rw [inv.waiting pid waiting]
    exact inv.child
  | check =>
    obtain ⟨collected, same⟩ := State.check_eq_some taken
    have none := inv.not_alive (by rw [collected]; rfl)
    obtain rfl | rfl := same
    · exact inv.finish none
    · refine inv.move (fun pid alive => absurd alive (none pid)) nofun nofun nofun ?_
      rw [collected]
      exact nofun
  | sawStop =>
    obtain ⟨⟨backoff, -⟩, same⟩ := Option.ite_none_right_eq_some.mp taken
    cases same
    exact inv.finish (inv.not_alive (by rw [backoff]; rfl))
  | expired =>
    obtain ⟨⟨backoff, -⟩, same⟩ := Option.ite_none_right_eq_some.mp taken
    cases same
    have none := inv.not_alive (by rw [backoff]; rfl)
    refine inv.move (fun pid alive => absurd alive (none pid)) nofun nofun nofun ?_
    rw [backoff]
    exact nofun
  | spawn =>
    obtain ⟨spawning, same⟩ := Option.ite_none_right_eq_some.mp taken
    cases same
    exact inv.spawn spawning
  | spawnFailed =>
    obtain ⟨spawning, same⟩ := Option.ite_none_right_eq_some.mp taken
    cases same
    exact inv.finish (inv.not_alive (by rw [spawning]; rfl))
  | adopt =>
    obtain ⟨pid, spawned, ⟨-, rfl⟩ | ⟨going, rfl⟩⟩ := State.adopt_eq_some taken
    · apply inv.move
      · intro other alive
        have held := inv.held other alive
        rwa [spawned] at held
      · exact nofun
      · intro other here
        exact inv.next other (by rwa [spawned])
      · intro other here
        exact inv.unsignalled other (by rwa [spawned])
      · rw [spawned]
        exact nofun
    · exact inv.adopt spawned going
  | undo =>
    obtain ⟨pid, undoing, rfl⟩ := State.undo_eq_some taken
    obtain ⟨after, old, -⟩ := inv.next pid (by rw [undoing]; rfl)
    have moved : ({ s with reaper := .undoWaiting pid } : State).Inv lang := by
      apply inv.move
      · intro other alive
        have held := inv.held other alive
        rwa [undoing] at held
      · exact nofun
      · intro other here
        exact inv.next other (by rwa [undoing])
      · exact nofun
      · rw [undoing]
        exact nofun
    exact moved.signal old nofun fun same => absurd same (Nat.ne_of_gt after)
  | undoReap =>
    obtain ⟨pid, waiting, dead, rfl⟩ := State.undoReap_eq_some taken
    have done : s.finish.Inv lang := by
      apply inv.finish
      intro other alive
      have held := inv.held other alive
      rw [waiting] at held
      cases held
      exact dead alive
    exact done.collect (inv.next pid (by rw [waiting]; rfl)).2.1 rfl

/-- A step after which no other child lives, no group was signalled and the reaper still has the
child it was to signal. -/
theorem Right.of (right : Right s) (loop : t.loop = s.loop)
    (procs : ∀ pid, (t.procs pid).alive →
      (s.procs pid).alive ∧ (t.procs pid).reached = (s.procs pid).reached)
    (unsignalled : s.reaper.unsignalled = t.reaper.unsignalled)
    (undone : ∀ pid, t.reaper = .undoWaiting pid → s.reaper = .undoWaiting pid)
    (kills : t.kills = s.kills) : Right t where
  reached after pid alive := by
    rw [loop] at after
    obtain ⟨alive, reached⟩ := procs pid alive
    rw [reached, ← Reaper.unsignalled_iff, ← unsignalled, Reaper.unsignalled_iff]
    exact right.reached after pid alive
  undone pid here alive := by
    obtain ⟨alive, reached⟩ := procs pid alive
    rw [reached]
    exact right.undone pid (undone pid here) alive
  gone after pid := by
    rw [loop] at after
    by_contra alive
    have before := (procs pid (eq_true_of_ne_false alive)).1
    rw [right.gone after pid] at before
    cases before
  led := by
    rw [kills]
    exact right.led

theorem Right.setProc (right : Right s) {pid : ℕ} {p : Proc}
    (alive : p.alive → (s.procs pid).alive) (reached : p.reached = (s.procs pid).reached) :
    Right (s.setProc pid p) := by
  refine right.of rfl (fun other now => ?_) rfl (fun _ => id) rfl
  rw [State.setProc_procs] at now ⊢
  by_cases this : other = pid
  · subst this
    rw [Function.update_self] at now ⊢
    exact ⟨alive now, reached⟩
  · rw [Function.update_of_ne this] at now ⊢
    exact ⟨now, rfl⟩

/-- The step of the reaper where it does not have a child that it is to signal, before or after. -/
theorem Right.move (right : Right s) (reaper : Reaper) (before : s.reaper.unsignalled = none)
    (after : reaper.next = none) : Right ({ s with reaper } : State) := by
  refine right.of rfl (fun _ alive => ⟨alive, rfl⟩) ?_ (fun pid here => ?_) rfl
  · rw [before]
    by_contra other
    obtain ⟨pid, unsignalled⟩ := Option.ne_none_iff_exists'.mp (Ne.symm other)
    rw [Reaper.next_of_unsignalled unsignalled] at after
    cases after
  · have next : reaper = .undoWaiting pid := here
    rw [next] at after
    cases after

theorem Right.finish (right : Right s) (before : s.reaper.unsignalled = none) :
    Right s.finish := by
  have moved := right.move .ended before rfl
  exact { moved with }

theorem Right.spawn (inv : s.Inv lang) (right : Right s) (spawning : s.reaper = .spawning) :
    Right ({ s.setProc s.born (forked lang) with
      born := s.born + 1, reaper := .spawned s.born } : State) where
  reached _ pid alive := by
    right
    left
    rw [State.setProc_procs] at alive
    by_cases this : pid = s.born
    · rw [this]
    · rw [Function.update_of_ne this] at alive
      exact absurd alive (inv.not_alive (by rw [spawning]; rfl) pid)
  undone := nofun
  gone after := by
    have ended := inv.done (inv.returned after)
    rw [spawning] at ended
    cases ended
  led := right.led

theorem Right.keeps {a : Action} (inv : s.Inv lang) (right : Right s)
    (kill : a ≠ .kill) (undo : a ≠ .undo) (taken : s.step lang a = some t) : Right t := by
  cases a with
  | kill => exact absurd rfl kill
  | undo => exact absurd rfl undo
  | setpgid pid =>
    obtain ⟨-, same⟩ := Option.ite_none_right_eq_some.mp taken
    cases same
    exact right.setProc id rfl
  | exit pid =>
    obtain ⟨-, same⟩ := Option.ite_none_right_eq_some.mp taken
    cases same
    exact right.setProc nofun rfl
  | stop =>
    obtain ⟨-, same⟩ := Option.ite_none_right_eq_some.mp taken
    cases same
    exact ⟨nofun, right.undone, nofun, right.led⟩
  | wake =>
    obtain ⟨⟨waiting, done⟩, same⟩ := Option.ite_none_right_eq_some.mp taken
    cases same
    refine ⟨fun _ => right.reached (.inl waiting), right.undone, fun _ pid => ?_, right.led⟩
    have none := inv.not_alive (by rw [inv.done done]; rfl) pid
    exact eq_false_of_ne_true none
  | start =>
    obtain ⟨starting, same⟩ := Option.ite_none_right_eq_some.mp taken
    cases same
    exact right.move _ (by rw [starting]; rfl) rfl
  | reap =>
    obtain ⟨pid, waiting, -, rfl⟩ := State.reap_eq_some taken
    have moved := right.move .collected (by rw [waiting]; rfl) rfl
    exact moved.setProc id rfl
  | check =>
    obtain ⟨collected, same⟩ := State.check_eq_some taken
    have before : s.reaper.unsignalled = none := by
      rw [collected]
      rfl
    obtain rfl | rfl := same
    · exact right.finish before
    · exact right.move _ before rfl
  | sawStop =>
    obtain ⟨⟨backoff, -⟩, same⟩ := Option.ite_none_right_eq_some.mp taken
    cases same
    exact right.finish (by rw [backoff]; rfl)
  | expired =>
    obtain ⟨⟨backoff, -⟩, same⟩ := Option.ite_none_right_eq_some.mp taken
    cases same
    exact right.move _ (by rw [backoff]; rfl) rfl
  | spawn =>
    obtain ⟨spawning, same⟩ := Option.ite_none_right_eq_some.mp taken
    cases same
    exact right.spawn inv spawning
  | spawnFailed =>
    obtain ⟨spawning, same⟩ := Option.ite_none_right_eq_some.mp taken
    cases same
    exact right.finish (by rw [spawning]; rfl)
  | adopt =>
    obtain ⟨pid, spawned, ⟨-, rfl⟩ | ⟨going, rfl⟩⟩ := State.adopt_eq_some taken
    · refine right.of rfl (fun _ alive => ⟨alive, rfl⟩) ?_ (fun _ here => ?_) rfl
      · rw [spawned]
        rfl
      · cases here
    · -- The control loop has not read `stop`.
      have serving : s.loop = .serving := by
        by_contra other
        exact going (inv.stopping other)
      refine ⟨fun after => ?_, nofun, fun after => ?_, right.led⟩
      · rw [serving] at after
        cases after with
        | inl here => cases here
        | inr here => cases here
      · rw [serving] at after
        cases after
  | undoReap =>
    obtain ⟨pid, waiting, -, rfl⟩ := State.undoReap_eq_some taken
    have done := right.finish (by rw [waiting]; rfl)
    exact done.setProc id rfl

/-- Which children the signal has reached. -/
theorem State.signal_reached (s : State) (pid other : ℕ) : ((s.signal pid).procs other).reached =
    ((s.procs other).reached ||
      decide (other = pid) && (s.procs pid).alive && (s.procs pid).leads) := by
  change (Function.update s.procs pid _ other).reached = _
  by_cases this : other = pid
  · subst this
    rw [Function.update_self, decide_eq_true rfl, Bool.true_and]
  · rw [Function.update_of_ne this, decide_eq_false this, Bool.false_and, Bool.false_and,
      Bool.or_false]

theorem State.signal_alive (s : State) (pid other : ℕ) :
    ((s.signal pid).procs other).alive = (s.procs other).alive := by
  change (Function.update s.procs pid _ other).alive = _
  by_cases this : other = pid
  · subst this
    rw [Function.update_self]
  · rw [Function.update_of_ne this]

theorem led_signal {pid : ℕ} (right : Right s) :
    (∀ kill ∈ (s.signal pid).kills, kill.2 = false) ↔ (s.procs pid).reaped = false := by
  change (∀ kill ∈ s.kills ++ [(pid, (s.procs pid).reaped)], kill.2 = false) ↔ _
  constructor
  · intro led
    exact led (pid, (s.procs pid).reaped) (List.mem_append_right _ (List.mem_singleton_self _))
  · intro unreaped kill sent
    cases List.mem_append.mp sent with
    | inl before => exact right.led kill before
    | inr now =>
      rw [List.mem_singleton.mp now]
      exact unreaped

/-- A child after the one that the control loop knows. -/
theorem State.Inv.reached_of_alive (inv : s.Inv lang) (right : Right s) {pid : ℕ}
    (alive : (s.procs pid).alive) (other : pid ≠ s.child) :
    (s.procs pid).reached ∨ s.reaper = .spawned pid ∨ s.reaper = .undoing pid := by
  have held := inv.held pid alive
  cases this : s.reaper with
  | starting =>
    rw [this] at held
    exact absurd (Option.some.inj held).symm other
  | waiting known =>
    rw [this] at held
    cases held
    exact absurd (inv.waiting pid this) other
  | spawned _ =>
    rw [this] at held
    cases held
    exact .inr (.inl rfl)
  | undoing _ =>
    rw [this] at held
    cases held
    exact .inr (.inr rfl)
  | undoWaiting _ =>
    rw [this] at held
    cases held
    exact .inl (right.undone pid this alive)
  | _ =>
    rw [this] at held
    cases held

/-- The stop branch signals the child that it has read. -/
theorem right_kill_iff (inv : s.Inv lang) (right : Right s) {child : ℕ}
    (killing : s.loop = .killing child) :
    Right ({ s.signal child with loop := .waiting } : State) ↔
      (s.procs child).reaped = false ∧
        (lang = .cpp → (s.procs child).alive → (s.procs child).leads) := by
  have known := inv.killing child killing
  have unreached := inv.before child (.inr killing)
  rw [← known] at unreached
  constructor
  · intro after
    refine ⟨(led_signal right).mp after.led, fun _ alive => ?_⟩
    have reached := after.reached (.inl rfl) child (by rw [State.signal_alive]; exact alive)
    rw [State.signal_reached, unreached, alive, decide_eq_true rfl, Bool.false_or, Bool.true_and,
      Bool.true_and] at reached
    cases reached with
    | inl leads => exact leads
    | inr other =>
      -- A child that the reaper is to signal is not the one that the loop has read.
      have later := (inv.next child
        (Reaper.next_of_unsignalled (Reaper.unsignalled_iff.mpr other))).1
      rw [known] at later
      exact absurd later (Nat.lt_irrefl _)
  · rintro ⟨unreaped, leads⟩
    refine ⟨fun _ pid alive => ?_, fun pid waiting alive => ?_, nofun,
      (led_signal right).mpr unreaped⟩
    · rw [State.signal_alive] at alive
      rw [State.signal_reached]
      by_cases this : pid = child
      · left
        subst this
        have leads : (s.procs pid).leads := by
          by_cases source : lang = .cpp
          · exact leads source alive
          · exact inv.leads source pid alive
        rw [alive, leads, decide_eq_true rfl]
        exact Bool.or_true _
      · rw [decide_eq_false this, Bool.false_and, Bool.false_and, Bool.or_false]
        exact inv.reached_of_alive right alive (by rwa [← known])
    · rw [State.signal_alive] at alive
      rw [State.signal_reached, right.undone pid waiting alive]
      rfl

/-- The reaper signals the child that it has just spawned. -/
theorem right_undo_iff (inv : s.Inv lang) (right : Right s) {pid : ℕ}
    (undoing : s.reaper = .undoing pid) :
    Right ({ s.signal pid with reaper := .undoWaiting pid } : State) ↔
      (lang = .cpp → (s.procs pid).alive → (s.procs pid).leads) := by
  have unreached := inv.unsignalled pid (by rw [undoing]; rfl)
  have unreaped := (inv.next pid (by rw [undoing]; rfl)).2.2
  constructor
  · intro after _ alive
    have reached := after.undone pid rfl (by rw [State.signal_alive]; exact alive)
    rwa [State.signal_reached, unreached, alive, decide_eq_true rfl, Bool.false_or, Bool.true_and,
      Bool.true_and] at reached
  · intro leads
    have reached (alive : (s.procs pid).alive) : ((s.signal pid).procs pid).reached := by
      have leads : (s.procs pid).leads := by
        by_cases source : lang = .cpp
        · exact leads source alive
        · exact inv.leads source pid alive
      rw [State.signal_reached, alive, leads, decide_eq_true rfl]
      exact Bool.or_true _
    refine ⟨fun _ other alive => .inl ?_, fun other waiting alive => ?_, fun after other => ?_,
      (led_signal right).mpr unreaped⟩
    · rw [State.signal_alive] at alive
      have held := inv.held other alive
      rw [undoing] at held
      cases held
      exact reached alive
    · cases waiting
      rw [State.signal_alive] at alive
      exact reached alive
    · rw [State.signal_alive]
      exact right.gone after other

theorem right_iff_aimed {a : Action} (inv : s.Inv lang) (right : Right s) :
    (∀ t, s.step lang a = some t → Right t) ↔ Aimed lang s a := by
  cases a with
  | kill =>
    constructor
    · intro after child killing
      apply (right_kill_iff inv right killing).mp
      apply after
      simp only [State.step, killing]
    · intro aimed t taken
      obtain ⟨child, killing, rfl⟩ := State.kill_eq_some taken
      exact (right_kill_iff inv right killing).mpr (aimed child killing)
  | undo =>
    constructor
    · intro after pid undoing
      apply (right_undo_iff inv right undoing).mp
      apply after
      simp only [State.step, undoing]
    · intro aimed t taken
      obtain ⟨pid, undoing, rfl⟩ := State.undo_eq_some taken
      exact (right_undo_iff inv right undoing).mpr (aimed pid undoing)
  | _ =>
    refine iff_of_true (fun t taken => right.keeps inv ?_ ?_ taken) trivial
    · exact nofun
    · exact nofun

theorem Right.init (lang : Language) : Right (supervise lang).init := by
  refine ⟨fun after => ?_, nofun, nofun, nofun⟩
  cases after with
  | inl here => cases here
  | inr here => cases here

/-- All states of a run are right exactly when its signals are aimed. -/
theorem stop_right_iff (lang : Language) (acts : List Action) :
    (supervise lang).Always Right (supervise lang).init acts ↔
      (supervise lang).Meets (Aimed lang) (supervise lang).init acts :=
  @Machine.always_iff_meets _ _ (supervise lang) (State.Inv lang) Right (Aimed lang)
    (fun _ _ _ inv taken => inv.keeps taken) (fun _ _ inv right => right_iff_aimed inv right) _
    (State.Inv.init lang) (Right.init lang) acts

/-- During the backoff the loop signals the group of a child that is gone, and a child of the C++
program that has yet to call `setpgid` misses the signal that the loop waits for. -/
theorem not_right_stop :
    (∃ s, (supervise .cpp).run? [.start, .exit 0, .reap, .check, .stop, .kill] = some s ∧
      ¬ Right s) ∧
    (∃ s, (supervise .rust).run? [.start, .exit 0, .reap, .check, .stop, .kill] = some s ∧
      ¬ Right s) ∧
    (∃ s, (supervise .go).run? [.start, .exit 0, .reap, .check, .stop, .kill] = some s ∧
      ¬ Right s) ∧
    ∃ s, (supervise .cpp).run? [.start, .stop, .kill, .setpgid 0] = some s ∧ ¬ Right s := by
  refine ⟨⟨_, rfl, fun right => ?_⟩, ⟨_, rfl, fun right => ?_⟩, ⟨_, rfl, fun right => ?_⟩,
    ⟨_, rfl, fun right => ?_⟩⟩
  · cases right.led (0, true) (by decide)
  · cases right.led (0, true) (by decide)
  · cases right.led (0, true) (by decide)
  · have reached := right.reached (.inl rfl) 0 rfl
    revert reached
    decide

end LinuxSys.Pmon.Stop
