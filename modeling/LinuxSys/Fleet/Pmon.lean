import LinuxSys.Lib.Machine
import Mathlib.Data.Finset.Basic

/-! # The supervisors and the signal thread of pmon

One supervisor thread for each service forks a child, stores its pid, waits for it and restarts it
after a backoff; the signal thread waits for SIGTERM or SIGINT, sets `shutting_down` and sends
SIGTERM to every stored pid. Each fork, wait, sleep, kill, atomic load and store is one step, in
any order. The kernel's process table says what a pid refers to at any moment: a child from its
fork until `waitpid` collects it, and afterwards whatever process the number is given to.
-/

namespace LinuxSys.Fleet.Pmon

open Lib

inductive Service where
  | chatterd
  | sysagent
  | fwatch
deriving DecidableEq, Repr

def services : List Service := [.chatterd, .sysagent, .fwatch]

/-- `ChildState::state`, as `print_health` shows it. -/
inductive Health where
  | starting
  | up
  | restarting
  | down
deriving DecidableEq, Repr

/-- Where `run_child_supervisor` stands: what it does next, with the pid of the child it has. -/
inductive Phase where
  | starting
  | forked (pid : ℕ)
  | published (pid : ℕ)
  | waiting (pid : ℕ)
  | reaped
  | stopping
  | returned
  | counting
  | marking
  | sleeping
deriving DecidableEq, Repr

/-- The signal thread: before the signal, before the store of the flag, with the services still to
be visited, and between the load of a pid and the `kill`. -/
inductive Signal where
  | waiting
  | raised
  | forwarding (todo : List Service)
  | loaded (service : Service) (pid : ℕ) (todo : List Service)
deriving DecidableEq, Repr

/-- What a pid refers to. A child that exited stays until it is reaped. -/
inductive Proc where
  | child (service : Service) (running termed : Bool)
  | stranger
deriving DecidableEq, Repr

structure State where
  phase : Service → Phase := fun _ => .starting
  pid : Service → ℕ := fun _ => 0
  health : Service → Health := fun _ => .starting
  restarts : Service → ℕ := fun _ => 0
  shuttingDown : Bool := false
  signal : Signal := .waiting
  proc : ℕ → Option Proc := fun _ => none
  /-- Each `kill` so far: the pid and what it referred to. -/
  kills : List (ℕ × Option Proc) := []

inductive Action where
  | fork (i : Service) (pid : ℕ)
  | forkError (i : Service)
  | storePid (i : Service)
  | storeUp (i : Service)
  | waitpid (i : Service)
  | check (i : Service)
  | storeDown (i : Service)
  | count (i : Service)
  | storeRestarting (i : Service)
  | wake (i : Service)
  | sigwait
  | storeFlag
  | load (i : Service)
  | kill
  | exit (pid : ℕ)
  | recycle (pid : ℕ)
deriving DecidableEq, Repr

namespace State

def setPhase (s : State) (i : Service) (phase : Phase) : State :=
  { s with phase := Function.update s.phase i phase }

def setProc (s : State) (pid : ℕ) (proc : Option Proc) : State :=
  { s with proc := Function.update s.proc pid proc }

end State

/-- SIGTERM is delivered to whatever the pid refers to. -/
def Proc.term : Proc → Proc
  | .child i running _ => .child i running true
  | .stranger => .stranger

def step (s : State) : Action → Option State
  | .fork i pid =>
    if s.phase i = .starting ∧ 0 < pid ∧ s.proc pid = none then
      some ((s.setProc pid (some (.child i true false))).setPhase i (.forked pid))
    else none
  | .forkError i => if s.phase i = .starting then some (s.setPhase i .sleeping) else none
  | .storePid i =>
    match s.phase i with
    | .forked pid =>
      some { s.setPhase i (.published pid) with pid := Function.update s.pid i pid }
    | _ => none
  | .storeUp i =>
    match s.phase i with
    | .published pid =>
      some { s.setPhase i (.waiting pid) with health := Function.update s.health i .up }
    | _ => none
  | .waitpid i =>
    match s.phase i with
    | .waiting pid =>
      match s.proc pid with
      | some (.child _ false _) => some ((s.setProc pid none).setPhase i .reaped)
      | _ => none
    | _ => none
  | .check i =>
    if s.phase i = .reaped then
      some (s.setPhase i (if s.shuttingDown then .stopping else .counting))
    else none
  | .storeDown i =>
    if s.phase i = .stopping then
      some { s.setPhase i .returned with health := Function.update s.health i .down }
    else none
  | .count i =>
    if s.phase i = .counting then
      some { s.setPhase i .marking with
        restarts := Function.update s.restarts i (s.restarts i + 1) }
    else none
  | .storeRestarting i =>
    if s.phase i = .marking then
      some { s.setPhase i .sleeping with health := Function.update s.health i .restarting }
    else none
  | .wake i => if s.phase i = .sleeping then some (s.setPhase i .starting) else none
  | .sigwait => if s.signal = .waiting then some { s with signal := .raised } else none
  | .storeFlag =>
    if s.signal = .raised then
      some { s with shuttingDown := true, signal := .forwarding services }
    else none
  | .load i =>
    match s.signal with
    | .forwarding todo =>
      if i ∈ todo then some { s with signal := .loaded i (s.pid i) (todo.filter (· ≠ i)) } else none
    | _ => none
  | .kill =>
    match s.signal with
    | .loaded _ pid todo =>
      if 0 < pid then
        some { s.setProc pid ((s.proc pid).map Proc.term) with
          signal := .forwarding todo, kills := s.kills ++ [(pid, s.proc pid)] }
      else some { s with signal := .forwarding todo }
    | _ => none
  | .exit pid =>
    match s.proc pid with
    | some (.child i true termed) => some (s.setProc pid (some (.child i false termed)))
    | some .stranger => some (s.setProc pid none)
    | _ => none
  | .recycle pid =>
    if 0 < pid ∧ s.proc pid = none then some (s.setProc pid (some .stranger)) else none

def pmon : Machine State Action where
  init := {}
  step := step

/-- What each action does to the state, and when it is enabled. -/
inductive Effect (s : State) : Action → State → Prop
  | fork {i : Service} {pid : ℕ} : s.phase i = .starting → 0 < pid → s.proc pid = none →
      Effect s (.fork i pid) ((s.setProc pid (some (.child i true false))).setPhase i (.forked pid))
  | forkError {i : Service} : s.phase i = .starting →
      Effect s (.forkError i) (s.setPhase i .sleeping)
  | storePid {i : Service} {pid : ℕ} : s.phase i = .forked pid →
      Effect s (.storePid i)
        { s.setPhase i (.published pid) with pid := Function.update s.pid i pid }
  | storeUp {i : Service} {pid : ℕ} : s.phase i = .published pid →
      Effect s (.storeUp i)
        { s.setPhase i (.waiting pid) with health := Function.update s.health i .up }
  | waitpid {i : Service} {pid : ℕ} : s.phase i = .waiting pid →
      Effect s (.waitpid i) ((s.setProc pid none).setPhase i .reaped)
  | check {i : Service} : s.phase i = .reaped →
      Effect s (.check i) (s.setPhase i (if s.shuttingDown then .stopping else .counting))
  | storeDown {i : Service} : s.phase i = .stopping →
      Effect s (.storeDown i)
        { s.setPhase i .returned with health := Function.update s.health i .down }
  | count {i : Service} : s.phase i = .counting →
      Effect s (.count i)
        { s.setPhase i .marking with restarts := Function.update s.restarts i (s.restarts i + 1) }
  | storeRestarting {i : Service} : s.phase i = .marking →
      Effect s (.storeRestarting i)
        { s.setPhase i .sleeping with health := Function.update s.health i .restarting }
  | wake {i : Service} : s.phase i = .sleeping → Effect s (.wake i) (s.setPhase i .starting)
  | sigwait : s.signal = .waiting → Effect s .sigwait { s with signal := .raised }
  | storeFlag : s.signal = .raised →
      Effect s .storeFlag { s with shuttingDown := true, signal := .forwarding services }
  | load {i : Service} {todo : List Service} : s.signal = .forwarding todo →
      Effect s (.load i) { s with signal := .loaded i (s.pid i) (todo.filter (· ≠ i)) }
  | kill {i : Service} {pid : ℕ} {todo : List Service} : s.signal = .loaded i pid todo →
      0 < pid →
      Effect s .kill { s.setProc pid ((s.proc pid).map Proc.term) with
        signal := .forwarding todo, kills := s.kills ++ [(pid, s.proc pid)] }
  | skip {i : Service} {todo : List Service} : s.signal = .loaded i 0 todo →
      Effect s .kill { s with signal := .forwarding todo }
  | exit {i : Service} {pid : ℕ} {termed : Bool} : s.proc pid = some (.child i true termed) →
      Effect s (.exit pid) (s.setProc pid (some (.child i false termed)))
  | exitStranger {pid : ℕ} : s.proc pid = some .stranger →
      Effect s (.exit pid) (s.setProc pid none)
  | recycle {pid : ℕ} : s.proc pid = none →
      Effect s (.recycle pid) (s.setProc pid (some .stranger))

theorem effect_of_step {s t : State} {a : Action} (taken : step s a = some t) : Effect s a t := by
  cases a <;> simp only [step] at taken
  case fork i pid =>
    split_ifs at taken with ready
    cases taken
    exact .fork ready.1 ready.2.1 ready.2.2
  case forkError i =>
    split_ifs at taken with starting
    cases taken
    exact .forkError starting
  case storePid i =>
    split at taken
    · next pid forked =>
      cases taken
      exact .storePid forked
    · cases taken
  case storeUp i =>
    split at taken
    · next pid published =>
      cases taken
      exact .storeUp published
    · cases taken
  case waitpid i =>
    split at taken
    · next pid waiting =>
      split at taken
      · cases taken
        exact .waitpid waiting
      · cases taken
    · cases taken
  case check i =>
    split at taken
    · next reaped =>
      cases taken
      exact .check reaped
    · cases taken
  case storeDown i =>
    split_ifs at taken with stopping
    cases taken
    exact .storeDown stopping
  case count i =>
    split_ifs at taken with counting
    cases taken
    exact .count counting
  case storeRestarting i =>
    split_ifs at taken with marking
    cases taken
    exact .storeRestarting marking
  case wake i =>
    split_ifs at taken with sleeping
    cases taken
    exact .wake sleeping
  case sigwait =>
    split_ifs at taken with waiting
    cases taken
    exact .sigwait waiting
  case storeFlag =>
    split_ifs at taken with raised
    cases taken
    exact .storeFlag raised
  case load i =>
    split at taken
    · next todo forwarding =>
      split_ifs at taken
      cases taken
      exact .load forwarding
    · cases taken
  case kill =>
    split at taken
    · next i pid todo loaded =>
      split_ifs at taken with positive
      · cases taken
        exact .kill loaded positive
      · cases taken
        have zero : pid = 0 := by omega
        rw [zero] at loaded
        exact .skip loaded
    · cases taken
  case exit pid =>
    split at taken
    · next i termed running =>
      cases taken
      exact .exit running
    · next stranger =>
      cases taken
      exact .exitStranger stranger
    · cases taken
  case recycle pid =>
    split_ifs at taken with free
    cases taken
    exact .recycle free.2

/-- The child a supervisor has forked and not collected. -/
def Phase.holds : Phase → Option ℕ
  | .forked pid => some pid
  | .published pid => some pid
  | .waiting pid => some pid
  | _ => none

/-- The child whose pid a supervisor has stored and that it has not collected. -/
def Phase.stored : Phase → Option ℕ
  | .published pid => some pid
  | .waiting pid => some pid
  | _ => none

/-- A supervisor that forks no child before it tests `shutting_down` again. -/
def Phase.covered : Phase → Bool
  | .published _ => true
  | .waiting _ => true
  | .reaped => true
  | .stopping => true
  | .returned => true
  | _ => false

theorem Proc.term_eq_child {p : Proc} {i : Service} {r e : Bool} (same : p.term = .child i r e) :
    e = true ∧ ∃ before, p = .child i r before := by
  cases p with
  | child j running termed =>
    cases same
    exact ⟨rfl, termed, rfl⟩
  | stranger => cases same

/-- A signal makes no process another service's child. -/
theorem Proc.child_map_term_iff {p : Option Proc} {i : Service} :
    (∃ r e, p.map Proc.term = some (.child i r e)) ↔ ∃ r e, p = some (.child i r e) := by
  constructor
  · rintro ⟨r, e, termed⟩
    obtain ⟨before, rfl, same⟩ := Option.map_eq_some_iff.mp termed
    obtain ⟨-, e', rfl⟩ := Proc.term_eq_child same
    exact ⟨r, e', rfl⟩
  · rintro ⟨r, e, rfl⟩
    exact ⟨r, true, rfl⟩

/-- The process table agrees with the supervisors. -/
structure Tracked (s : State) : Prop where
  child : ∀ i p r t, s.proc p = some (.child i r t) → (s.phase i).holds = some p
  positive : ∀ i p r t, s.proc p = some (.child i r t) → 0 < p
  held : ∀ i p, (s.phase i).holds = some p → ∃ r t, s.proc p = some (.child i r t)
  pid : ∀ i p, (s.phase i).stored = some p → s.pid i = p

namespace Tracked

variable {s : State}

theorem init : Tracked {} := by
  constructor <;> simp [Phase.holds, Phase.stored]

/-- A supervisor's step that neither forks nor collects a child. -/
theorem of_phase (inv : Tracked s) {t : State} {i : Service} {p : Phase}
    (phase : t.phase = Function.update s.phase i p) (proc : t.proc = s.proc)
    (same : p.holds = (s.phase i).holds) (stored : ∀ q, p.stored = some q → t.pid i = q)
    (others : ∀ j, j ≠ i → t.pid j = s.pid j) : Tracked t := by
  have holds : ∀ j, (t.phase j).holds = (s.phase j).holds := by
    intro j
    rw [phase, Function.update_apply]
    split
    · next equal => rw [equal, same]
    · rfl
  constructor
  · intro j q r e entry
    rw [proc] at entry
    rw [holds]
    exact inv.child j q r e entry
  · rw [proc]
    exact inv.positive
  · intro j q has
    rw [holds] at has
    rw [proc]
    exact inv.held j q has
  · intro j q has
    by_cases equal : j = i
    · rw [equal, phase, Function.update_self] at has
      rw [equal]
      exact stored q has
    · rw [phase, Function.update_of_ne equal] at has
      rw [others j equal]
      exact inv.pid j q has

/-- A step between phases in which the supervisor has no child. -/
theorem of_childless (inv : Tracked s) {t : State} {i : Service} {p : Phase}
    (phase : t.phase = Function.update s.phase i p) (proc : t.proc = s.proc)
    (pid : t.pid = s.pid) (before : (s.phase i).holds = none) (after : p.holds = none)
    (unstored : p.stored = none) : Tracked t := by
  apply inv.of_phase phase proc
  · rw [before, after]
  · intro q stored
    rw [unstored] at stored
    cases stored
  · intro j _
    rw [pid]

/-- A step of a process that stays what it was to the supervisors. -/
theorem of_proc (inv : Tracked s) {t : State} {p : ℕ} {entry : Option Proc}
    (phase : t.phase = s.phase) (pid : t.pid = s.pid)
    (proc : t.proc = Function.update s.proc p entry)
    (owner : ∀ i, (∃ r e, entry = some (.child i r e)) ↔
      ∃ r e, s.proc p = some (.child i r e)) : Tracked t := by
  have owned : ∀ i q, (∃ r e, t.proc q = some (.child i r e)) ↔
      ∃ r e, s.proc q = some (.child i r e) := by
    intro i q
    rw [proc, Function.update_apply]
    split
    · next same =>
      rw [same]
      exact owner i
    · rfl
  constructor
  · intro i q r e now
    obtain ⟨r', e', before⟩ := (owned i q).mp ⟨r, e, now⟩
    rw [phase]
    exact inv.child i q r' e' before
  · intro i q r e now
    obtain ⟨r', e', before⟩ := (owned i q).mp ⟨r, e, now⟩
    exact inv.positive i q r' e' before
  · intro i q holds
    rw [phase] at holds
    exact (owned i q).mpr (inv.held i q holds)
  · rw [phase, pid]
    exact inv.pid

theorem forked (inv : Tracked s) {i : Service} {pid : ℕ} (starting : s.phase i = .starting)
    (positive : 0 < pid) (free : s.proc pid = none) :
    Tracked ((s.setProc pid (some (.child i true false))).setPhase i (.forked pid)) := by
  have phases : ∀ j, ((s.setProc pid (some (.child i true false))).setPhase i
      (.forked pid)).phase j = if j = i then .forked pid else s.phase j := fun j =>
    Function.update_apply ..
  have procs : ∀ p, ((s.setProc pid (some (.child i true false))).setPhase i
      (.forked pid)).proc p = if p = pid then some (.child i true false) else s.proc p := fun p =>
    Function.update_apply ..
  constructor
  · intro j p r e entry
    rw [procs] at entry
    rw [phases]
    split at entry
    · next same =>
      cases entry
      rw [if_pos rfl, same]
      rfl
    · have held := inv.child j p r e entry
      rw [if_neg]
      · exact held
      · rintro rfl
        rw [starting] at held
        cases held
  · intro j p r e entry
    rw [procs] at entry
    split at entry
    · next same =>
      rw [same]
      exact positive
    · exact inv.positive j p r e entry
  · intro j p holds
    rw [phases] at holds
    split at holds
    · next same =>
      cases holds
      rw [procs, if_pos rfl, same]
      exact ⟨true, false, rfl⟩
    · obtain ⟨r, e, entry⟩ := inv.held j p holds
      refine ⟨r, e, ?_⟩
      rw [procs, if_neg, entry]
      rintro rfl
      rw [free] at entry
      cases entry
  · intro j p stored
    rw [phases] at stored
    split at stored
    · cases stored
    · exact inv.pid j p stored

theorem reaped (inv : Tracked s) {i : Service} {pid : ℕ} (waiting : s.phase i = .waiting pid) :
    Tracked ((s.setProc pid none).setPhase i .reaped) := by
  have phases : ∀ j, ((s.setProc pid none).setPhase i .reaped).phase j =
      if j = i then .reaped else s.phase j := fun j => Function.update_apply ..
  have procs : ∀ p, ((s.setProc pid none).setPhase i .reaped).proc p =
      if p = pid then none else s.proc p := fun p => Function.update_apply ..
  have own : (s.phase i).holds = some pid := by
    rw [waiting]
    rfl
  constructor
  · intro j p r e entry
    rw [procs] at entry
    split at entry
    · cases entry
    · next different =>
      have held := inv.child j p r e entry
      rw [phases, if_neg]
      · exact held
      · rintro rfl
        rw [own] at held
        exact different (Option.some.inj held).symm
  · intro j p r e entry
    rw [procs] at entry
    split at entry
    · cases entry
    · exact inv.positive j p r e entry
  · intro j p holds
    rw [phases] at holds
    split at holds
    · cases holds
    · next different =>
      obtain ⟨r, e, entry⟩ := inv.held j p holds
      refine ⟨r, e, ?_⟩
      rw [procs, if_neg, entry]
      -- the collected pid was this supervisor's child and nobody else's
      rintro rfl
      obtain ⟨r', e', mine⟩ := inv.held i p own
      rw [entry] at mine
      cases mine
      exact different rfl
  · intro j p stored
    rw [phases] at stored
    split at stored
    · cases stored
    · exact inv.pid j p stored

theorem keeps (inv : Tracked s) {a : Action} {t : State} (taken : step s a = some t) :
    Tracked t := by
  cases effect_of_step taken with
  | fork starting positive free => exact inv.forked starting positive free
  | forkError starting =>
    exact inv.of_childless rfl rfl rfl (by rw [starting]; rfl) rfl rfl
  | @storePid i pid forked =>
    refine inv.of_phase rfl rfl ?_ ?_ ?_
    · rw [forked]
      rfl
    · intro q stored
      cases stored
      exact Function.update_self ..
    · intro j other
      exact Function.update_of_ne other _ _
  | @storeUp i pid published =>
    refine inv.of_phase rfl rfl (by rw [published]; rfl) (fun q stored => ?_) fun _ _ => rfl
    apply inv.pid i q
    rw [published]
    exact stored
  | waitpid waiting => exact inv.reaped waiting
  | check reaped =>
    split
    · exact inv.of_childless rfl rfl rfl (by rw [reaped]; rfl) rfl rfl
    · exact inv.of_childless rfl rfl rfl (by rw [reaped]; rfl) rfl rfl
  | storeDown stopping =>
    exact inv.of_childless rfl rfl rfl (by rw [stopping]; rfl) rfl rfl
  | count counting =>
    exact inv.of_childless rfl rfl rfl (by rw [counting]; rfl) rfl rfl
  | storeRestarting marking =>
    exact inv.of_childless rfl rfl rfl (by rw [marking]; rfl) rfl rfl
  | wake sleeping =>
    exact inv.of_childless rfl rfl rfl (by rw [sleeping]; rfl) rfl rfl
  | sigwait => exact ⟨inv.child, inv.positive, inv.held, inv.pid⟩
  | storeFlag => exact ⟨inv.child, inv.positive, inv.held, inv.pid⟩
  | load => exact ⟨inv.child, inv.positive, inv.held, inv.pid⟩
  | kill => exact inv.of_proc rfl rfl rfl fun i => Proc.child_map_term_iff
  | skip => exact ⟨inv.child, inv.positive, inv.held, inv.pid⟩
  | exit running => exact inv.of_proc rfl rfl rfl fun i => by simp [running]
  | exitStranger stranger => exact inv.of_proc rfl rfl rfl fun i => by simp [stranger]
  | recycle free => exact inv.of_proc rfl rfl rfl fun i => by simp [free]

end Tracked

end LinuxSys.Fleet.Pmon
