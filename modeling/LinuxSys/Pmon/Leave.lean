import LinuxSys.Lib.Progress

/-! # How the supervisors of pmon ch13 and ch18 leave

`cmd_supervise` spawns a child, waits for it and restarts it. Every system call may fail. A stop
signal or the end of the window leads to a SIGTERM and a wait for the child; an error between the
spawn and the wait leads to a message and `return 1`. A call that blocks is one whose result has not
come. EINTR is an answer of its own, `failed` is any other error.
-/

namespace LinuxSys.Pmon.Leave

open Lib

/-- ch13 in C++, ch18 in C++ and in Go. -/
inductive Program where
  | pidfdCpp
  | captureCpp
  | captureGo
deriving DecidableEq, Repr

inductive Engine where
  | pidfd
  | sigchld
deriving DecidableEq, Repr

structure ChildStatus where
  exited : Bool
  value : ℕ
deriving DecidableEq, Repr

inductive Stop where
  | signal
  | timeout
deriving DecidableEq, Repr

/-- What is read from the signalfd. -/
inductive Signal where
  | chld
  | other
deriving DecidableEq, Repr

/-- A `waitid` or `wait4` that does not block. -/
inductive Probe where
  | running
  | status (st : ChildStatus)
  | failed
deriving DecidableEq, Repr

/-- What a `poll` finds ready, and how what it leads to goes: the pipes and the relay of what they
hold, the signalfd, the probe that SIGCHLD leads to, the pidfd. -/
structure Ready where
  out : Option Bool := none
  err : Option Bool := none
  signal : Option Signal := none
  probe : Probe := .running
  child : Bool := false
deriving DecidableEq, Repr

/-- What a `select` takes. -/
inductive Event where
  | line (ok : Bool)
  | closed
  | exited
  | chld (probe : Probe)
  | stop
deriving DecidableEq, Repr

inductive Answer where
  /-- `open`, `signalfd`, `pipe2`, `pidfd_open` -/
  | opened (ok : Bool)
  | spawned (pid : ℕ)
  | ready (r : Ready)
  | event (e : Event)
  | timeout
  | status (st : ChildStatus)
  | relayed (ok : Bool)
  | interrupted
  | failed
deriving DecidableEq, Repr

/-- What one turn of the wait comes to. -/
inductive Waited where
  | again
  | error
  | stop (why : Stop)
  | reap
  | exited (st : ChildStatus)
deriving DecidableEq, Repr

def probed : Probe → Waited
  | .running => .again
  | .status st => .exited st
  | .failed => .error

def waitPidfd (r : Ready) : Waited :=
  if r.signal.isSome then .stop .signal else if r.child then .reap else .again

/-- Whatever is not a SIGCHLD stops it, also nothing. -/
def waitSigchld (r : Ready) : Waited :=
  match r.signal with
  | some .chld => probed r.probe
  | _ => .stop .signal

/-- The pipes come first, then the signalfd and the pidfd. -/
def waitChild (engine : Engine) (r : Ready) : Waited :=
  if r.out = some false ∨ r.err = some false then .error
  else
    match r.signal with
    | some .other => .stop .signal
    | some .chld => probed r.probe
    | none => if engine = .pidfd ∧ r.child then .reap else .again

def select : Engine → Event → Option Waited
  | _, .line true => some .again
  | _, .line false => some .error
  | _, .closed => some .again
  | .pidfd, .exited => some .reap
  | .sigchld, .chld probe => some (probed probe)
  | _, .stop => some (.stop .signal)
  | _, _ => none

/-- A `poll` of the pidfd engine has no SIGCHLD in its signalfd, and ch13 has no pipes. -/
def Ready.Possible (p : Program) (engine : Engine) (r : Ready) : Prop :=
  p ≠ .captureGo ∧ (engine = .pidfd → r.signal ≠ some .chld) ∧
    (p = .pidfdCpp → r.out = none ∧ r.err = none)

instance (p : Program) (engine : Engine) (r : Ready) : Decidable (r.Possible p engine) :=
  inferInstanceAs (Decidable (_ ∧ _ ∧ _))

def waited (p : Program) (engine : Engine) : Answer → Option Waited
  | .timeout => some (.stop .timeout)
  | .interrupted => if p = .captureGo then none else some .again
  | .failed => if p = .captureGo then none else some .error
  | .ready r =>
    if r.Possible p engine then
      match p, engine with
      | .pidfdCpp, .pidfd => some (waitPidfd r)
      | .pidfdCpp, .sigchld => some (waitSigchld r)
      | _, _ => some (waitChild engine r)
    else none
  | .event e => if p = .captureGo then select engine e else none
  | _ => none

/-- `exiting` is the Go program's wait for the goroutine that polls the pidfd, `reaping` the wait
for the child that blocks. -/
inductive Phase where
  | log
  | signalfd
  | pipes
  | spawning
  | pidfdOpen (pid : ℕ)
  | waiting (pid : ℕ)
  | exiting (pid : ℕ) (why : Stop)
  | reaping (pid : ℕ) (why : Option Stop)
  | draining (st : ChildStatus) (why : Option Stop)
  | returned (code : ℕ)
deriving DecidableEq, Repr

/-- The children that were spawned and not waited for. -/
structure State where
  phase : Phase
  live : List ℕ := []
  restarts : ℕ := 0
deriving DecidableEq, Repr

section Step

variable (p : Program) (engine : Engine) (maxRestarts : ℕ)

/-- The head of the main loop. -/
def Program.head : Program → Phase
  | .pidfdCpp => .spawning
  | .captureCpp => .pipes
  | .captureGo => .pipes

/-- `report_exit`, and what becomes of the supervisor. -/
def State.report (s : State) (st : ChildStatus) (why : Option Stop) : State :=
  if why.isSome ∨ st.exited ∧ st.value = 0 then { s with phase := .returned 0 }
  else if maxRestarts ≤ s.restarts then { s with phase := .returned 1 }
  else { s with phase := p.head, restarts := s.restarts + 1 }

/-- The child has been waited for; ch18 reads the pipes to their end. -/
def State.reaped (s : State) (pid : ℕ) (st : ChildStatus) (why : Option Stop) : State :=
  if p = .pidfdCpp then { s with live := s.live.erase pid }.report p maxRestarts st why
  else { s with live := s.live.erase pid, phase := .draining st why }

def State.turn (s : State) (pid : ℕ) : Waited → State
  | .again => s
  | .error => { s with phase := .returned 1 }
  | .stop why =>
    if p = .captureGo ∧ engine = .pidfd then { s with phase := .exiting pid why }
    else { s with phase := .reaping pid (some why) }
  | .reap => { s with phase := .reaping pid none }
  | .exited st => s.reaped p maxRestarts pid st none

def State.orReturn (s : State) (ok : Bool) (next : Phase) : State :=
  { s with phase := if ok then next else .returned 1 }

def step (s : State) (a : Answer) : Option State :=
  match s.phase, a with
  | .log, .opened ok =>
    some (s.orReturn ok (if p = .captureGo then p.head else .signalfd))
  | .signalfd, .opened ok => some (s.orReturn ok p.head)
  | .pipes, .opened ok => some (s.orReturn ok .spawning)
  | .spawning, .spawned pid =>
    some { s with
      phase := if engine = .pidfd then .pidfdOpen pid else .waiting pid
      live := pid :: s.live }
  | .spawning, .failed => some { s with phase := .returned 1 }
  | .pidfdOpen pid, .opened ok => some (s.orReturn ok (.waiting pid))
  | .waiting pid, a => (waited p engine a).map (s.turn p engine maxRestarts pid)
  | .exiting pid why, .event .exited => some { s with phase := .reaping pid (some why) }
  | .reaping pid why, .status st => some (s.reaped p maxRestarts pid st why)
  | .reaping _ _, .interrupted => some s
  | .reaping _ _, .failed => some { s with phase := .returned 1 }
  | .draining st why, .relayed ok =>
    if ok then some (s.report p maxRestarts st why) else some { s with phase := .returned 1 }
  | _, _ => none

def program : Machine State Answer where
  init := { phase := if p = .pidfdCpp then .signalfd else .log }
  step := step p engine maxRestarts

end Step

/-- When the program has returned, every child was waited for. -/
def Clean (s : State) : Prop := ∀ code, s.phase = .returned code → s.live = []

instance (s : State) : Decidable (Clean s) :=
  match same : s.phase with
  | .returned code =>
    decidable_of_iff (s.live = [])
      ⟨fun none _ _ => none, fun clean => clean code same⟩
  | .log | .signalfd | .pipes | .spawning | .pidfdOpen _ | .waiting _ | .exiting _ _
  | .reaping _ _ | .draining _ _ => isTrue fun code other => by rw [same] at other; cases other

/-- The relay of a pipe, or the probe. -/
def Ready.fails (r : Ready) : Prop :=
  r.out = some false ∨ r.err = some false ∨ (r.signal = some .chld ∧ r.probe = .failed)

/-- A call has failed for good: what opens, what waits, what writes the log. -/
def Answer.fails : Answer → Prop
  | .opened ok => ok = false
  | .ready r => r.fails
  | .event (.line ok) => ok = false
  | .event (.chld probe) => probe = .failed
  | .failed => True
  | _ => False

/-- No call fails for good while there is a child that was not waited for. -/
def Fine (s : State) (a : Answer) : Prop := s.live ≠ [] → ¬ a.fails

/-- The child that a phase is about. -/
def Phase.child : Phase → List ℕ
  | .pidfdOpen pid | .waiting pid | .exiting pid _ | .reaping pid _ => [pid]
  | .log | .signalfd | .pipes | .spawning | .draining _ _ | .returned _ => []

/-- Until the program returns, its phase tells which child there is. -/
def State.Inv (s : State) : Prop := (∀ code, s.phase ≠ .returned code) → s.live = s.phase.child

section Leave

variable {p : Program} {engine : Engine} {maxRestarts : ℕ} {s t : State} {a : Answer}

theorem State.Inv.live (inv : s.Inv) {phase : Phase} (here : s.phase = phase)
    (other : ∀ code, phase ≠ .returned code) : s.live = phase.child := by
  subst here
  exact inv other

def Phase.Leaves : Phase → Prop
  | .exiting _ _ | .reaping _ (some _) | .draining _ (some _) | .returned _ => True
  | _ => False

def State.Leaves (s : State) : Prop := s.phase.Leaves

/-- The answers that are still to come. -/
def Phase.left : Phase → ℕ
  | .exiting _ _ => 3
  | .reaping _ _ => 2
  | .draining _ _ => 1
  | _ => 0

def Answer.counts (a : Answer) : Bool := a ≠ .interrupted

end Leave

end LinuxSys.Pmon.Leave
