import LinuxSys.Language
import LinuxSys.Lib.Machine
import LinuxSys.Lib.Wrap

/-! # The two engines of pmon ch13

`cmd_supervise` restarts a child that fails, until a stop signal or the end of its window. One
engine polls a pidfd beside a signalfd with SIGINT and SIGTERM; the other takes SIGCHLD through the
signalfd too, and then asks whether the child has exited. In Go both wait in a `select`. What the
engines share is a supervisor whose wait is one step; an engine adds where it stands in its wait.
-/

namespace LinuxSys.Pidfd

open Lib

structure ChildStatus where
  exited : Bool
  value : ℕ
deriving DecidableEq, Repr

def Accepted : Language → ℕ → ℕ → Prop
  | .cpp, maxRestarts, timeoutMs => maxRestarts < 2 ^ 31 ∧ 1 ≤ timeoutMs ∧ timeoutMs < 2 ^ 31
  | .rust, maxRestarts, timeoutMs => maxRestarts < 2 ^ 32 ∧ 1 ≤ timeoutMs ∧ timeoutMs < 2 ^ 64
  | .go, maxRestarts, timeoutMs => maxRestarts < 2 ^ 63 ∧ 1 ≤ timeoutMs ∧ timeoutMs < 2 ^ 63

structure Opts (l : Language) where
  maxRestarts : ℕ := 3
  timeoutMs : ℕ := 10000
  accepted : Accepted l maxRestarts timeoutMs

/-- The end of the window, in nanoseconds from its beginning. A `time.Duration` is 64 bits wide, and
a negative one is over at once. -/
def Opts.deadline {l : Language} (opts : Opts l) : ℕ :=
  match l with
  | .go => (toSigned 64 (opts.timeoutMs * 10 ^ 6)).toNat
  | _ => opts.timeoutMs * 10 ^ 6

/-- When a `poll` that begins now ends by itself: C++ passes whole milliseconds, rounded down. -/
def Opts.expiry {l : Language} (opts : Opts l) (now : ℕ) : ℕ :=
  match l with
  | .cpp => now + (opts.deadline - now) / 10 ^ 6 * 10 ^ 6
  | _ => max now opts.deadline

/-- Nothing is left of the window, as far as the program can tell. -/
def Opts.Expired {l : Language} (opts : Opts l) (now : ℕ) : Prop := opts.expiry now ≤ now

inductive Stop where
  | signal
  | timeout
deriving DecidableEq, Repr

inductive Line where
  | exit (st : ChildStatus)
  | restart (k maxRestarts : ℕ)
  | givingUp (maxRestarts : ℕ)
  | exiting (why : Stop)
deriving DecidableEq, Repr

/-- What can be seen from outside: time, the child, the signals that are sent, and the report. -/
inductive Event where
  | passed (ns : ℕ)
  | died (st : ChildStatus)
  | stopSignal
  | started
  | sigterm
  | printed (line : Line)
  | left (code : ℕ)
deriving DecidableEq, Repr

/-- A child that is dead has not been waited for, or has been waited for but not yet reported. -/
inductive Child where
  | absent
  | alive
  | dead (st : ChildStatus)
deriving DecidableEq, Repr

def Child.isDead : Child → Bool
  | .dead _ => true
  | _ => false

inductive Phase where
  | starting
  | waiting
  | exited
  | leaving (why : Stop)
  | stopping (why : Stop)
  | returned (code : ℕ)
deriving DecidableEq, Repr

/-- The supervisor without the inside of its wait. -/
structure Sup where
  clock : ℕ := 0
  phase : Phase := .starting
  child : Child := .absent
  /-- A SIGINT or SIGTERM has come. -/
  stop : Bool := false
  restarts : ℕ := 0
  trace : List Event := []

/-- The steps outside a wait. -/
inductive Common where
  | pass (ns : ℕ)
  | die (st : ChildStatus)
  | signal
  | spawn (ok : Bool)
  | term
  | reap
  | report
deriving DecidableEq, Repr

namespace Sup

variable {l : Language} (opts : Opts l)

/-- `report_exit`, and what becomes of the supervisor. -/
def report (s : Sup) (st : ChildStatus) : Sup :=
  if st.exited && st.value == 0 then
    { s with phase := .returned 0, trace := s.trace ++ [.printed (.exit st), .left 0] }
  else if opts.maxRestarts ≤ s.restarts then
    { s with
      phase := .returned 1
      trace := s.trace ++
        [.printed (.exit st), .printed (.givingUp opts.maxRestarts), .left 1] }
  else
    { s with
      phase := .starting
      restarts := s.restarts + 1
      trace := s.trace ++
        [.printed (.exit st), .printed (.restart (s.restarts + 1) opts.maxRestarts)] }

def step (s : Sup) : Common → Option Sup
  | .pass ns => some { s with clock := s.clock + ns, trace := s.trace ++ [.passed ns] }
  | .die st =>
    if s.child = .alive then some { s with child := .dead st, trace := s.trace ++ [.died st] }
    else none
  | .signal => some { s with stop := true, trace := s.trace ++ [.stopSignal] }
  | .spawn ok =>
    if s.phase = .starting then
      if ok then
        some { s with phase := .waiting, child := .alive, trace := s.trace ++ [.started] }
      else some { s with phase := .returned 1, trace := s.trace ++ [.left 1] }
    else none
  | .term =>
    match s.phase with
    | .leaving why => some { s with phase := .stopping why, trace := s.trace ++ [.sigterm] }
    | _ => none
  | .reap =>
    match s.phase, s.child with
    | .stopping why, .dead st =>
      some { s with
        phase := .returned 0
        child := .absent
        trace := s.trace ++ [.printed (.exit st), .printed (.exiting why), .left 0] }
    | _, _ => none
  | .report =>
    match s.phase, s.child with
    | .exited, .dead st => some ({ s with child := .absent }.report opts st)
    | _, _ => none

/-- The environment's part of what has been seen. -/
def behaviour (s : Sup) : List Event :=
  s.trace.filter fun e => match e with
    | .passed _ | .died _ | .stopSignal => true
    | _ => false

/-- The program's part of what has been seen. -/
def reported (s : Sup) : List Event :=
  s.trace.filter fun e => match e with
    | .printed _ | .left _ => true
    | _ => false

end Sup

inductive Engine where
  | pidfd
  | sigchld
deriving DecidableEq, Repr

/-- Where an engine stands in its wait. -/
inductive Wait where
  | head
  | polling (expiry : ℕ)
  | woken
  | checking
deriving DecidableEq, Repr

structure State where
  sup : Sup := {}
  wait : Wait := .head
  /-- The notifications that have not been read: one bit, or in Go what a channel holds. -/
  chld : ℕ := 0
  /-- The goroutine that polls the pidfd has closed its channel. -/
  closed : Bool := false

/-- What a `select` may take. -/
inductive Case where
  | exited
  | chld
  | stop
  | deadline
deriving DecidableEq, Repr

/-- A step of the wait itself. -/
inductive Move where
  | poll
  | look
  | wake
  | read
  | check
  | close
  | pick (case : Case)
deriving DecidableEq, Repr

/-- A SIGCHLD comes for an exit. A stale one comes for something else, such as a child that has been
stopped or continued; two that have not been read may become one. A `poll` may be interrupted. -/
inductive Action where
  | common (c : Common)
  | interrupted
  | stale
  | coalesce
  | move (m : Move)
deriving DecidableEq, Repr

namespace State

variable {l : Language} (e : Engine) (opts : Opts l)

def setWait (s : State) (wait : Wait) : State := { s with wait := wait }

def setPhase (s : State) (phase : Phase) : State := { s with sup := { s.sup with phase := phase } }

@[simp] theorem setWait_wait (s : State) (wait : Wait) : (s.setWait wait).wait = wait := rfl

@[simp] theorem setWait_sup (s : State) (wait : Wait) : (s.setWait wait).sup = s.sup := rfl

@[simp] theorem setPhase_phase (s : State) (phase : Phase) :
    (s.setPhase phase).sup.phase = phase := rfl

/-- One more SIGCHLD is pending. -/
def notify (l : Language) (n : ℕ) : ℕ := if l = .go then n + 1 else 1

/-- What a step outside the wait does to the engine. The Go engine waits for the goroutine before
it reaps. -/
def after (l : Language) (s : State) (c : Common) (sup : Sup) : Option State :=
  match c with
  | .die _ => some { s with sup := sup, chld := notify l s.chld }
  | .spawn _ => some { s with sup := sup, wait := .head, closed := false }
  | .reap =>
    if l = .go ∧ e = .pidfd ∧ s.closed = false then none else some { s with sup := sup }
  | _ => some { s with sup := sup }

/-- `wait_pidfd`, `wait_sigchld` and the `select`s. -/
def move (s : State) : Move → Option State
  | .poll =>
    if l ≠ .go ∧ s.wait = .head then some (s.setWait (.polling (opts.expiry s.sup.clock)))
    else none
  | .look =>
    match e, s.wait with
    | .pidfd, .polling expiry =>
      if s.sup.stop then some (s.setPhase (.leaving .signal))
      else if s.sup.child.isDead then some (s.setPhase .exited)
      else if expiry ≤ s.sup.clock then some (s.setPhase (.leaving .timeout))
      else none
    | _, _ => none
  | .wake =>
    match e, s.wait with
    | .sigchld, .polling expiry =>
      if s.sup.stop ∨ 0 < s.chld then some (s.setWait .woken)
      else if expiry ≤ s.sup.clock then some (s.setPhase (.leaving .timeout))
      else none
    | _, _ => none
  | .read =>
    -- the signal with the lowest number is read first
    if s.wait = .woken then
      if s.sup.stop then some (s.setPhase (.leaving .signal))
      else some { s with wait := .checking, chld := s.chld - 1 }
    else none
  | .check =>
    if s.wait = .checking then
      if s.sup.child.isDead then some (s.setPhase .exited) else some (s.setWait .head)
    else none
  | .close =>
    if l = .go ∧ e = .pidfd ∧ s.sup.child.isDead then some { s with closed := true } else none
  | .pick case =>
    if l = .go ∧ s.wait = .head then
      match e, case with
      | .pidfd, .exited => if s.closed then some (s.setPhase .exited) else none
      | .sigchld, .chld =>
        if 0 < s.chld then some { s with wait := .checking, chld := s.chld - 1 } else none
      | _, .stop => if s.sup.stop then some (s.setPhase (.leaving .signal)) else none
      | _, .deadline =>
        if opts.deadline ≤ s.sup.clock then some (s.setPhase (.leaving .timeout)) else none
      | _, _ => none
    else none

def step (s : State) : Action → Option State
  | .common c => (s.sup.step opts c).bind (s.after e l c)
  | .interrupted =>
    match s.wait with
    | .polling _ => some (s.setWait .head)
    | _ => none
  | .stale => some { s with chld := notify l s.chld }
  | .coalesce => if 2 ≤ s.chld then some { s with chld := s.chld - 1 } else none
  | .move m => if s.sup.phase = .waiting ∨ m = .close then s.move e opts m else none

end State

def supervise {l : Language} (e : Engine) (opts : Opts l) : Machine State Action where
  init := {}
  step := State.step e opts

end LinuxSys.Pidfd
