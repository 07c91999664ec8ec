import LinuxSys.Language
import LinuxSys.Lib.Machine
import LinuxSys.Lib.Wrap

/-! # The supervisor of pmon ch12

One loop starts a child, restarts it after a doubling backoff when it fails, reloads on SIGHUP and
stops on SIGTERM and SIGINT. C++ reads one signal at a time from a signalfd, Rust drains a doorbell
and looks at its flags, and Go selects over channels, one of them fed by a goroutine that waits for
the child. Which of the signals that have come a pass finds is left open, as is whether a SIGCHLD
that it finds is stale.
-/

namespace LinuxSys.Supervise

open Lib

structure ChildExit where
  status : ℕ := 0
  signo : ℕ := 0
  signaled : Bool := false
deriving DecidableEq, Repr

def ChildExit.clean (ce : ChildExit) : Bool := !ce.signaled && ce.status == 0

/-- The numbers that `parse_supervise` accepts: `strtol` and `ParseInt` read 64 bits with a sign,
Rust reads a `u32` and a `u64`. -/
def Accepted : Language → ℕ → ℕ → Prop
  | .rust, maxRestarts, backoffMs => maxRestarts < 2 ^ 32 ∧ 1 ≤ backoffMs ∧ backoffMs < 2 ^ 64
  | _, maxRestarts, backoffMs => maxRestarts < 2 ^ 63 ∧ 1 ≤ backoffMs ∧ backoffMs < 2 ^ 63

/-- The options as they are typed. -/
structure SuperviseOpts (l : Language) where
  maxRestarts : ℕ := 5
  backoffMs : ℕ := 100
  accepted : Accepted l maxRestarts backoffMs

/-- `max_restarts` as it is stored: the C++ program keeps an `int`. -/
def SuperviseOpts.limit {l : Language} (opts : SuperviseOpts l) : ℤ :=
  match l with
  | .cpp => toSigned 32 opts.maxRestarts
  | _ => opts.maxRestarts

/-- The value that `backoff` holds, in milliseconds: a `long`, a `u64` or an `int64`. -/
def word : Language → ℤ → ℤ
  | .rust, ms => toUnsigned 64 ms
  | _, ms => toSigned 64 ms

/-- The end of a backoff that begins now, in nanoseconds. The timer of Go fires at once for a
duration that is not positive, and a `time.Duration` is 64 bits wide. -/
def deadlineOf (l : Language) (now : ℕ) (backoff : ℤ) : ℤ :=
  match l with
  | .cpp => toSigned 64 (now + backoff * 10 ^ 6)
  | .rust => now + backoff * 10 ^ 6
  | .go =>
    let d := toSigned 64 (backoff * 10 ^ 6)
    if d ≤ 0 then now else min (now + d) (2 ^ 63 - 1)

/-- The time at which a wait that begins now in a backoff ends by itself. `poll` takes an `int` of
milliseconds, and a negative one makes it wait for ever. -/
def expiryOf (l : Language) (now : ℕ) (deadline : ℤ) : Option ℤ :=
  match l with
  | .cpp =>
    let left := toSigned 64 (deadline - now)
    let timeout := if left ≤ 0 then 0 else toSigned 32 (toSigned 32 (left / 10 ^ 6) + 1)
    if timeout < 0 then none else some (now + timeout * 10 ^ 6)
  | .rust =>
    let left := max 0 (deadline - now)
    let timeout := if left = 0 then 0 else min (left / 10 ^ 6 + 1) 65535
    some (now + timeout * 10 ^ 6)
  | .go => some deadline

inductive Sig where
  | term
  | int
  | hup
deriving DecidableEq, Repr

/-- What `kill` answers. -/
inductive Kill where
  | ok
  | esrch
  | eperm
deriving DecidableEq, Repr

/-- Where the loop stands: before `start`, at its head, in `poll` or `select`, or in `stop_child`
for a signal. -/
inductive Phase where
  | starting (again : Bool)
  | head
  | polling (entered : ℕ) (expiry : Option ℤ)
  | stopping (why : Sig)
  | returned (code : ℕ)
deriving DecidableEq, Repr

/-- The restart `k` since the last reload: when the exit before it was handled, and when the child
was started. -/
structure Restart where
  k : ℕ
  handled : ℕ
  started : ℕ
deriving DecidableEq, Repr

/-- The children are numbered as they are started. The last fields record the past. -/
structure State where
  /-- The kernel's monotonic clock, in nanoseconds. -/
  clock : ℕ := 0
  phase : Phase := .starting false
  running : Bool := false
  spawned : ℕ := 0
  exits : ℕ → Option ChildExit := fun _ => none
  /-- The children that have not been waited for, dead or alive. -/
  unreaped : List ℕ := []
  waitCh : Option ChildExit := none
  restarts : ℕ := 0
  backoff : ℤ
  deadline : ℤ := 0
  reaped : List ℕ := []
  /-- When the last exit was handled. -/
  handled : ℕ := 0
  /-- How many times the child has been started again since the last reload. -/
  since : ℕ := 0
  gaveUp : Option ℕ := none
  log : List Restart := []

/-- What the loop and its surroundings do. In Go `chld` is the receive from the channel that `wait`
fills. -/
inductive Action where
  | pass (ns : ℕ)
  | exit (n : ℕ) (ce : ChildExit)
  | spawn (ok : Bool)
  | poll
  | interrupted
  | timeout
  | signal (sig : Sig) (kill : Kill)
  | chld
  | wait (n : ℕ)
  | reap
deriving DecidableEq, Repr

namespace State

variable {l : Language} (opts : SuperviseOpts l)

/-- What `waitpid` finds for a child. -/
def waitpid (s : State) (n : ℕ) : Option ChildExit := if n ∈ s.unreaped then s.exits n else none

def reap (s : State) (n : ℕ) : State :=
  { s with unreaped := s.unreaped.erase n, reaped := s.reaped ++ [n] }

/-- The exit of the present child that a pass of the loop can see: a `waitpid` with `WNOHANG`, or
the channel of the goroutine. -/
def seen (l : Language) (s : State) : Option ChildExit :=
  match l with
  | .go => s.waitCh
  | _ => if s.running then s.waitpid s.spawned else none

/-- The present child has been waited for. -/
def taken (l : Language) (s : State) : State :=
  match l with
  | .go => { s with waitCh := none }
  | _ => s.reap s.spawned

@[simp] theorem taken_clock (s : State) : (s.taken l).clock = s.clock := by cases l <;> rfl

@[simp] theorem taken_restarts (s : State) : (s.taken l).restarts = s.restarts := by
  cases l <;> rfl

@[simp] theorem taken_since (s : State) : (s.taken l).since = s.since := by cases l <;> rfl

def start (s : State) (again : Bool) : State :=
  { s with
    phase := .head
    running := true
    spawned := s.spawned + 1
    unreaped := s.unreaped ++ [s.spawned + 1]
    since := if again then s.since + 1 else s.since
    log := if again then s.log ++ [⟨s.since + 1, s.handled, s.clock⟩] else s.log }

/-- The present child has exited on its own. -/
def handle (s : State) (ce : ChildExit) : State :=
  if ce.clean then { s with phase := .returned 0 }
  else if opts.limit ≤ s.restarts then
    { s with phase := .returned 1, gaveUp := some s.since }
  else
    { s with
      phase := .head
      running := false
      restarts := s.restarts + 1
      backoff := word l (2 * s.backoff)
      deadline := deadlineOf l s.clock s.backoff
      handled := s.clock }

/-- What follows a signal once there is no child. -/
def stopped (s : State) : Sig → State
  | .hup =>
    { s with phase := .starting false, restarts := 0, since := 0, backoff := opts.backoffMs }
  | _ => { s with phase := .returned 0 }

/-- A signal that the loop has taken. If the child may not be killed, C++ goes on without waiting
for it, Rust fails, and Go waits all the same. -/
def signalled (s : State) (sig : Sig) (kill : Kill) : State :=
  if s.running then
    if kill = .eperm ∧ l = .cpp then s.stopped opts sig
    else if kill = .eperm ∧ l = .rust then { s with phase := .returned 1 }
    else { s with phase := .stopping sig }
  else s.stopped opts sig

def step (s : State) : Action → Option State
  | .pass ns => if s.clock + ns < 2 ^ 63 then some { s with clock := s.clock + ns } else none
  | .exit n ce =>
    if n ∈ s.unreaped ∧ s.exits n = none then
      some { s with exits := Function.update s.exits n (some ce) }
    else none
  | .spawn ok =>
    match s.phase with
    | .starting again => some (if ok then s.start again else { s with phase := .returned 1 })
    | _ => none
  | .poll =>
    match s.phase with
    | .head =>
      let expiry := if s.running then none else expiryOf l s.clock s.deadline
      some { s with phase := .polling s.clock expiry }
    | _ => none
  | .interrupted =>
    match s.phase with
    | .polling _ _ => if l = .go then none else some { s with phase := .head }
    | _ => none
  | .timeout =>
    match s.phase with
    | .polling _ (some t) =>
      if t ≤ s.clock then
        if l = .rust ∧ s.clock < s.deadline then some { s with phase := .head }
        else some { s with phase := .starting true }
      else none
    | _ => none
  | .signal sig kill =>
    match s.phase with
    | .polling _ _ => some (s.signalled opts sig kill)
    | _ => none
  | .chld =>
    match s.phase, s.seen l with
    | .polling _ _, some ce => some ((s.taken l).handle opts ce)
    | .polling _ _, none => if l = .go then none else some { s with phase := .head }
    | _, _ => none
  | .wait n =>
    match s.waitpid n, s.waitCh with
    | some ce, none => if l = .go then some { s.reap n with waitCh := some ce } else none
    | _, _ => none
  | .reap =>
    match s.phase, s.seen l with
    | .stopping sig, some _ => some ((s.taken l).stopped opts sig)
    | _, _ => none

end State

def supervise {l : Language} (opts : SuperviseOpts l) : Machine State Action where
  init := { backoff := opts.backoffMs }
  step := State.step opts

end LinuxSys.Supervise
