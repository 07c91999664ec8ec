import LinuxSys.Lib.Machine
import LinuxSys.Pmon.Capture

/-! # Which pipes the supervisor of pmon ch18 reads

The supervisor reads the child's output in the loop that waits for its exit. After a stop it signals
the child and waits for it; when it has the exit status it reads the pipes to their end, the C++ and
Rust programs stdout first. The Go program's scanners read on beside it, until they cannot hand over
a line or have given up on one. A descendant may hold the pipes when the child is gone.
-/

namespace LinuxSys.Pmon.Drain

open Lib App

inductive Pipe where
  | out
  | err
deriving DecidableEq, Repr

instance Pipe.decidableForall {P : Pipe → Prop} [∀ p, Decidable (P p)] : Decidable (∀ p, P p) :=
  decidable_of_iff (P .out ∧ P .err)
    ⟨fun both p => match p with | .out => both.1 | .err => both.2,
      fun all => ⟨all .out, all .err⟩⟩

/-- The child, or a descendant: it catches or ignores SIGTERM; the write ends that it holds; what a
`write` that has not returned has left. -/
structure Proc where
  alive : Bool := true
  catches : Bool := false
  out : Bool := true
  err : Bool := true
  write : Option (Pipe × Bytes) := none
deriving DecidableEq, Repr

/-- The read end of a pipe. In Go `buf` and `hand` are the scanner's: it has a line to hand over; in
C++ and Rust they stay as they are. -/
structure Side where
  data : Bytes := []
  eof : Bool := false
  buf : Bytes := []
  hand : Bool := false
  tooLong : Bool := false
deriving DecidableEq, Repr

inductive Phase where
  | serving
  | reaping
  | drainOut
  | drainErr
  | draining
  | ended
deriving DecidableEq, Repr

/-- The first process is the child. `queue` counts the lines in the Go program's channel. -/
structure State where
  procs : List Proc := [{}]
  out : Side := {}
  err : Side := {}
  queue : ℕ := 0
  phase : Phase := .serving
deriving DecidableEq, Repr

/-- The processes' steps, the readers', the supervisor's. -/
inductive Action where
  | fork (pid : ℕ)
  | close (pid : ℕ) (p : Pipe)
  | trap (pid : ℕ) (catches : Bool)
  | write (pid : ℕ) (p : Pipe) (bytes : Bytes)
  | put (pid n : ℕ)
  | interrupt (pid : ℕ)
  | exit (pid : ℕ)
  | read (p : Pipe) (n : ℕ)
  | eof (p : Pipe)
  | line (p : Pipe)
  | tooLong (p : Pipe)
  | send (p : Pipe)
  | receive
  | stop
  | collect
  | next
  | restart
deriving DecidableEq, Repr

namespace Proc

def holds (q : Proc) : Pipe → Bool
  | .out => q.alive && q.out
  | .err => q.alive && q.err

def close (q : Proc) : Pipe → Proc
  | .out => { q with out := false }
  | .err => { q with err := false }

def exit (q : Proc) : Proc := { q with alive := false, write := none }

/-- `n` bytes have gone into the pipe. -/
def put (n : ℕ) (q : Proc) : Proc :=
  match q.write with
  | some (p, bytes) => { q with write := if n < bytes.length then some (p, bytes.drop n) else none }
  | none => q

/-- How many bytes it has left to write. -/
def rest (p : Pipe) (q : Proc) : ℕ :=
  match q.write with
  | some (other, bytes) => if other = p then bytes.length else 0
  | none => 0

end Proc

/-- The capacity of `lines`. -/
def linesCap : ℕ := 64

namespace State

def side (s : State) : Pipe → Side
  | .out => s.out
  | .err => s.err

def setSide (s : State) (p : Pipe) (side : Side) : State :=
  match p with
  | .out => { s with out := side }
  | .err => { s with err := side }

def setProc (s : State) (pid : ℕ) (q : Proc) : State := { s with procs := s.procs.set pid q }

def childAlive (s : State) : Bool := (s.procs.head?.map (·.alive)).getD false

/-- Some process holds the write end. -/
def held (s : State) (p : Pipe) : Bool := s.procs.any (·.holds p)

/-- SIGTERM for the child. -/
def terminate (s : State) : State :=
  match s.procs with
  | child :: others => { s with procs := (if child.catches then child else child.exit) :: others }
  | [] => s

/-- The supervisor of the C++ and Rust programs reads the pipe. -/
def reads (s : State) (p : Pipe) : Bool :=
  match s.phase with
  | .serving => true
  | .drainOut => decide (p = .out)
  | .drainErr => decide (p = .err)
  | _ => false

end State

/-- The scanner looks for a line in what it has, and finds none. -/
def Side.scans (side : Side) : Bool :=
  !side.eof && !side.hand && !side.tooLong && decide (newline ∉ side.buf)

/-- The scanner's loop is over. -/
def Side.finished (side : Side) : Bool :=
  side.tooLong || side.eof && !side.hand && decide (side.buf = [])

namespace State

/-- A step of a process that no `write` holds up. -/
def act (s : State) (pid : ℕ) (f : Proc → Proc) : Option State :=
  match s.procs[pid]? with
  | some q =>
    if q.alive ∧ q.write = none then some (s.setProc pid (f q)) else none
  | none => none

def step (lang : Language) (capacity : ℕ) (s : State) : Action → Option State
  | .fork pid =>
    match s.procs[pid]? with
    | some q =>
      if q.alive ∧ q.write = none then some { s with procs := s.procs ++ [q] } else none
    | none => none
  | .close pid p => s.act pid (·.close p)
  | .trap pid catches => s.act pid ({ · with catches })
  | .write pid p bytes =>
    match s.procs[pid]? with
    | some q =>
      if q.write = none ∧ q.holds p then
        some (s.setProc pid { q with write := some (p, bytes) })
      else none
    | none => none
  | .put pid n =>
    match s.procs[pid]? with
    | some q =>
      match q.write with
      | some (p, bytes) =>
        if n ≤ bytes.length ∧ (s.side p).data.length + n ≤ capacity then
          some ((s.setProc pid (q.put n)).setSide p
            { s.side p with data := (s.side p).data ++ bytes.take n })
        else none
      | none => none
    | none => none
  | .interrupt pid =>
    match s.procs[pid]? with
    | some q => some (s.setProc pid { q with write := none })
    | none => none
  | .exit pid =>
    match s.procs[pid]? with
    | some q => some (s.setProc pid q.exit)
    | none => none
  | .read p n =>
    let side := s.side p
    if 0 < n ∧ n ≤ side.data.length ∧ n ≤ kChunk then
      match lang with
      | .go =>
        if side.scans ∧ side.buf.length + n ≤ kChunk then
          some (s.setSide p
            { side with data := side.data.drop n, buf := side.buf ++ side.data.take n })
        else none
      | _ =>
        if s.reads p ∧ side.eof = false then
          some (s.setSide p { side with data := side.data.drop n })
        else none
    else none
  | .eof p =>
    let side := s.side p
    if side.data = [] ∧ s.held p = false ∧ side.eof = false ∧
        (if lang = .go then side.scans else s.reads p) then
      some (s.setSide p { side with eof := true })
    else none
  | .line p =>
    let side := s.side p
    if lang = .go ∧ side.hand = false ∧ side.tooLong = false ∧
        (newline ∈ side.buf ∨ side.eof ∧ side.buf ≠ []) then
      some (s.setSide p
        { side with buf := (side.buf.dropWhile (· ≠ newline)).drop 1, hand := true })
    else none
  | .tooLong p =>
    let side := s.side p
    if lang = .go ∧ side.scans ∧ side.buf.length = kChunk then
      some (s.setSide p { side with tooLong := true })
    else none
  | .send p =>
    if (s.side p).hand ∧ s.queue < linesCap then
      some ({ s with queue := s.queue + 1 }.setSide p { s.side p with hand := false })
    else none
  | .receive =>
    if (s.phase = .serving ∨ s.phase = .draining) ∧ 0 < s.queue then
      some { s with queue := s.queue - 1 }
    else none
  | .stop => if s.phase = .serving then some { s.terminate with phase := .reaping } else none
  | .collect =>
    if (s.phase = .serving ∨ s.phase = .reaping) ∧ s.childAlive = false then
      some { s with phase := if lang = .go then .draining else .drainOut }
    else none
  | .next =>
    match s.phase with
    | .drainOut => if s.out.eof then some { s with phase := .drainErr } else none
    | .drainErr => if s.err.eof then some { s with phase := .ended } else none
    | .draining =>
      if s.out.finished ∧ s.err.finished ∧ s.queue = 0 then some { s with phase := .ended }
      else none
    | _ => none
  | .restart => if s.phase = .ended then some {} else none

/-- The supervisor waits for something that only the child or a descendant does. -/
def waits (s : State) : Bool :=
  match s.phase with
  | .reaping => s.childAlive
  | .drainOut => s.held .out
  | .drainErr => s.held .err
  | .draining => !s.out.finished && s.held .out || !s.err.finished && s.held .err
  | .serving | .ended => false

/-- Nobody reads the pipe as things stand. -/
def unread (lang : Language) (s : State) (p : Pipe) : Bool :=
  match lang with
  | .go => (s.side p).tooLong ||
      decide (s.phase = .reaping) && (s.side p).hand && decide (s.queue = linesCap)
  | _ => !s.reads p

/-- A process is blocked in a write to the pipe, which is full. -/
def Blocked (capacity : ℕ) (s : State) (p : Pipe) : Prop :=
  capacity ≤ (s.side p).data.length ∧ ∃ q ∈ s.procs, 0 < q.rest p

/-- No mutual wait. -/
def Right (lang : Language) (capacity : ℕ) (s : State) : Prop :=
  s.waits → ∀ p, s.unread lang p → ¬ s.Blocked capacity p

/-- What is in the pipe and what is being written to it. -/
def load (s : State) (p : Pipe) : ℕ := (s.side p).data.length + (s.procs.map (·.rest p)).sum

end State

/-- The bytes that the step begins to write. -/
def Action.asked (p : Pipe) : Action → ℕ
  | .write _ other bytes => if other = p then bytes.length else 0
  | _ => 0

def supervise (lang : Language) (capacity : ℕ) : Machine State Action where
  init := {}
  step := State.step lang capacity

/-- No mutual wait, now or when the writes that have begun have put more into the pipes. -/
def Safe (lang : Language) (capacity : ℕ) (s : State) : Prop :=
  ∀ (puts : List (ℕ × ℕ)) (t : State),
    (supervise lang capacity).runFrom? s (puts.map fun put => .put put.1 put.2) = some t →
    t.Right lang capacity

end LinuxSys.Pmon.Drain
