import LinuxSys.Chatterd.Wire
import LinuxSys.Lib.Machine
import LinuxSys.Lib.Wrap

/-! # A session of chatterd ch24

A session is over when its peer has been silent for `--timeout-ms`. C++ polls until a deadline that
every read moves, for a number of milliseconds in an `int`; Go waits for a timer that every frame
resets. Time is the monotonic clock's, in nanoseconds. It passes while a session waits and while its
socket takes none of what it sends; what the session computes takes no time.
-/

namespace LinuxSys.Chatterd.Session

open Lib

/-- Nanoseconds. -/
def milli : ℕ := 1000000

def kHeader : ℕ := 6
def kMaxPayload : ℕ := 65535

structure Opts where
  timeoutMs : ℕ
  hasMessage : Bool := false
  peer : Bytes := []
deriving DecidableEq, Repr

/-- `timeout_ms` as a signed 64-bit number of nanoseconds. -/
def Opts.timeout (o : Opts) : ℤ := toSigned 64 (o.timeoutMs * milli : ℕ)

inductive Outcome where
  | timedOut
  | shutdown
  | peerError
deriving DecidableEq, Repr

inductive Line where
  | linked (peer : Bytes)
  | message (peer text : Bytes)
deriving DecidableEq, Repr

/-- What a session knows of its peer, and the lines it has printed. -/
structure Talk where
  peer : Bytes
  linked : Bool := false
  lines : List Line := []
deriving DecidableEq, Repr

/-- What both languages do with a frame; all but JOIN and MSG are liveness only. -/
def Talk.onFrame (t : Talk) (f : Frame) : Talk :=
  if f.typ = typeJoin then
    if t.linked then { t with peer := f.payload }
    else { peer := f.payload, linked := true, lines := t.lines ++ [.linked f.payload] }
  else if f.typ = typeMsg then { t with lines := t.lines ++ [.message t.peer f.payload] }
  else t

/-- The reader's buffer, with the frames that were complete so far and when the last one was. A
session begins at time 0. -/
structure Heard where
  buf : Bytes := []
  frames : List Frame := []
  last : ℕ := 0
deriving DecidableEq, Repr

/-- The frames that `pop_frame` and `readFrames` find once these bytes have come. -/
def Heard.next (h : Heard) (bytes : Bytes) : List Frame := (wire.parse (h.buf ++ bytes)).1

/-- The bytes behind them have a foreign magic or version. -/
def Heard.bad (h : Heard) (bytes : Bytes) : Bool :=
  wire.look (wire.parse (h.buf ++ bytes)).2 = .desync

def Heard.read (h : Heard) (now : ℕ) (bytes : Bytes) : Heard where
  buf := (wire.parse (h.buf ++ bytes)).2
  frames := h.frames ++ h.next bytes
  last := if h.next bytes = [] then h.last else now

/-- What a session has heard when it has read these bytes at these times. -/
def heardOf (reads : List (ℕ × Bytes)) : Heard :=
  reads.foldl (fun h read => h.read read.1 read.2) {}

/-! `run_session` in C++. -/

/-- What `read` returns. -/
inductive Read where
  | data (bytes : Bytes)
  | eof
  | error
deriving DecidableEq, Repr

/-- Where the session stands: in `send_frame` of the JOIN, of a PING, before the socket is looked
at, or of the message; in its loop before `poll` or in it. -/
inductive Phase where
  | joining
  | working
  | polling (since : ℕ) (ms : ℤ)
  | pinging (sock : Option Read)
  | messaging (bad : Bool)
  | returned (outcome : Outcome)
deriving DecidableEq, Repr

structure Cpp where
  now : ℕ := 0
  deadline : ℤ
  phase : Phase := .joining
  heard : Heard := {}
  talk : Talk
  sockDead : Bool := false
  /-- When the deadline was set. -/
  armed : ℕ := 0
  reads : List (ℕ × Bytes) := []
deriving DecidableEq, Repr

/-- The time left as an `int`; `poll` waits for ever if it is negative. -/
def pollMs (left : ℤ) : ℤ :=
  if left ≤ 0 then 0 else toSigned 32 (toSigned 32 (left / milli) + 1)

inductive CppAction where
  | joined (ok : Bool)
  | poll
  | pass (d : ℕ)
  | quiet
  | intr
  | wake (stop tick : Bool) (sock : Option Read)
  | sent
deriving DecidableEq, Repr

namespace Cpp

/-- Bytes were read: the deadline is moved, then the frames are handled. -/
def onData (o : Opts) (s : Cpp) (bytes : Bytes) : Cpp :=
  let talk := (s.heard.next bytes).foldl Talk.onFrame s.talk
  let heard := s.heard.read s.now bytes
  let bad := s.heard.bad bytes || decide (kHeader + kMaxPayload < heard.buf.length)
  { s with
    deadline := s.now + o.timeout
    armed := s.now
    heard, talk
    reads := s.reads ++ [(s.now, bytes)]
    phase :=
      if o.hasMessage && !s.talk.linked && talk.linked then .messaging bad
      else if bad then .returned .peerError
      else .working }

def onSock (o : Opts) (s : Cpp) : Option Read → Cpp
  | none => { s with phase := .working }
  | some (.data bytes) => s.onData o bytes
  | some _ => { s with phase := .working, sockDead := true }

def step (o : Opts) (s : Cpp) : CppAction → Option Cpp
  | .joined ok =>
    match s.phase with
    | .joining =>
      if ok then
        some { s with phase := .working, deadline := s.now + o.timeout, armed := s.now }
      else some { s with phase := .returned .peerError }
    | _ => none
  | .poll =>
    match s.phase with
    | .working => some { s with phase := .polling s.now (pollMs (s.deadline - s.now)) }
    | _ => none
  | .pass d =>
    match s.phase with
    | .polling since ms =>
      if ms < 0 ∨ (s.now + d : ℤ) ≤ since + ms * milli then some { s with now := s.now + d }
      else none
    | .joining | .pinging _ | .messaging _ => some { s with now := s.now + d }
    | _ => none
  | .quiet =>
    match s.phase with
    | .polling since ms =>
      if 0 ≤ ms ∧ since + ms * milli ≤ s.now then some { s with phase := .returned .timedOut }
      else none
    | _ => none
  | .intr =>
    match s.phase with
    | .polling _ _ => some { s with phase := .working }
    | _ => none
  | .wake stop tick sock =>
    match s.phase with
    | .polling _ _ =>
      if (stop ∨ tick ∨ sock ≠ none) ∧ (sock ≠ none → s.sockDead = false) ∧
          sock ≠ some (.data []) then
        if stop then some { s with phase := .returned .shutdown }
        else if tick ∧ s.sockDead = false then some { s with phase := .pinging sock }
        else some (s.onSock o sock)
      else none
    | _ => none
  | .sent =>
    match s.phase with
    | .pinging sock => some (s.onSock o sock)
    | .messaging bad =>
      some { s with phase := if bad then .returned .peerError else .working }
    | _ => none

end Cpp

def cpp (o : Opts) : Machine Cpp CppAction where
  init := { deadline := o.timeout, talk := { peer := o.peer } }
  step := Cpp.step o

/-! `runSession` in Go; the timer runs before the JOIN is sent. -/

/-- The frame that `readFrames` sends when it gives up. -/
def zero : Frame := ⟨0, []⟩

/-- A session with its reader, whose channel is `queue`. -/
structure Go where
  now : ℕ := 0
  fireAt : ℤ
  heard : Heard := {}
  queue : List Frame := []
  readerDone : Bool := false
  sending : Bool := false
  talk : Talk
  sockDead : Bool := false
  outcome : Option Outcome := none
  reads : List (ℕ × Bytes) := []
deriving DecidableEq, Repr

/-- A timer for no time or less fires at once. -/
def Opts.duration (o : Opts) : ℤ := max 0 o.timeout

inductive GoAction where
  | pass (d : ℕ)
  | bytes (bytes : Bytes)
  | eof
  | sent
  | done
  | deadline
  | tick
  | frame
deriving DecidableEq, Repr

namespace Go

/-- The session may choose between the channels that are ready. -/
def selects (s : Go) : Prop := s.outcome = none ∧ s.sending = false

instance (s : Go) : Decidable s.selects := inferInstanceAs (Decidable (_ ∧ _))

def onFrame (o : Opts) (s : Go) (f : Frame) (rest : List Frame) : Go :=
  if f.typ = 0 then { s with queue := rest, sockDead := true }
  else
    { s with
      queue := rest
      fireAt := s.now + o.duration
      talk := s.talk.onFrame f
      sending := o.hasMessage && !s.talk.linked && (s.talk.onFrame f).linked }

def step (o : Opts) (s : Go) : GoAction → Option Go
  | .pass d =>
    if s.outcome = none ∧ (s.sending ∨
        (s.sockDead ∨ s.queue = []) ∧ (s.now + d : ℤ) ≤ s.fireAt) then
      some { s with now := s.now + d }
    else none
  | .bytes bytes =>
    if s.outcome = none ∧ s.readerDone = false ∧ bytes ≠ [] then
      let bad := s.heard.bad bytes
      some { s with
        heard := s.heard.read s.now bytes
        queue := s.queue ++ s.heard.next bytes ++ if bad then [zero] else []
        readerDone := bad
        reads := s.reads ++ [(s.now, bytes)] }
    else none
  | .eof =>
    if s.outcome = none ∧ s.readerDone = false then
      some { s with queue := s.queue ++ [zero], readerDone := true }
    else none
  | .sent => if s.outcome = none ∧ s.sending then some { s with sending := false } else none
  | .done => if s.selects then some { s with outcome := some .shutdown } else none
  | .deadline =>
    if s.selects ∧ s.fireAt ≤ s.now then some { s with outcome := some .timedOut } else none
  | .tick => if s.selects then some { s with sending := !s.sockDead } else none
  | .frame =>
    if s.selects ∧ s.sockDead = false then
      match s.queue with
      | f :: rest => some (s.onFrame o f rest)
      | [] => if s.readerDone then some { s with sockDead := true } else none
    else none

end Go

def go (o : Opts) : Machine Go GoAction where
  init := { fireAt := o.duration, talk := { peer := o.peer }, sending := true }
  step := Go.step o

end LinuxSys.Chatterd.Session
