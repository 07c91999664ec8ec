import LinuxSys.Fleet.Hub
import LinuxSys.Lib.Machine

/-! # Two bridged nodes

Two nodes serve clients, and each node's bridge worker dials the other node. The machine takes one
step of one thread at a time: a read, the selection of a broadcast's targets under the registry's
lock, one frame written to one target. A C++ broadcaster writes to the descriptor number its
target had, so each node has a descriptor table; a Rust broadcaster holds the descriptor open and
a Go one holds the connection itself. What a frame says about the message it carries, and the
list of messages a worker has taken, are kept for the statements only.
-/

namespace LinuxSys.Fleet

open Lib Chatterd

inductive Node where
  | target
  | peer
deriving DecidableEq, Repr

def Node.other : Node → Node
  | .target => .peer
  | .peer => .target

@[simp] theorem Node.other_other (n : Node) : n.other.other = n := by cases n <;> rfl

theorem Node.other_ne (n : Node) : n.other ≠ n := by cases n <;> decide

/-- How the fleet is started: command-line arguments hold no NUL, and in Rust they are text. -/
structure Config where
  lang : Lang
  name : Node → Bytes
  nulFree : ∀ n, 0 ∉ name n
  own : ∀ n, lang.text (name n) = name n

def bridgeNick (localNode : Bytes) : Bytes := bridgePrefix ++ localNode

/-- A connection: the node that accepted it, its descriptor there, and the descriptor of the
dialing end if the other node's worker dialed it. Connections are numbered in order. -/
structure Conn where
  id : ℕ
  node : Node
  fd : ℕ
  dialFd : Option ℕ := none
deriving DecidableEq, Repr

inductive Endpoint where
  | accepted (c : Conn)
  | dialed (c : Conn)
deriving DecidableEq, Repr

/-- Where a connection's handler stands. -/
inductive Phase where
  | absent
  | joining
  | serving
  | leaving
  | closed
deriving DecidableEq, Repr

/-- Moving one handler between phases other than `q` moves none into or out of `q`. -/
theorem Phase.update_ne_iff {ι : Type*} [DecidableEq ι] {phase : ι → Phase} {c : ι} {p q : Phase}
    (before : phase c ≠ q) (after : p ≠ q) (x : ι) :
    Function.update phase c p x ≠ q ↔ phase x ≠ q := by
  rw [Function.update_apply]
  split
  · next same =>
    rw [same]
    exact ⟨fun _ => before, fun _ => after⟩
  · rfl

/-- The threads that broadcast: the handler of a connection and the worker of a node. -/
inductive Caster where
  | handler (c : Conn)
  | worker (n : Node)
deriving DecidableEq, Repr

/-- The node whose process a broadcaster runs in. -/
def Caster.node : Caster → Node
  | .handler c => c.node
  | .worker n => n

def Caster.isWorker : Caster → Bool
  | .handler _ => false
  | .worker _ => true

/-- A MSG that was broadcast: its number, the connection it was read from and the nick then. -/
structure Msg where
  id : ℕ
  origin : Conn
  nick : Bytes
deriving DecidableEq, Repr

/-- A broadcast of a nick and a text, with the targets still to be written to. -/
structure Job where
  msg : Msg
  nick : Bytes
  text : Bytes
  targets : List Conn
deriving DecidableEq, Repr

/-- A DELIVER a worker has read and tagged, and not yet broadcast. -/
structure Relay where
  msg : Msg
  nick : Bytes
  text : Bytes
deriving DecidableEq, Repr

/-- A DELIVER frame written to an end of a connection. -/
structure Sent where
  dest : Endpoint
  msg : Msg
  relayed : Bool
  frame : Frame
deriving DecidableEq, Repr

structure State where
  next : ℕ := 0
  phase : Conn → Phase := fun _ => .absent
  /-- What each descriptor number of a node's process refers to. -/
  table : Node → ℕ → Option Endpoint := fun _ _ => none
  hub : Node → Hub Conn := fun _ => ⟨[], fun _ => ⟨[]⟩⟩
  /-- The text a handler has read and not yet broadcast. -/
  read : Conn → Option Bytes := fun _ => none
  job : Caster → Job := fun _ => ⟨⟨0, ⟨0, .target, 0, none⟩, []⟩, [], [], []⟩
  /-- The connection a node's worker reads from, and what is in flight on it. -/
  link : Node → Option Conn := fun _ => none
  inbox : Node → List Sent := fun _ => []
  taken : Node → Option Relay := fun _ => none
  /-- Messages broadcast so far, and those each worker has taken. -/
  msgs : ℕ := 0
  relays : Node → List Msg := fun _ => []
  log : List Sent := []

inductive Action where
  | accept (n : Node) (fd : ℕ)
  | dial (n : Node) (fd dialFd : ℕ)
  | join (c : Conn) (payload : Bytes)
  | refuse (c : Conn)
  | msg (c : Conn) (payload : Bytes)
  | broadcast (c : Conn)
  | take (n : Node)
  | relay (n : Node)
  | write (k : Caster) (sent : Bool)
  | leave (c : Conn)
  | close (c : Conn)
  | drop (n : Node)
deriving DecidableEq, Repr

namespace State

def idle (s : State) (k : Caster) : Bool := (s.job k).targets = []

def setTable (s : State) (n : Node) (fd : ℕ) (entry : Option Endpoint) : State :=
  { s with table := Function.update s.table n (Function.update (s.table n) fd entry) }

def setPhase (s : State) (c : Conn) (phase : Phase) : State :=
  { s with phase := Function.update s.phase c phase }

/-- A new connection is accepted by its node. -/
def opened (s : State) (c : Conn) : State :=
  { (s.setPhase c .joining).setTable c.node c.fd (some (.accepted c)) with next := s.next + 1 }

/-- The new connection becomes the link of the worker that dialed it. -/
def linked (s : State) (n : Node) (c : Conn) (dialFd : ℕ) : State :=
  { s.setTable n dialFd (some (.dialed c)) with link := Function.update s.link n (some c) }

def joined (s : State) (c : Conn) (conn : PeerConn) : State :=
  { s.setPhase c .serving with
    hub := Function.update s.hub c.node ((s.hub c.node).add c conn) }

/-- The targets of a message from a client are selected. -/
def broadcasting (s : State) (c : Conn) (text : Bytes) : State :=
  { s with
    read := Function.update s.read c none
    msgs := s.msgs + 1
    job := Function.update s.job (.handler c)
      ⟨⟨s.msgs, c, ((s.hub c.node).peer c).nick⟩, ((s.hub c.node).peer c).nick, text,
        (s.hub c.node).targets (some c) true⟩ }

def taking (s : State) (n : Node) (d : Sent) (rest : List Sent) (r : Option Relay) : State :=
  { s with
    inbox := Function.update s.inbox n rest
    relays := Function.update s.relays n (d.msg :: s.relays n)
    taken := Function.update s.taken n r }

/-- The targets of a message from the other node are selected. -/
def relaying (s : State) (n : Node) (r : Relay) : State :=
  { s with
    taken := Function.update s.taken n none
    job := Function.update s.job (.worker n)
      ⟨r.msg, r.nick, r.text, (s.hub n).targets none false⟩ }

def popped (s : State) (k : Caster) (rest : List Conn) : State :=
  { s with job := Function.update s.job k { s.job k with targets := rest } }

/-- A written frame is in flight; the worker that dialed the connection will read it. -/
def delivered (s : State) (d : Sent) : State :=
  { s with
    log := s.log ++ [d]
    inbox := fun n =>
      if d.dest ∈ (s.link n).map .accepted then s.inbox n ++ [d] else s.inbox n }

def left (s : State) (c : Conn) : State :=
  { s.setPhase c .leaving with
    hub := Function.update s.hub c.node ((s.hub c.node).remove c) }

def closed (s : State) (c : Conn) : State := (s.setPhase c .closed).setTable c.node c.fd none

def dropped (s : State) (n : Node) (dialFd : ℕ) : State :=
  { s.setTable n dialFd none with
    link := Function.update s.link n none
    inbox := Function.update s.inbox n [] }

end State

/-- Where a broadcaster's write to a target goes: in C++ to whatever has its number now. -/
def resolve (cfg : Config) (s : State) (k : Caster) (c : Conn) : Option Endpoint :=
  match cfg.lang with
  | .cpp => s.table k.node c.fd
  | _ => some (.accepted c)

/-- One write of a broadcast; a frame too large or a failed write sends nothing. -/
def wrote (cfg : Config) (s : State) (k : Caster) (c : Conn) (sent : Bool) (t : State) : State :=
  match sent, writeFrame (deliverFrame (s.job k).nick (s.job k).text), resolve cfg s k c with
  | true, .ok _, some dest =>
    t.delivered ⟨dest, (s.job k).msg, k.isWorker, deliverFrame (s.job k).nick (s.job k).text⟩
  | _, _, _ => t

def step (cfg : Config) (s : State) : Action → Option State
  | .accept n fd =>
    if s.table n fd = none then some (s.opened ⟨s.next, n, fd, none⟩) else none
  | .dial n fd dialFd =>
    if s.link n = none ∧ s.table n.other fd = none ∧ s.table n dialFd = none ∧
        (bridgeNick (cfg.name n)).length ≤ 0xFFFF then
      some ((s.opened ⟨s.next, n.other, fd, some dialFd⟩).linked n
        ⟨s.next, n.other, fd, some dialFd⟩ dialFd)
    else none
  | .join c payload =>
    if s.phase c = .joining ∧
        (c.dialFd.isSome → payload = bridgeNick (cfg.name c.node.other)) then
      (joined? cfg.lang ⟨typeJoin, payload⟩).map (s.joined c)
    else none
  | .refuse c => if s.phase c = .joining then some (s.setPhase c .leaving) else none
  | .msg c payload =>
    if s.phase c = .serving ∧ c.dialFd = none ∧ s.read c = none ∧ s.idle (.handler c) then
      some { s with read := Function.update s.read c (some (cfg.lang.text payload)) }
    else none
  | .broadcast c => (s.read c).map (s.broadcasting c)
  | .take n =>
    match s.inbox n with
    | d :: rest =>
      if s.taken n = none ∧ s.idle (.worker n) then
        some (s.taking n d rest ((relayed? cfg.lang (cfg.name n.other) d.frame).map fun parts =>
          ⟨d.msg, parts.1, parts.2⟩))
      else none
    | [] => none
  | .relay n => (s.taken n).map (s.relaying n)
  | .write k sent =>
    match (s.job k).targets with
    | c :: rest => some (wrote cfg s k c sent (s.popped k rest))
    | [] => none
  | .leave c =>
    if s.phase c = .serving ∧ s.read c = none ∧ s.idle (.handler c) then some (s.left c)
    else none
  | .close c => if s.phase c = .leaving then some (s.closed c) else none
  | .drop n =>
    match s.link n with
    | some c =>
      if s.taken n = none ∧ s.idle (.worker n) then c.dialFd.map (s.dropped n) else none
    | none => none

/-- Two nodes from their start, before any connection. -/
def bridge (cfg : Config) : Machine State Action where
  init := {}
  step := step cfg

/-- A broadcast of this node's process still has to write to a target with this number. -/
def State.Awaits (s : State) (n : Node) (fd : ℕ) : Prop :=
  ∃ k, k.node = n ∧ ∃ c ∈ (s.job k).targets, c.fd = fd

/-- No new connection gets a descriptor number that a C++ broadcast still has to write to. -/
def FreshNumbers (cfg : Config) (s : State) : Action → Prop
  | .accept n fd => cfg.lang = .cpp → ¬ s.Awaits n fd
  | .dial n fd dialFd => cfg.lang = .cpp → ¬ s.Awaits n.other fd ∧ ¬ s.Awaits n dialFd
  | _ => True

/-- Two C++ nodes called `T` and `P`. -/
def cppFleet : Config where
  lang := .cpp
  name
    | .target => [0x54]
    | .peer => [0x50]
  nulFree := by
    intro n
    cases n <;> decide
  own _ := rfl

end LinuxSys.Fleet
