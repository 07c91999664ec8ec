import LinuxSys.Chatterd.Engines
import LinuxSys.Chatterd.Outbuf
import LinuxSys.Lib.History
import LinuxSys.Lib.Multicast

/-! # The epoll server of chatterd ch22

One thread serves all clients. A step is a system call with what it returns, or the next step of the
code between two of them. The fields of the state from `task` to `flushing` are the calls the thread
is in, the innermost last. Rust also decodes what came before the end of a stream, and keeps a nick
as text.
-/

namespace LinuxSys.Chatterd.EpollServer

open Lib

/-- The two servers that have an epoll loop of their own. -/
inductive Impl where
  | cpp
  | rust
deriving DecidableEq, Repr

def Impl.text : Impl → Bytes → Bytes
  | .cpp => Lang.cpp.text
  | .rust => Lang.rust.text

def kListen : ℕ := 0
def kSignal : ℕ := 1

def welcome : Bytes := encode typeWelcome []

/-- What `epoll_wait` reports. -/
structure Event where
  tok : ℕ
  hup : Bool := false
  readable : Bool := false
  writable : Bool := false
deriving DecidableEq, Repr

/-- `out` has the write side and whether the connection is dead. The other fields are history: the
chunks that have been decoded, what has come in since, and the broadcasts before the connection. -/
structure Conn where
  nick : Bytes := [0x3F]
  inbuf : Bytes := []
  out : Outbuf.EConn := {}
  decoded : List Bytes := []
  fresh : Bytes := []
  since : ℕ := 0
deriving DecidableEq, Repr

inductive Task where
  | waiting
  | batch
  | accepting
  | reading (e : Event)
  | decoding (e : Event)
  | writing (e : Event)
  | exited (code : ℕ)
deriving DecidableEq, Repr

structure State where
  conns : List ℕ := []
  conn : ℕ → Conn := fun _ => {}
  nextTok : ℕ := 2
  messages : ℕ := 0
  peak : ℕ := 0
  /-- The events that are left of the batch. -/
  events : List Event := []
  task : Task := .waiting
  /-- The calls of `queue` that are still to be made. -/
  calls : List (ℕ × Bytes) := []
  flushing : Option ℕ := none
  /-- All broadcasts, with their senders. -/
  log : List (ℕ × Bytes) := []

inductive Action where
  | wait (events : List Event)
  | waitIntr
  | waitFails
  | event
  | accept (added : Bool)
  | acceptFails
  | recv (r : Recv)
  | frame (order : List ℕ)
  | write
  | queue
  | send (r : Outbuf.Send)
  | leave
deriving DecidableEq, Repr

namespace State

variable (impl : Impl) (s : State)

def setConn (d : ℕ) (c : Conn) : State := { s with conn := Function.update s.conn d c }

/-- The write side of a connection changes, and `flush` may return. -/
def setOut (d : ℕ) (out : Outbuf.EConn) : State :=
  { s.setConn d { s.conn d with out := out } with
    flushing := if out.flushing then some d else none }

def mark (d : ℕ) : State :=
  s.setConn d { s.conn d with out := { (s.conn d).out with dead := true } }

/-- `reap_closed`. -/
def reap : State := { s with conns := s.conns.filter fun d => !(s.conn d).out.dead }

/-- The next event of the batch; behind the last one the dead are reaped. -/
def event : State :=
  match s.events with
  | [] => { s.reap with task := .waiting }
  | e :: rest =>
    if e.tok = kListen then { s with events := rest, task := .accepting }
    else if e.tok = kSignal then { s.reap with events := rest, task := .exited 0 }
    else if e.tok ∈ s.conns then
      { (if e.hup then s.mark e.tok else s) with
        events := rest
        task := if e.readable then .reading e else .writing e }
    else { s with events := rest }

/-- A connection was accepted; the greeting is queued. -/
def accept (added : Bool) : State :=
  if added then
    { s.setConn s.nextTok { since := s.log.length } with
      conns := s.nextTok :: s.conns
      nextTok := s.nextTok + 1
      peak := max s.peak (s.conns.length + 1)
      calls := [(s.nextTok, welcome)] }
  else { s with nextTok := s.nextTok + 1 }

/-- The decode loop is entered. -/
def decode (e : Event) : State :=
  { s.setConn e.tok { s.conn e.tok with
      decoded := (s.conn e.tok).decoded ++ [(s.conn e.tok).fresh]
      fresh := [] } with
    task := .decoding e }

def recv (e : Event) : Recv → Option State
  | .data bytes =>
    if bytes ≠ [] ∧ bytes.length ≤ bufSize then
      some (s.setConn e.tok { s.conn e.tok with
        inbuf := (s.conn e.tok).inbuf ++ bytes
        fresh := (s.conn e.tok).fresh ++ bytes })
    else none
  | .again => some (s.decode e)
  | .intr => some s
  | .eof | .error =>
    some (match impl with
      | .cpp => { s.mark e.tok with task := .writing e }
      | .rust => (s.mark e.tok).decode e)

/-- The connections are gone through in any order. -/
def broadcast (i : ℕ) (frame : Bytes) (order : List ℕ) : Option State :=
  if order.Perm s.conns then
    some { s with
      messages := (s.messages + 1) % 2 ^ 64
      log := s.log ++ [(i, frame)]
      calls := order.map fun d => (d, frame) }
  else none

/-- One round of the decode loop. -/
def frame (e : Event) (order : List ℕ) : Option State :=
  let c := s.conn e.tok
  match takeFrame c.inbuf with
  | (none, rest) => some { s.setConn e.tok { c with inbuf := rest } with task := .writing e }
  | (some f, rest) =>
    if f.typ = typeJoin then
      some (s.setConn e.tok { c with inbuf := rest, nick := impl.text f.payload })
    else if f.typ = typeMsg then
      (s.setConn e.tok { c with inbuf := rest }).broadcast e.tok
        (encode typeDeliver (deliverPayload c.nick f.payload)) order
    else some (s.setConn e.tok { c with inbuf := rest })

/-- In `flush`. -/
def inFlush (d : ℕ) : Action → Option State
  | .send r => ((s.conn d).out.step (.send r)).map (s.setOut d)
  | .leave => ((s.conn d).out.step .leave).map (s.setOut d)
  | _ => none

/-- Before a call of `queue`, which would throw without the connection in C++. -/
def inQueue (d : ℕ) (frame : Bytes) (rest : List (ℕ × Bytes)) : Action → Option State
  | .queue =>
    if d ∈ s.conns then
      ((s.conn d).out.step (.queue frame)).map fun out => { s.setOut d out with calls := rest }
    else none
  | _ => none

def inTask : Action → Option State
  | .wait events =>
    if s.task = .waiting then some { s with events := events, task := .batch } else none
  | .waitIntr => if s.task = .waiting then some s else none
  | .waitFails => if s.task = .waiting then some { s with task := .exited 1 } else none
  | .event => if s.task = .batch then some s.event else none
  | .accept added => if s.task = .accepting then some (s.accept added) else none
  | .acceptFails => if s.task = .accepting then some { s with task := .batch } else none
  | .recv r =>
    match s.task with
    | .reading e => if e.tok ∈ s.conns then s.recv impl e r else none
    | _ => none
  | .frame order =>
    match s.task with
    | .decoding e => s.frame impl e order
    | _ => none
  | .write =>
    match s.task with
    | .writing e =>
      if e.tok ∈ s.conns ∧ e.writable then
        ((s.conn e.tok).out.step .flush).map fun out => { s.setOut e.tok out with task := .batch }
      else some { s with task := .batch }
    | _ => none
  | _ => none

def step (a : Action) : Option State :=
  match s.flushing with
  | some d => s.inFlush d a
  | none =>
    match s.calls with
    | (d, frame) :: rest => s.inQueue d frame rest a
    | [] => s.inTask impl a

/-- What is printed at the end. -/
def stopped : String := "chatterd: stopped engine=epoll messages=" ++ toString s.messages ++
  " peak_conns=" ++ toString s.peak

end State

def server (impl : Impl) : Machine State Action := ⟨{}, State.step impl⟩

/-- What the frames of a client say to all. -/
def said (impl : Impl) : Bytes → List Frame → List Bytes
  | _, [] => []
  | nick, f :: rest =>
    if f.typ = typeJoin then said impl (impl.text f.payload) rest
    else if f.typ = typeMsg then
      encode typeDeliver (deliverPayload nick f.payload) :: said impl nick rest
    else said impl nick rest

namespace State

variable (s : State)

/-- The connections as a group that is given one broadcast after another. -/
def group : Multicast ℕ Bytes where
  members := s.conns
  log := s.log.map Prod.snd
  since d := (s.conn d).since
  given d := (s.conn d).out.queued
  sending := s.calls

/-- What a client has said to all. -/
def sentBy (i : ℕ) : List Bytes := (s.log.filter fun p => p.1 = i).map Prod.snd

end State

/-- What the thread does with the input of a connection. -/
inductive Stage where
  | idle
  | reading
  | decoding
deriving DecidableEq, Repr

namespace Task

def stage (i : ℕ) : Task → Stage
  | .reading e => if e.tok = i then .reading else .idle
  | .decoding e => if e.tok = i then .decoding else .idle
  | _ => .idle

def event? : Task → Option Event
  | .reading e | .decoding e | .writing e => some e
  | _ => none

def quiet : Task → Bool
  | .waiting | .exited _ => true
  | _ => false

end Task

/-- What the decode loop has left in the buffer. -/
def Conn.left (c : Conn) : Bytes := (wire.feed [] c.decoded).2

/-- All that the decoded chunks say has been sent but for what the frames at hand say. -/
def Says (impl : Impl) (c : Conn) (sent : List Bytes) (rest : List Frame) : Prop :=
  ∀ later, said impl [0x3F] (framesOf c.decoded ++ later) = sent ++ said impl c.nick (rest ++ later)

theorem Says.whole {impl : Impl} {c : Conn} {sent : List Bytes} {rest : List Frame}
    (told : Says impl c sent rest) :
    said impl [0x3F] (framesOf c.decoded) = sent ++ said impl c.nick rest := by
  have all := told []
  rwa [List.append_nil, List.append_nil] at all

/-- Input is left undecoded only by a connection that died. -/
inductive Reads (impl : Impl) (c : Conn) (sent : List Bytes) : Stage → Prop where
  | idle (told : Says impl c sent []) (held : c.inbuf = c.left ++ c.fresh)
      (dead : c.fresh ≠ [] → c.out.dead = true) : Reads impl c sent .idle
  | reading (told : Says impl c sent []) (held : c.inbuf = c.left ++ c.fresh) :
      Reads impl c sent .reading
  | decoding (told : Says impl c sent (wire.drain c.inbuf).1)
      (held : (wire.drain c.inbuf).2 = c.left) (none : c.fresh = []) :
      Reads impl c sent .decoding

/-- Which connections there are, and which the thread is at. -/
structure Known (s : State) : Prop where
  unused : ∀ d, s.nextTok ≤ d → s.conn d = {}
  old : ∀ d ∈ s.conns, d < s.nextTok
  flushing : ∀ d, (s.conn d).out.flushing = true ↔ s.flushing = some d
  flushed : ∀ d, s.flushing = some d → d ∈ s.conns
  task : ∀ e, s.task.event? = some e → e.tok ∈ s.conns
  quiet : s.task.quiet = true →
    s.calls = [] ∧ s.flushing = none ∧ ∀ d ∈ s.conns, (s.conn d).out.dead = false

structure Inv (impl : Impl) (s : State) : Prop where
  known : Known s
  whole : s.group.Whole welcome
  right : ∀ d, (s.conn d).out.Right
  reads : ∀ i, Reads impl (s.conn i) (s.sentBy i) (s.task.stage i)
  counted : s.messages = s.log.length % 2 ^ 64

section Reads

variable {impl : Impl} {c : Conn} {sent : List Bytes} {rest : Bytes} {f : Frame}

theorem Reads.start (reads : Reads impl c sent .idle) : Reads impl c sent .reading := by
  cases reads with
  | idle told held _ => exact .reading told held

theorem Reads.data (reads : Reads impl c sent .reading) (bytes : Bytes) :
    Reads impl { c with inbuf := c.inbuf ++ bytes, fresh := c.fresh ++ bytes } sent .reading := by
  cases reads with
  | reading told held =>
    refine .reading told ?_
    rw [held, List.append_assoc]
    rfl

/-- The decode loop is entered with all that has come in. -/
theorem Reads.decode (reads : Reads impl c sent .reading) :
    Reads impl { c with decoded := c.decoded ++ [c.fresh], fresh := [] } sent .decoding := by
  cases reads with
  | reading told held =>
    have fed : wire.feed [] (c.decoded ++ [c.fresh]) =
        (framesOf c.decoded ++ (wire.drain c.inbuf).1, (wire.drain c.inbuf).2) := by
      rw [wire.feed_append, Deframer.feed, Deframer.feed, List.append_nil, held]
      rfl
    refine .decoding (fun later => ?_) (congrArg Prod.snd fed).symm rfl
    have frames : framesOf (c.decoded ++ [c.fresh]) =
        framesOf c.decoded ++ (wire.drain c.inbuf).1 := congrArg Prod.fst fed
    rw [frames, List.append_assoc, told]
    rfl

theorem Reads.stop (reads : Reads impl c sent .reading) :
    Reads impl { c with out := { c.out with dead := true } } sent .idle := by
  cases reads with
  | reading told held => exact .idle told held fun _ => rfl

theorem Reads.done (reads : Reads impl c sent .decoding)
    (front : takeFrame c.inbuf = (none, rest)) :
    Reads impl { c with inbuf := rest } sent .idle := by
  cases reads with
  | decoding told held none =>
    rw [drain_eq_takeFrame, front] at told held
    refine .idle told ?_ fun some => absurd none some
    rw [none, List.append_nil]
    exact held

/-- A frame of the decode loop, which may say something. -/
theorem Reads.frame (reads : Reads impl c sent .decoding)
    (front : takeFrame c.inbuf = (some f, rest)) {nick : Bytes} {more : List Bytes}
    (told : ∀ later, said impl c.nick (f :: later) = more ++ said impl nick later) :
    Reads impl { c with inbuf := rest, nick := nick } (sent ++ more) .decoding := by
  cases reads with
  | decoding before held none =>
    rw [drain_eq_takeFrame, front] at before held
    refine .decoding (fun later => ?_) held none
    rw [before, List.cons_append, told, List.append_assoc]

/-- The write side changes, and a dead connection stays dead. -/
theorem Reads.setOut {stage : Stage} (reads : Reads impl c sent stage) {out : Outbuf.EConn}
    (dead : c.out.dead = true → out.dead = true) : Reads impl { c with out := out } sent stage := by
  cases reads with
  | idle told held undecoded => exact .idle told held fun some => dead (undecoded some)
  | reading told held => exact .reading told held
  | decoding told held none => exact .decoding told held none

end Reads

section Steps

variable {impl : Impl} {s t : State} {d k : ℕ} {c : Conn} {task : Task}

@[simp] theorem conn_setConn_self : (s.setConn d c).conn d = c := Function.update_self ..

theorem conn_setConn_of_ne (apart : k ≠ d) : (s.setConn d c).conn k = s.conn k :=
  Function.update_of_ne apart ..

/-- What a property of all connections is after one of them has changed. -/
theorem forall_setConn {motive : ℕ → Conn → Prop} (all : ∀ k, k ≠ d → motive k (s.conn k))
    (here : motive d c) (k : ℕ) : motive k ((s.setConn d c).conn k) := by
  rcases eq_or_ne k d with rfl | apart
  · rw [conn_setConn_self]
    exact here
  · rw [conn_setConn_of_ne apart]
    exact all k apart

theorem map_setConn {α : Type*} (f : Conn → α) :
    (fun k => f ((s.setConn d c).conn k)) = Function.update (fun k => f (s.conn k)) d (f c) :=
  Function.comp_update f s.conn d c

theorem group_setConn (queued : c.out.queued = (s.conn d).out.queued)
    (since : c.since = (s.conn d).since) : (s.setConn d c).group = s.group := by
  rw [State.group, State.group]
  congr 1
  · rw [map_setConn Conn.since, since]
    exact Function.update_eq_self ..
  · rw [map_setConn fun c => c.out.queued, queued]
    exact Function.update_eq_self ..

theorem Known.setConn (known : Known s) (here : d ∈ s.conns) (loud : s.task.quiet = false)
    (flushing : c.out.flushing = (s.conn d).out.flushing) : Known (s.setConn d c) where
  unused k beyond := by
    have apart : k ≠ d := fun same => absurd (known.old d here) (Nat.not_lt.mpr (same ▸ beyond))
    exact (conn_setConn_of_ne apart).trans (known.unused k beyond)
  old := known.old
  flushing := forall_setConn (motive := fun k c => c.out.flushing = true ↔ s.flushing = some k)
    (fun k _ => known.flushing k) (flushing ▸ known.flushing d)
  flushed := known.flushed
  task := known.task
  quiet still := absurd (loud.symm.trans still) Bool.false_ne_true

/-- The thread goes on without a connection being changed. -/
theorem Inv.move (inv : Inv impl s) (task : Task) (stage : ∀ i, task.stage i = s.task.stage i)
    (its : ∀ e, task.event? = some e → e.tok ∈ s.conns) (quiet : task.quiet = true →
      s.calls = [] ∧ s.flushing = none ∧ ∀ d ∈ s.conns, (s.conn d).out.dead = false)
    (events : List Event) : Inv impl { s with events := events, task := task } where
  known := { inv.known with
    task := its
    quiet := quiet }
  whole := inv.whole
  right := inv.right
  reads i := stage i ▸ inv.reads i
  counted := inv.counted

/-- The write side is as it was, or marked dead. -/
theorem kept_of_marked {before after : Outbuf.EConn}
    (marked : after = before ∨ after = { before with dead := true }) (right : before.Right) :
    after.queued = before.queued ∧ after.flushing = before.flushing ∧ after.Right := by
  rcases marked with rfl | rfl
  · exact ⟨rfl, rfl, right⟩
  · exact ⟨rfl, rfl, right.bytes, right.registered, fun _ alive => by cases alive⟩

/-- A connection is changed and the thread goes on with it. -/
theorem Inv.setConn (inv : Inv impl s) (task : Task) (here : d ∈ s.conns)
    (loud : s.task.quiet = false) (next : task.quiet = false)
    (its : ∀ e, task.event? = some e → e.tok = d)
    (stage : ∀ i, i ≠ d → task.stage i = s.task.stage i)
    (out : c.out = (s.conn d).out ∨ c.out = { (s.conn d).out with dead := true })
    (since : c.since = (s.conn d).since) (reads : Reads impl c (s.sentBy d) (task.stage d)) :
    Inv impl { s.setConn d c with task := task } := by
  obtain ⟨queued, flushing, right⟩ := kept_of_marked out (inv.right d)
  exact {
    known := { inv.known.setConn here loud flushing with
      task := fun e at' => its e at' ▸ here
      quiet := fun still => absurd (next.symm.trans still) Bool.false_ne_true }
    whole := group_setConn (s := s) queued since ▸ inv.whole
    right := forall_setConn (motive := fun _ c => c.out.Right) (fun k _ => inv.right k) right
    reads := forall_setConn (motive := fun i c => Reads impl c (s.sentBy i) (task.stage i))
      (fun i apart => stage i apart ▸ inv.reads i) reads
    counted := inv.counted }

/-- The write side of a connection takes a step. -/
theorem Inv.setOut (inv : Inv impl s) (here : d ∈ s.conns) (loud : s.task.quiet = false)
    (only : ∀ k, s.flushing = some k → k = d) {a : Outbuf.Action} {out : Outbuf.EConn}
    (taken : (s.conn d).out.step a = some out) (calls : List (ℕ × Bytes))
    (whole : State.group { s.setOut d out with calls := calls } |>.Whole welcome) :
    Inv impl { s.setOut d out with calls := calls } where
  known := by
    refine { unused := fun k beyond => ?_, old := inv.known.old, flushing := ?_, flushed := ?_,
             task := inv.known.task, quiet := ?_ }
    · have apart : k ≠ d := fun same =>
        absurd (inv.known.old d here) (Nat.not_lt.mpr (same ▸ beyond))
      exact (conn_setConn_of_ne apart).trans (inv.known.unused k beyond)
    · refine forall_setConn (motive := fun k c => c.out.flushing = true ↔
        (if out.flushing then some d else none) = some k) (fun k apart => ?_) ?_
      · refine (inv.known.flushing k).trans ⟨fun at' => absurd (only k at') apart, fun at' => ?_⟩
        split_ifs at at'
        exact absurd (Option.some.inj at').symm apart
      · split_ifs with busy
        · exact iff_of_true busy rfl
        · exact iff_of_false busy fun none => by cases none
    · intro k at'
      change (if out.flushing then some d else none) = some k at at'
      split_ifs at at'
      exact Option.some.inj at' ▸ here
    · exact fun still => absurd (loud.symm.trans still) Bool.false_ne_true
  whole := whole
  right := forall_setConn (motive := fun _ c => c.out.Right) (fun k _ => inv.right k)
    ((inv.right d).step taken)
  reads := forall_setConn (motive := fun i c => Reads impl c (s.sentBy i) (s.task.stage i))
    (fun i _ => inv.reads i) ((inv.reads d).setOut fun dead => Outbuf.EConn.dead_of_step dead taken)
  counted := inv.counted

/-- A step of the write side that queues nothing gives nothing. -/
theorem Inv.flush (inv : Inv impl s) (here : d ∈ s.conns) (loud : s.task.quiet = false)
    (only : ∀ k, s.flushing = some k → k = d) {a : Outbuf.Action} {out : Outbuf.EConn}
    (taken : (s.conn d).out.step a = some out) (nothing : a.queued = []) :
    Inv impl (s.setOut d out) := by
  have queued := Outbuf.EConn.queued_of_step taken
  rw [nothing, List.append_nil] at queued
  have same := group_setConn (s := s) (c := { s.conn d with out := out }) queued rfl
  exact inv.setOut here loud only taken s.calls (same ▸ inv.whole)

/-- A call of `queue` gives the connection what is on its way to it. -/
theorem Inv.queue (inv : Inv impl s) (here : d ∈ s.conns) (loud : s.task.quiet = false)
    (still : s.flushing = none) {frame : Bytes} {rest : List (ℕ × Bytes)}
    (calls : s.calls = (d, frame) :: rest) {out : Outbuf.EConn}
    (taken : (s.conn d).out.step (.queue frame) = some out) :
    Inv impl { s.setOut d out with calls := rest } := by
  refine inv.setOut here loud (fun k at' => ?_) taken rest ?_
  · rw [still] at at'
    cases at'
  · have queued := Outbuf.EConn.queued_of_step taken
    have given := inv.whole.give
    rw [Multicast.give, show s.group.sending = (d, frame) :: rest from calls] at given
    convert given using 1
    rw [State.group, State.group]
    congr 1
    · exact (map_setConn Conn.since).trans (Function.update_eq_self ..)
    · exact (map_setConn fun c => c.out.queued).trans (congrArg _ queued)

/-- The dead are reaped between two batches and at the end. -/
theorem Inv.reap (inv : Inv impl s) (task : Task) (idle : s.calls = []) (still : s.flushing = none)
    (stage : ∀ i, task.stage i = s.task.stage i) (none : task.event? = none)
    (events : List Event) : Inv impl { s.reap with events := events, task := task } where
  known := { inv.known with
    old := fun d member => inv.known.old d (List.mem_of_mem_filter member)
    flushed := fun d at' => by
      change s.flushing = some d at at'
      rw [still] at at'
      cases at'
    task := fun e at' => by
      change task.event? = some e at at'
      rw [none] at at'
      cases at'
    quiet := fun _ => ⟨idle, still, fun d member => by
      have alive := List.of_mem_filter member
      exact (Bool.not_eq_true' _).mp alive⟩ }
  whole := inv.whole.keep idle _
  right := inv.right
  reads i := stage i ▸ inv.reads i
  counted := inv.counted

theorem Inv.accept (inv : Inv impl s) (idle : s.calls = []) (accepting : s.task = .accepting)
    (added : Bool) : Inv impl (s.accept added) := by
  have loud : s.task.quiet = false := accepting ▸ rfl
  have unused := inv.known.unused s.nextTok (Nat.le_refl _)
  have new : s.nextTok ∉ s.conns := fun member => Nat.lt_irrefl _ (inv.known.old _ member)
  rw [State.accept]
  cases added with
  | false =>
    exact ⟨{ inv.known with
      unused := fun d beyond => inv.known.unused d (Nat.le_of_succ_le beyond)
      old := fun d member => Nat.lt_succ_of_lt (inv.known.old d member) },
      inv.whole, inv.right, inv.reads, inv.counted⟩
  | true =>
    refine ⟨⟨fun d beyond => ?_, fun d member => ?_, ?_, fun d at' => ?_, fun e at' => ?_,
      fun still => ?_⟩, ?_, ?_, ?_, inv.counted⟩
    · exact (conn_setConn_of_ne (Nat.ne_of_gt beyond)).trans
        (inv.known.unused d (Nat.le_of_succ_le beyond))
    · rcases List.mem_cons.mp member with rfl | member
      · exact Nat.lt_succ_self _
      · exact Nat.lt_succ_of_lt (inv.known.old d member)
    · refine forall_setConn (motive := fun k c => c.out.flushing = true ↔ s.flushing = some k)
        (fun k _ => inv.known.flushing k) ?_
      have before := inv.known.flushing s.nextTok
      rwa [unused] at before
    · exact List.mem_cons_of_mem _ (inv.known.flushed d at')
    · exact List.mem_cons_of_mem _ (inv.known.task e at')
    · exact absurd (loud.symm.trans still) Bool.false_ne_true
    · convert inv.whole.join idle new using 1
      rw [State.group, Multicast.join]
      congr 1
      · refine (map_setConn Conn.since).trans (congrArg _ ?_)
        exact (List.length_map ..).symm
      · exact map_setConn fun c => c.out.queued
    · refine forall_setConn (motive := fun _ c => c.out.Right) (fun k _ => inv.right k) ?_
      have before := inv.right s.nextTok
      rwa [unused] at before
    · refine forall_setConn (motive := fun i c => Reads impl c (s.sentBy i) (s.task.stage i))
        (fun i _ => inv.reads i) ?_
      have before := inv.reads s.nextTok
      rw [unused, accepting] at before
      rw [accepting]
      cases before with
      | idle told held dead => exact .idle told held dead

theorem stage_of_ne {i : ℕ} {e : Event} (its : task.event? = some e) (apart : i ≠ e.tok) :
    task.stage i = .idle := by
  cases task with
  | reading f | decoding f =>
    obtain rfl := Option.some.inj its
    exact if_neg apart.symm
  | _ => rfl

variable {e : Event}

/-- A connection is changed while the thread handles one of its events. -/
theorem Inv.handle (inv : Inv impl s) (task : Task) (busy : s.task.event? = some e)
    (its : task.event? = some e)
    (out : c.out = (s.conn e.tok).out ∨ c.out = { (s.conn e.tok).out with dead := true })
    (since : c.since = (s.conn e.tok).since)
    (reads : Reads impl c (s.sentBy e.tok) (task.stage e.tok)) :
    Inv impl { s.setConn e.tok c with task := task } := by
  have loud {task : Task} (its : task.event? = some e) : task.quiet = false := by
    cases task <;> first | rfl | cases its
  refine inv.setConn task (inv.known.task e busy) (loud busy) (loud its) (fun f its' => ?_)
    (fun i apart => ?_) out since reads
  · rw [its] at its'
    exact Option.some.inj its' ▸ rfl
  · rw [stage_of_ne its apart, stage_of_ne busy apart]

theorem Inv.stay (inv : Inv impl s) (busy : s.task.event? = some e)
    (out : c.out = (s.conn e.tok).out ∨ c.out = { (s.conn e.tok).out with dead := true })
    (since : c.since = (s.conn e.tok).since)
    (reads : Reads impl c (s.sentBy e.tok) (s.task.stage e.tok)) : Inv impl (s.setConn e.tok c) :=
  inv.handle s.task busy busy out since reads

theorem Inv.recv (inv : Inv impl s) (reading : s.task = .reading e) {r : Recv}
    (taken : s.recv impl e r = some t) : Inv impl t := by
  have busy : s.task.event? = some e := reading ▸ rfl
  have here : Task.stage e.tok (.reading e) = .reading := if_pos rfl
  have there : Task.stage e.tok (.decoding e) = .decoding := if_pos rfl
  have reads := inv.reads e.tok
  rw [reading, here] at reads
  cases r with
  | data bytes =>
    obtain ⟨-, made⟩ := Option.ite_none_right_eq_some.mp taken
    obtain rfl := Option.some.inj made
    refine inv.stay busy (.inl rfl) rfl ?_
    rw [reading, here]
    exact reads.data bytes
  | again =>
    obtain rfl := Option.some.inj taken
    exact inv.handle (.decoding e) busy rfl (.inl rfl) rfl (there ▸ reads.decode)
  | intr =>
    obtain rfl := Option.some.inj taken
    exact inv
  | eof | error =>
    obtain rfl := Option.some.inj taken
    cases impl with
    | cpp => exact inv.handle (.writing e) busy rfl (.inr rfl) rfl reads.stop
    | rust =>
      have marked : Inv .rust (s.mark e.tok) := by
        refine inv.stay busy (.inr rfl) rfl ?_
        rw [reading, here]
        exact reads.setOut fun _ => rfl
      have reads := marked.reads e.tok
      rw [show (s.mark e.tok).task = .reading e from reading, here] at reads
      exact marked.handle (s := s.mark e.tok) (.decoding e) busy rfl (.inl rfl) rfl
        (there ▸ reads.decode)

/-- A broadcast is logged for its sender and goes to all connections. -/
theorem Inv.broadcast (inv : Inv impl s) (idle : s.calls = []) (decoding : s.task = .decoding e)
    {front : Bytes} {order : List ℕ} (all : order.Perm s.conns) (queue : c.out = (s.conn e.tok).out)
    (since : c.since = (s.conn e.tok).since)
    (reads : Reads impl c (s.sentBy e.tok ++ [front]) .decoding) :
    Inv impl { s.setConn e.tok c with
      messages := (s.messages + 1) % 2 ^ 64
      log := s.log ++ [(e.tok, front)]
      calls := order.map fun d => (d, front) } where
  known := by
    have loud : s.task.quiet = false := decoding ▸ rfl
    have here : e.tok ∈ s.conns := inv.known.task e (decoding ▸ rfl)
    exact { inv.known.setConn (c := c) here loud (congrArg _ queue) with
      quiet := fun still => absurd (loud.symm.trans still) Bool.false_ne_true }
  whole := by
    have same := group_setConn (s := s) (congrArg _ queue) since
    have cast := inv.whole.cast idle front all
    rw [← same] at cast
    convert cast using 1
    rw [State.group, Multicast.cast]
    congr 1
    exact List.map_append
  right := forall_setConn (motive := fun _ c => c.out.Right) (fun k _ => inv.right k)
    (queue ▸ inv.right e.tok)
  reads := by
    have sent (i : ℕ) : State.sentBy { s with log := s.log ++ [(e.tok, front)] } i =
        s.sentBy i ++ if e.tok = i then [front] else [] := by
      rw [State.sentBy, State.sentBy, List.filter_append, List.map_append]
      by_cases same : e.tok = i <;> simp [same]
    refine forall_setConn (motive := fun i c => Reads impl c
      (State.sentBy { s with log := s.log ++ [(e.tok, front)] } i) (s.task.stage i))
      (fun i apart => ?_) ?_
    · rw [sent, if_neg apart.symm, List.append_nil]
      exact inv.reads i
    · have here : Task.stage e.tok (.decoding e) = .decoding := if_pos rfl
      rw [sent, if_pos rfl, decoding, here]
      exact reads
  counted := by
    change (s.messages + 1) % 2 ^ 64 = (s.log ++ [(e.tok, front)]).length % 2 ^ 64
    rw [inv.counted, List.length_append, List.length_singleton]
    exact Nat.mod_add_mod ..

theorem Inv.frame (inv : Inv impl s) (idle : s.calls = []) (decoding : s.task = .decoding e)
    {order : List ℕ} (taken : s.frame impl e order = some t) : Inv impl t := by
  have busy : s.task.event? = some e := decoding ▸ rfl
  have here : Task.stage e.tok (.decoding e) = .decoding := if_pos rfl
  have reads := inv.reads e.tok
  rw [decoding, here] at reads
  rw [State.frame] at taken
  cases front : takeFrame (s.conn e.tok).inbuf with
  | mk found rest =>
    cases found with
    | none =>
      simp only [front] at taken
      obtain rfl := Option.some.inj taken
      exact inv.handle (.writing e) busy rfl (.inl rfl) rfl (reads.done front)
    | some f =>
      have goes {nick : Bytes} (told : ∀ later, said impl (s.conn e.tok).nick (f :: later) =
          [] ++ said impl nick later) :
          Inv impl (s.setConn e.tok { s.conn e.tok with inbuf := rest, nick := nick }) := by
        have next := reads.frame front told
        rw [List.append_nil] at next
        refine inv.stay busy (.inl rfl) rfl ?_
        rw [decoding, here]
        exact next
      simp only [front] at taken
      split_ifs at taken with join msg
      · obtain rfl := Option.some.inj taken
        exact goes fun later => by rw [said, if_pos join, List.nil_append]
      · obtain ⟨all, made⟩ := Option.ite_none_right_eq_some.mp taken
        obtain rfl := Option.some.inj made
        exact inv.broadcast idle decoding all rfl rfl
          (reads.frame front fun later => by rw [said, if_neg join, if_pos msg]; rfl)
      · obtain rfl := Option.some.inj taken
        exact goes fun later => by rw [said, if_neg join, if_neg msg, List.nil_append]

theorem Inv.mark (inv : Inv impl s) (here : d ∈ s.conns) (batch : s.task = .batch) :
    Inv impl (s.mark d) := by
  refine inv.setConn s.task here (batch ▸ rfl) (batch ▸ rfl) (fun e its => ?_)
    (fun _ _ => rfl) (.inr rfl) rfl ((inv.reads d).setOut fun _ => rfl)
  rw [batch] at its
  cases its

/-- The thread turns to an event of a connection. -/
theorem Inv.turn (inv : Inv impl s) (here : e.tok ∈ s.conns) (batch : s.task = .batch)
    (turned : task = .reading e ∨ task = .writing e) (events : List Event) :
    Inv impl { s with events := events, task := task } := by
  have none (i : ℕ) : s.task.stage i = .idle := batch ▸ rfl
  rcases turned with rfl | rfl
  · refine ⟨{ inv.known with
        task := fun f its => Option.some.inj its ▸ here
        quiet := fun quiet => by cases quiet }, inv.whole, inv.right, fun i => ?_, inv.counted⟩
    have reads := inv.reads i
    rw [none i] at reads
    change Reads impl (s.conn i) (s.sentBy i) (if e.tok = i then .reading else .idle)
    split_ifs
    · exact reads.start
    · exact reads
  · refine inv.move (.writing e) (fun i => (none i).symm) (fun f its => ?_)
      (fun quiet => by cases quiet) events
    exact Option.some.inj its ▸ here

theorem Inv.event (inv : Inv impl s) (idle : s.calls = []) (still : s.flushing = none)
    (batch : s.task = .batch) : Inv impl s.event := by
  rw [State.event]
  have none (i : ℕ) : s.task.stage i = .idle := batch ▸ rfl
  cases s.events with
  | nil => exact inv.reap .waiting idle still (fun i => (none i).symm) rfl _
  | cons e rest =>
    simp only
    split_ifs with listen signal here hup
    · exact inv.move .accepting (fun i => (none i).symm) (fun _ its => by cases its)
        (fun quiet => by cases quiet) rest
    · exact inv.reap (.exited 0) idle still (fun i => (none i).symm) rfl rest
    · exact (inv.mark here batch).turn (s := s.mark e.tok) here batch (.inl rfl) rest
    · exact (inv.mark here batch).turn (s := s.mark e.tok) here batch (.inr rfl) rest
    · exact inv.turn here batch (.inl rfl) rest
    · exact inv.turn here batch (.inr rfl) rest
    · exact inv.move s.task (fun _ => rfl) inv.known.task inv.known.quiet rest

theorem Known.loud (known : Known s) (busy : s.calls ≠ [] ∨ s.flushing ≠ none) :
    s.task.quiet = false := by
  by_contra quiet
  obtain ⟨idle, still, -⟩ := known.quiet (Bool.not_eq_false _ ▸ quiet)
  exact busy.elim (absurd idle) (absurd still)

theorem Inv.inTask (inv : Inv impl s) (idle : s.calls = []) (still : s.flushing = none)
    {a : Action} (taken : s.inTask impl a = some t) : Inv impl t := by
  cases a with
  | wait events =>
    obtain ⟨waiting, made⟩ := Option.ite_none_right_eq_some.mp taken
    obtain rfl := Option.some.inj made
    exact inv.move .batch (fun i => by rw [waiting]; rfl) (fun _ its => by cases its)
      (fun quiet => by cases quiet) events
  | waitIntr =>
    obtain ⟨-, made⟩ := Option.ite_none_right_eq_some.mp taken
    exact Option.some.inj made ▸ inv
  | waitFails =>
    obtain ⟨waiting, made⟩ := Option.ite_none_right_eq_some.mp taken
    obtain rfl := Option.some.inj made
    exact inv.move (.exited 1) (fun i => by rw [waiting]; rfl) (fun _ its => by cases its)
      (fun _ => inv.known.quiet (by rw [waiting]; rfl)) s.events
  | event =>
    obtain ⟨batch, made⟩ := Option.ite_none_right_eq_some.mp taken
    exact Option.some.inj made ▸ inv.event idle still batch
  | accept added =>
    obtain ⟨accepting, made⟩ := Option.ite_none_right_eq_some.mp taken
    exact Option.some.inj made ▸ inv.accept idle accepting added
  | acceptFails =>
    obtain ⟨accepting, made⟩ := Option.ite_none_right_eq_some.mp taken
    obtain rfl := Option.some.inj made
    exact inv.move .batch (fun i => by rw [accepting]; rfl) (fun _ its => by cases its)
      (fun quiet => by cases quiet) s.events
  | recv r =>
    cases reading : s.task with
    | reading e =>
      simp only [State.inTask, reading] at taken
      obtain ⟨-, made⟩ := Option.ite_none_right_eq_some.mp taken
      exact inv.recv reading made
    | _ => simp [State.inTask, reading] at taken
  | frame order =>
    cases decoding : s.task with
    | decoding e =>
      simp only [State.inTask, decoding] at taken
      exact inv.frame idle decoding taken
    | _ => simp [State.inTask, decoding] at taken
  | write =>
    cases writing : s.task with
    | writing e =>
      have settled {t : State} (inv : Inv impl t) (same : t.task = .writing e) :
          Inv impl { t with task := .batch } :=
        inv.move .batch (fun i => by rw [same]; rfl) (fun _ its => by cases its)
          (fun quiet => by cases quiet) t.events
      simp only [State.inTask, writing] at taken
      split_ifs at taken with ready
      · obtain ⟨out, step, rfl⟩ := Option.map_eq_some_iff.mp taken
        have loud : s.task.quiet = false := writing ▸ rfl
        have only (k : ℕ) (at' : s.flushing = some k) : k = e.tok := by
          rw [still] at at'
          cases at'
        exact settled (inv.flush ready.1 loud only step rfl) writing
      · exact Option.some.inj taken ▸ settled inv writing
    | _ => simp [State.inTask, writing] at taken
  | queue | send r | leave => cases taken

theorem Inv.step (inv : Inv impl s) {a : Action} (taken : s.step impl a = some t) :
    Inv impl t := by
  rw [State.step] at taken
  cases flushing : s.flushing with
  | some d =>
    simp only [flushing] at taken
    have here := inv.known.flushed d flushing
    have loud := inv.known.loud (.inr (by rw [flushing]; exact Option.some_ne_none d))
    have only (k : ℕ) (at' : s.flushing = some k) : k = d :=
      Option.some.inj (at'.symm.trans flushing)
    cases a with
    | send r | leave =>
      obtain ⟨out, step, rfl⟩ := Option.map_eq_some_iff.mp taken
      exact inv.flush here loud only step rfl
    | _ => cases taken
  | none =>
    simp only [flushing] at taken
    cases calls : s.calls with
    | nil =>
      simp only [calls] at taken
      exact inv.inTask calls flushing taken
    | cons p rest =>
      obtain ⟨d, frame⟩ := p
      simp only [calls] at taken
      have loud := inv.known.loud (.inl (by rw [calls]; exact List.cons_ne_nil _ _))
      cases a with
      | queue =>
        obtain ⟨here, made⟩ := Option.ite_none_right_eq_some.mp taken
        obtain ⟨out, step, rfl⟩ := Option.map_eq_some_iff.mp made
        exact inv.queue here loud flushing calls step
      | _ => cases taken

theorem inv_of_run {acts : List Action} (run : (server impl).run? acts = some s) :
    Inv impl s := by
  refine Machine.run?_keeps ?_ (fun s a t inv (taken : s.step impl a = some t) => ?_) run
  · exact {
      known := {
        unused := fun _ _ => rfl
        old := fun _ absent => absurd absent List.not_mem_nil
        flushing := fun _ => iff_of_false Bool.false_ne_true fun absent => by cases absent
        flushed := fun _ absent => by cases absent
        task := fun _ absent => by cases absent
        quiet := fun _ => ⟨rfl, rfl, fun _ absent => absurd absent List.not_mem_nil⟩ }
      whole := {
        nodup := List.nodup_nil
        there := fun _ absent => absurd absent List.not_mem_nil
        known := fun _ => Nat.le_refl _
        whole := fun _ absent => absurd absent List.not_mem_nil
        gone := fun _ _ => List.nil_prefix }
      right := fun _ => ⟨rfl, rfl, fun _ _ => iff_of_false Bool.false_ne_true fun some => some rfl⟩
      reads := fun _ => .idle (fun _ => rfl) rfl fun some => absurd rfl some
      counted := rfl }
  · exact inv.step taken

/-- There is a step until the server has returned: nothing is asked of a connection that is gone. -/
theorem Inv.exists_step (inv : Inv impl s) (running : ∀ code, s.task ≠ .exited code) :
    ∃ a t, s.step impl a = some t := by
  have idle {d : ℕ} (still : s.flushing = none) : ¬ (s.conn d).out.flushing = true := fun busy => by
    rw [inv.known.flushing, still] at busy
    cases busy
  cases flushing : s.flushing with
  | some d =>
    have busy := (inv.known.flushing d).mpr flushing
    by_cases none : (s.conn d).out.outbuf = []
    · refine ⟨.leave, s.setOut d (s.conn d).out.settle, ?_⟩
      simp [State.step, flushing, State.inFlush, Outbuf.EConn.step, busy, none]
    · refine ⟨.send .intr, s.setOut d (s.conn d).out, ?_⟩
      simp [State.step, flushing, State.inFlush, Outbuf.EConn.step, busy, none]
  | none =>
    cases calls : s.calls with
    | cons p rest =>
      have here : p.1 ∈ s.conns :=
        inv.whole.there p (show p ∈ s.calls from calls ▸ List.mem_cons_self)
      exact ⟨.queue, by simp [State.step, flushing, calls, State.inQueue, here,
        Outbuf.EConn.step, idle flushing]⟩
    | nil =>
      have enabled {a : Action} (taken : ∃ t, s.inTask impl a = some t) :
          ∃ a t, s.step impl a = some t := by
        obtain ⟨t, taken⟩ := taken
        exact ⟨a, t, by rw [State.step, flushing, calls]; exact taken⟩
      cases at' : s.task with
      | waiting => exact enabled (a := .waitIntr) ⟨_, if_pos at'⟩
      | batch => exact enabled (a := .event) ⟨_, if_pos at'⟩
      | accepting => exact enabled (a := .acceptFails) ⟨_, if_pos at'⟩
      | reading e =>
        have here := inv.known.task e (by rw [at']; rfl)
        exact enabled (a := .recv .intr) ⟨s, by simp [State.inTask, at', here, State.recv]⟩
      | decoding e =>
        refine enabled (a := .frame s.conns) ?_
        simp only [State.inTask, at', State.frame]
        cases takeFrame (s.conn e.tok).inbuf with
        | mk found rest =>
          cases found with
          | none => exact ⟨_, rfl⟩
          | some f =>
            simp only
            split_ifs
            · exact ⟨_, rfl⟩
            · exact ⟨_, if_pos (List.Perm.refl _)⟩
            · exact ⟨_, rfl⟩
      | writing e =>
        refine enabled (a := .write) ?_
        simp only [State.inTask, at']
        split_ifs
        · exact ⟨_, by rw [Outbuf.EConn.step, if_neg (idle flushing)]; rfl⟩
        · exact ⟨_, rfl⟩
      | exited code => exact absurd at' (running code)

theorem conns_broadcast {i : ℕ} {front : Bytes} {order : List ℕ}
    (taken : s.broadcast i front order = some t) : t.conns = s.conns ∧ t.peak = s.peak := by
  obtain ⟨-, made⟩ := Option.ite_none_right_eq_some.mp taken
  obtain rfl := Option.some.inj made
  exact ⟨rfl, rfl⟩

theorem conns_frame {order : List ℕ} (taken : s.frame impl e order = some t) :
    t.conns = s.conns ∧ t.peak = s.peak := by
  rw [State.frame] at taken
  cases front : takeFrame (s.conn e.tok).inbuf with
  | mk found rest =>
    simp only [front] at taken
    cases found with
    | none =>
      obtain rfl := Option.some.inj taken
      exact ⟨rfl, rfl⟩
    | some f =>
      simp only at taken
      split_ifs at taken
      · obtain rfl := Option.some.inj taken
        exact ⟨rfl, rfl⟩
      · have kept := conns_broadcast taken
        exact kept
      · obtain rfl := Option.some.inj taken
        exact ⟨rfl, rfl⟩

theorem conns_recv {r : Recv} (taken : s.recv impl e r = some t) :
    t.conns = s.conns ∧ t.peak = s.peak := by
  cases r with
  | data bytes =>
    obtain ⟨-, made⟩ := Option.ite_none_right_eq_some.mp taken
    obtain rfl := Option.some.inj made
    exact ⟨rfl, rfl⟩
  | again | intr =>
    obtain rfl := Option.some.inj taken
    exact ⟨rfl, rfl⟩
  | eof | error =>
    obtain rfl := Option.some.inj taken
    cases impl <;> exact ⟨rfl, rfl⟩

theorem conns_event : s.event.conns.length ≤ s.conns.length ∧ s.event.peak = s.peak := by
  rw [State.event]
  cases s.events with
  | nil => exact ⟨List.length_filter_le _ _, rfl⟩
  | cons e rest =>
    simp only
    split_ifs
    · exact ⟨Nat.le_refl _, rfl⟩
    · exact ⟨List.length_filter_le _ _, rfl⟩
    all_goals exact ⟨Nat.le_refl _, rfl⟩

theorem conns_inTask {a : Action} (taken : s.inTask impl a = some t) :
    t.conns.length ≤ s.conns.length ∧ t.peak = s.peak ∨ t.peak = max s.peak t.conns.length := by
  have unchanged (same : t.conns = s.conns ∧ t.peak = s.peak) :
      t.conns.length ≤ s.conns.length ∧ t.peak = s.peak :=
    ⟨Nat.le_of_eq (congrArg _ same.1), same.2⟩
  cases a with
  | wait _ | waitIntr | waitFails | acceptFails =>
    obtain ⟨-, made⟩ := Option.ite_none_right_eq_some.mp taken
    obtain rfl := Option.some.inj made
    exact .inl ⟨Nat.le_refl _, rfl⟩
  | event =>
    obtain ⟨-, made⟩ := Option.ite_none_right_eq_some.mp taken
    exact .inl (Option.some.inj made ▸ conns_event)
  | accept added =>
    obtain ⟨-, made⟩ := Option.ite_none_right_eq_some.mp taken
    obtain rfl := Option.some.inj made
    cases added with
    | false => exact .inl ⟨Nat.le_refl _, rfl⟩
    | true => exact .inr rfl
  | recv r =>
    cases reading : s.task with
    | reading e =>
      simp only [State.inTask, reading] at taken
      obtain ⟨-, made⟩ := Option.ite_none_right_eq_some.mp taken
      exact .inl (unchanged (conns_recv made))
    | _ => simp [State.inTask, reading] at taken
  | frame order =>
    cases decoding : s.task with
    | decoding e =>
      simp only [State.inTask, decoding] at taken
      exact .inl (unchanged (conns_frame taken))
    | _ => simp [State.inTask, decoding] at taken
  | write =>
    cases writing : s.task with
    | writing e =>
      simp only [State.inTask, writing] at taken
      split_ifs at taken
      · obtain ⟨out, -, rfl⟩ := Option.map_eq_some_iff.mp taken
        exact .inl ⟨Nat.le_refl _, rfl⟩
      · obtain rfl := Option.some.inj taken
        exact .inl ⟨Nat.le_refl _, rfl⟩
    | _ => simp [State.inTask, writing] at taken
  | queue | send r | leave => cases taken

/-- Only accepting a connection raises the peak, and to no more than there are connections. -/
theorem peak_step (below : s.conns.length ≤ s.peak) {a : Action} (taken : s.step impl a = some t) :
    t.peak = max s.peak t.conns.length := by
  have either : t.conns.length ≤ s.conns.length ∧ t.peak = s.peak ∨
      t.peak = max s.peak t.conns.length := by
    rw [State.step] at taken
    cases flushing : s.flushing with
    | some d =>
      simp only [flushing] at taken
      cases a with
      | send r | leave =>
        obtain ⟨out, -, rfl⟩ := Option.map_eq_some_iff.mp taken
        exact .inl ⟨Nat.le_refl _, rfl⟩
      | _ => cases taken
    | none =>
      cases calls : s.calls with
      | nil =>
        simp only [flushing, calls] at taken
        exact conns_inTask taken
      | cons p rest =>
        simp only [flushing, calls] at taken
        cases a with
        | queue =>
          obtain ⟨-, made⟩ := Option.ite_none_right_eq_some.mp taken
          obtain ⟨out, -, rfl⟩ := Option.map_eq_some_iff.mp made
          exact .inl ⟨Nat.le_refl _, rfl⟩
        | _ => cases taken
  omega

end Steps

variable {impl : Impl} {acts : List Action} {s : State}

/-- In every run there is one order of all broadcasts: what is queued for a connection is the
greeting and those since it was accepted, the last of them perhaps still to come, and of that all is
sent or held. A client is broadcast as its decoded frames say, in their order. -/
theorem broadcast_of_run (run : (server impl).run? acts = some s) :
    (∀ d, ∃ frames, (s.conn d).out.sent ++ (s.conn d).out.outbuf = frames.flatten ∧
      frames <+: s.group.due welcome d ∧
      (d ∈ s.conns → frames ++ s.group.owed d = s.group.due welcome d)) ∧
    (∀ i, ∃ late, said impl [0x3F] (framesOf (s.conn i).decoded) = s.sentBy i ++ late ∧
      (s.task.stage i ≠ .decoding → late = [])) ∧
    s.messages = s.log.length % 2 ^ 64 := by
  have inv := inv_of_run run
  refine ⟨fun d => ⟨_, (inv.right d).bytes, inv.whole.given_prefix d, inv.whole.whole d⟩,
    fun i => ?_, inv.counted⟩
  have reads := inv.reads i
  generalize s.task.stage i = stage at reads ⊢
  cases reads with
  | idle told held dead => exact ⟨[], told.whole, fun _ => rfl⟩
  | reading told held => exact ⟨[], told.whole, fun _ => rfl⟩
  | decoding told held none => exact ⟨_, told.whole, fun apart => absurd rfl apart⟩

/-- Two clients connect, and the first sends a message that the second takes a part of. -/
def exchange : List Action :=
  [.wait [{ tok := 0, readable := true }], .event,
    .accept true, .queue, .send (.sent 6), .leave,
    .accept true, .queue, .send (.sent 6), .leave, .acceptFails, .event,
    .wait [{ tok := 2, readable := true }], .event,
    .recv (.data (encode typeMsg [0x62])), .recv .again, .frame [3, 2],
    .queue, .send (.sent 4), .send .again, .queue, .send (.sent 9), .leave,
    .frame [], .write, .event]

theorem broadcast_of_run_exchange : ∃ s, (server .cpp).run? exchange = some s ∧
    s.sentBy 2 = [encode typeDeliver (deliverPayload [0x3F] [0x62])] ∧
    ∃ frames, (s.conn 3).out.sent ++ (s.conn 3).out.outbuf = frames.flatten ∧
      frames <+: s.group.due welcome 3 := by
  obtain ⟨s, run, sent⟩ : ∃ s, (server .cpp).run? exchange = some s ∧
      s.sentBy 2 = [encode typeDeliver (deliverPayload [0x3F] [0x62])] := ⟨_, rfl, rfl⟩
  obtain ⟨frames, bytes, front, -⟩ := (broadcast_of_run run).1 3
  exact ⟨s, run, sent, frames, bytes, front⟩

/-- Whenever the server waits, no connection is dead, EPOLLOUT is registered for those with a
backlog, and all that has come in is decoded and queued for everyone. There is always a next step
until the server returns. -/
theorem waits_of_run (run : (server impl).run? acts = some s) :
    (s.task = .waiting → ∀ d ∈ s.conns, (s.conn d).out.dead = false ∧
      ((s.conn d).out.registered = true ↔ (s.conn d).out.outbuf ≠ []) ∧
      (s.conn d).out.sent ++ (s.conn d).out.outbuf = (s.group.due welcome d).flatten ∧
      (s.conn d).fresh = [] ∧ said impl [0x3F] (framesOf (s.conn d).decoded) = s.sentBy d) ∧
    ((∀ code, s.task ≠ .exited code) → ∃ a t, s.step impl a = some t) := by
  have inv := inv_of_run run
  refine ⟨fun waiting d here => ?_, inv.exists_step⟩
  obtain ⟨idle, still, alive⟩ := inv.known.quiet (by rw [waiting]; rfl)
  have right := inv.right d
  have loop : (s.conn d).out.flushing = false := by
    rw [Bool.eq_false_iff, Ne, inv.known.flushing, still]
    exact fun none => by cases none
  have whole := inv.whole.whole d here
  rw [Multicast.owed_of_idle idle, List.append_nil] at whole
  have reads := inv.reads d
  rw [waiting] at reads
  cases reads with
  | idle told held dead =>
    have fresh : (s.conn d).fresh = [] := by
      by_contra some
      exact Bool.false_ne_true ((alive d here).symm.trans (dead some))
    refine ⟨alive d here, ?_, ?_, fresh, told.whole.trans (List.append_nil _)⟩
    · rw [right.registered]
      exact right.interest loop (alive d here)
    · rw [right.bytes, ← whole]
      rfl

theorem waits_of_run_exchange : ∃ s, (server .cpp).run? exchange = some s ∧
    (s.conn 3).out.outbuf ≠ [] ∧ (s.conn 3).out.registered = true ∧
    (s.conn 2).out.sent ++ (s.conn 2).out.outbuf = (s.group.due welcome 2).flatten := by
  obtain ⟨s, run, waiting, here, backlog⟩ : ∃ s, (server .cpp).run? exchange = some s ∧
      s.task = .waiting ∧ s.conns = [3, 2] ∧ (s.conn 3).out.outbuf ≠ [] :=
    ⟨_, rfl, rfl, rfl, by decide⟩
  have waits := (waits_of_run run).1 waiting
  have second := waits 3 (by rw [here]; decide)
  have first := waits 2 (by rw [here]; decide)
  exact ⟨s, run, backlog, second.2.1.mpr backlog, first.2.2.1⟩

/-- What the server prints at its end are the broadcasts, modulo the counter, and the most
connections there were at once. -/
theorem stopped_of_run (run : (server impl).run? acts = some s) : ∃ peak,
    s.stopped = "chatterd: stopped engine=epoll messages=" ++ toString (s.log.length % 2 ^ 64) ++
      " peak_conns=" ++ toString peak ∧
    IsGreatest {n | ∃ first last u, acts = first ++ last ∧ (server impl).run? first = some u ∧
      u.conns.length = n} peak := by
  have raises (s : State) (a : Action) (t : State) (below : s.conns.length ≤ s.peak)
      (taken : s.step impl a = some t) : t.peak = max s.peak t.conns.length :=
    peak_step below taken
  have greatest := Machine.isGreatest_of_run (fun s : State => s.conns.length) State.peak raises rfl
    run
  refine ⟨s.peak, ?_, greatest⟩
  exact congrArg (fun n => "chatterd: stopped engine=epoll messages=" ++ toString n ++
    " peak_conns=" ++ toString s.peak) (inv_of_run run).counted

theorem stopped_of_run_exchange : ∃ (s : State) (peak : ℕ), (server .cpp).run? exchange = some s ∧
    s.stopped = "chatterd: stopped engine=epoll messages=" ++ toString (s.log.length % 2 ^ 64) ++
      " peak_conns=" ++ toString peak := by
  obtain ⟨s, run⟩ : ∃ s, (server .cpp).run? exchange = some s := ⟨_, rfl⟩
  obtain ⟨peak, printed, -⟩ := stopped_of_run run
  exact ⟨s, peak, run, printed⟩

end LinuxSys.Chatterd.EpollServer
