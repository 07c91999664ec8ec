import LinuxSys.Chatterd.Wire
import LinuxSys.Lib.Progress
import LinuxSys.Lib.Socket

/-! # The servers with one thread per client

The C++ and Rust servers of ch21 and the threaded engines of ch22. In ch21 a worker registers its
own client and a broadcast holds the mutex of the clients while it writes. In ch22 the accept loop
registers the client before it starts the worker, the worker sends WELCOME, and a broadcast takes
the registered connections under the mutex and then locks each for its own write. The C++ server of
ch21 stops its workers by their stop callbacks; the others shut down every registered socket with
the mutex held, and the Rust engine of ch22 locks each connection for that.
-/

namespace LinuxSys.Servers.Threads

open Lib Chatterd

inductive Design where
  | tcpCpp
  | tcpRust
  | threadedCpp
  | threadedRust
deriving DecidableEq, Repr

/-- The engines of ch22. -/
def Design.threaded : Design → Bool
  | .threadedCpp | .threadedRust => true
  | _ => false

def Design.lang : Design → Lang
  | .tcpCpp | .threadedCpp => .cpp
  | .tcpRust | .threadedRust => .rust

/-- Who holds a mutex. -/
inductive Thread where
  | main
  | worker (i : ℕ)
deriving DecidableEq, Repr

/-- A client's connection. The client may stop reading, close its sending end, or be gone so that
sends fail; `shut` is the server's `shutdown(fd, SHUT_RDWR)`. -/
structure Conn where
  /-- The bytes that sends have taken. -/
  sent : Bytes := []
  stalled : Bool := false
  closed : Bool := false
  reset : Bool := false
  shut : Bool := false
  /-- The worker that holds `wmu`. -/
  writer : Option ℕ := none
  nick : Bytes := []
  /-- A stop was requested of the worker. -/
  asked : Bool := false
deriving DecidableEq, Repr

namespace Conn

def broken (c : Conn) : Bool := c.reset || c.shut

/-- What one `send` of the bytes left can return; on a socket that is not broken it waits while the
client does not read. -/
def allows (c : Conn) (left : Bytes) : Wrote → Bool
  | .count n => 0 < n && n ≤ left.length && !c.stalled && !c.broken
  | .intr => true
  | .pipe => c.broken
  | .error => c.reset

def release (c : Conn) (i : ℕ) : Conn :=
  { c with writer := if c.writer = some i then none else c.writer }

end Conn

/-- Where a worker stands. In ch21 the last broadcast comes after the removal. -/
inductive Phase where
  | absent
  | starting
  | adding
  | welcoming (left : Bytes)
  | reading
  | naming (name : Bytes)
  | asking (text : Bytes)
  | ready (frame : Bytes) (except : Option ℕ) (last : Bool)
  | sending (frame : Bytes) (targets : List ℕ) (last : Bool)
  | writing (frame : Bytes) (target : ℕ) (left : Bytes) (targets : List ℕ) (last : Bool)
  | removing
  | done
deriving DecidableEq, Repr

/-- Where the main thread stands. It is `leaving` when an error made it return: each worker is asked
to stop only once those before it have been joined. -/
inductive Main where
  | polling
  | adding (i : ℕ)
  | spawning (i : ℕ)
  | stopping
  | shutting (todo : List ℕ)
  | joining (todo : List ℕ)
  | leaving (todo : List ℕ)
deriving DecidableEq, Repr

/-- The worker that the main thread has asked to stop and waits for. -/
def Main.next? : Main → Option ℕ
  | .joining todo | .leaving todo => todo.head?
  | _ => none

structure State where
  status : Status := .running
  stop : Bool := false
  main : Main := .polling
  /-- The clients accepted so far; worker `i` serves client `i`. -/
  count : ℕ := 0
  phase : ℕ → Phase := fun _ => .absent
  conn : ℕ → Conn := fun _ => {}
  /-- The clients in `clients_`, `clients`, `conns_` or `conns`. -/
  registry : List ℕ := []
  /-- Who holds their mutex. -/
  hub : Option Thread := none

inductive Action where
  | sigint
  | stall (c : ℕ)
  | resume (c : ℕ)
  | close (c : ℕ)
  | reset (c : ℕ)
  | accept
  | acceptError
  | cloneError
  | pollError
  | register
  | spawn
  | spawnError
  | sawStop
  | lockAll (order : List ℕ)
  | shut
  | join
  | start (i : ℕ)
  | startError (i : ℕ)
  | add (i : ℕ)
  | write (i : ℕ) (w : Wrote)
  | frame (i : ℕ) (f : Frame)
  | foreign (i : ℕ)
  | eof (i : ℕ)
  | sawRequest (i : ℕ)
  | name (i : ℕ)
  | ask (i : ℕ)
  | lock (i : ℕ) (order : List ℕ)
  | next (i : ℕ)
  | finish (i : ℕ)
  | remove (i : ℕ)
deriving DecidableEq, Repr

def buildDeliver (name text : Bytes) : Bytes := encode typeDeliver (deliverPayload name text)

def welcome : Bytes := encode typeWelcome []

/-- The nick of a client that has not joined. -/
def Design.noNick (d : Design) : Bytes := if d.threaded then ascii "?" else []

/-- What a worker does with a frame. -/
def onFrame (d : Design) (i : ℕ) (nick : Bytes) (f : Frame) : Phase :=
  if d.threaded then
    if f.typ = typeJoin then .naming f.payload
    else if f.typ = typeMsg then .asking f.payload
    else .reading
  else
    if f.typ = typeJoin then
      if f.payload = [] then .removing else .naming f.payload
    else if f.typ = typeMsg then
      if nick = [] then .reading
      else .ready (buildDeliver nick (d.lang.text f.payload)) (some i) false
    else .reading

/-- After a JOIN has set the nick: in ch21 it is announced. -/
def afterName (d : Design) (nick : Bytes) : Phase :=
  if d.threaded then .reading
  else .ready (buildDeliver (ascii "server") (nick ++ ascii " joined")) none false

/-- After the removal: in ch21 a client that had a name is announced as gone. -/
def afterRemove (d : Design) (nick : Bytes) : Phase :=
  if d.threaded then .done
  else if nick = [] then .done
  else .ready (buildDeliver (ascii "server") (nick ++ ascii " left")) none true

namespace Phase

/-- The client a worker is writing to, and the bytes left. -/
def target (i : ℕ) : Phase → Option (ℕ × Bytes)
  | .welcoming left => some (i, left)
  | .writing _ c left _ _ => some (c, left)
  | _ => none

/-- The write loop goes on with what is left, or is over. -/
def wrote (left : Option Bytes) : Phase → Phase
  | .welcoming _ =>
    match left with
    | some (b :: rest) => .welcoming (b :: rest)
    | _ => .reading
  | .writing frame c _ targets last =>
    match left with
    | some (b :: rest) => .writing frame c (b :: rest) targets last
    | _ => .sending frame targets last
  | p => p

end Phase

/-- The bytes that a `send` took. -/
def taken (left : Bytes) : Wrote → Bytes
  | .count n => left.take n
  | _ => []

namespace State

def setPhase (s : State) (i : ℕ) (phase : Phase) : State :=
  { s with phase := Function.update s.phase i phase }

def setConn (s : State) (c : ℕ) (conn : Conn) : State :=
  { s with conn := Function.update s.conn c conn }

/-- `request_stop` on a worker's thread; in ch21 its stop callback, once there is one, shuts the
socket down. -/
def request (s : State) (d : Design) (i : ℕ) : State :=
  s.setConn i { s.conn i with
    asked := true
    shut := (s.conn i).shut || (d = .tcpCpp && s.phase i ≠ .starting && s.phase i ≠ .done) }

/-- The destructor of the vector of threads, from this thread on. -/
def leave (s : State) (d : Design) : List ℕ → State
  | [] => { s with status := .exited 1 }
  | i :: rest => { s.request d i with main := .leaving (i :: rest) }

/-- One call of the write loop: `send` took some bytes, and the lock is released at the end. -/
def wrote (s : State) (i c : ℕ) (left : Bytes) (w : Wrote) : State :=
  let conn := { s.conn c with sent := (s.conn c).sent ++ taken left w }
  let phase := (s.phase i).wrote (w.rest left)
  (s.setPhase i phase).setConn c (if (phase.target i).isSome then conn else conn.release i)

/-- Nobody else holds the mutex under which a nick is set. -/
def namable (d : Design) (s : State) (i : ℕ) : Bool :=
  match d with
  | .threadedCpp => (s.conn i).writer.isNone
  | .threadedRust => true
  | _ => s.hub.isNone

/-- What a running server does. -/
def act (d : Design) (s : State) : Action → Option State
  | .sigint => some { s with stop := true }
  | .stall c => some (s.setConn c { s.conn c with stalled := true })
  | .resume c => some (s.setConn c { s.conn c with stalled := false })
  | .close c => some (s.setConn c { s.conn c with closed := true })
  | .reset c => some (s.setConn c { s.conn c with closed := true, reset := true })
  | .accept =>
    if s.main = .polling then
      some { s.setConn s.count { nick := d.noNick } with
        count := s.count + 1
        main := if d.threaded then .adding s.count else .spawning s.count }
    else none
  | .acceptError =>
    if s.main = .polling then
      match d with
      | .tcpCpp => some (s.leave d (List.range s.count))
      | .tcpRust => some { s with status := .exited 1 }
      | _ => some s
    else none
  | .cloneError =>
    if s.main = .polling ∧ d = .threadedRust then some { s with status := .exited 1 } else none
  | .pollError =>
    if s.main = .polling then
      match d with
      | .tcpRust => none
      | .threadedRust => some { s with status := .exited 1 }
      | _ => some (s.leave d (List.range s.count))
    else none
  | .register =>
    match s.main with
    | .adding i =>
      if s.hub = none then some { s with registry := s.registry ++ [i], main := .spawning i }
      else none
    | _ => none
  | .spawn =>
    match s.main with
    | .spawning i => some { s.setPhase i .starting with main := .polling }
    | _ => none
  | .spawnError =>
    match s.main with
    | .spawning _ =>
      some { s with status := if d.lang = .rust then .exited 101 else .killed }
    | _ => none
  | .sawStop =>
    if s.main = .polling ∧ s.stop then
      some { s with main := if d = .tcpCpp then .shutting (List.range s.count) else .stopping }
    else none
  | .lockAll order =>
    if s.main = .stopping ∧ s.hub = none ∧ order.Perm s.registry then
      some { s with hub := some .main, main := .shutting order }
    else none
  | .shut =>
    match s.main with
    | .shutting [] =>
      some { s with
        hub := if d = .tcpCpp then s.hub else none, main := .joining (List.range s.count) }
    | .shutting (c :: rest) =>
      if d = .tcpCpp then some { s.request d c with main := .shutting rest }
      else if d = .threadedRust ∧ (s.conn c).writer ≠ none then none
      else some { s.setConn c { s.conn c with shut := true } with main := .shutting rest }
    | _ => none
  | .join =>
    match s.main with
    | .joining [] => some { s with status := .exited 0 }
    | .joining (i :: rest) =>
      if s.phase i = .done then some { s with main := .joining rest } else none
    | .leaving (i :: rest) => if s.phase i = .done then some (s.leave d rest) else none
    | _ => none
  | .start i =>
    if s.phase i = .starting then
      match d with
      | .tcpCpp => some ((s.setPhase i .adding).setConn i { s.conn i with
          shut := (s.conn i).shut || (s.conn i).asked })
      | .tcpRust => some (s.setPhase i .adding)
      | .threadedCpp => some (s.setPhase i (.welcoming welcome))
      | .threadedRust =>
        if (s.conn i).writer = none then
          some ((s.setPhase i (.welcoming welcome)).setConn i
            { s.conn i with writer := some i })
        else none
    else none
  | .startError i =>
    if s.phase i = .starting ∧ d = .tcpRust then some (s.setPhase i .done) else none
  | .add i =>
    if s.phase i = .adding ∧ s.hub = none then
      some { s.setPhase i .reading with registry := s.registry ++ [i] }
    else none
  | .write i w =>
    match (s.phase i).target i with
    | some (c, left) =>
      if (s.conn c).allows left w then
        if d = .tcpCpp ∧ w = .pipe then some { s with status := .killed }
        else some (s.wrote i c left w)
      else none
    | none => none
  | .frame i f =>
    if s.phase i = .reading ∧ f.payload.length < 65536 then
      some (s.setPhase i (onFrame d i (s.conn i).nick f))
    else none
  | .foreign i =>
    if s.phase i = .reading ∧ d.threaded = false then some (s.setPhase i .removing) else none
  | .eof i =>
    if s.phase i = .reading ∧ ((s.conn i).closed ∨ (s.conn i).broken) then
      some (s.setPhase i .removing)
    else none
  | .sawRequest i =>
    if s.phase i = .reading ∧ d = .threadedCpp ∧ s.main.next? = some i then
      some (s.setPhase i .removing)
    else none
  | .name i =>
    match s.phase i with
    | .naming name =>
      if s.namable d i then
        some ((s.setPhase i (afterName d (d.lang.text name))).setConn i
          { s.conn i with nick := d.lang.text name })
      else none
    | _ => none
  | .ask i =>
    match s.phase i with
    | .asking text =>
      if d = .threadedCpp ∧ (s.conn i).writer ≠ none then none
      else some (s.setPhase i (.ready (buildDeliver (s.conn i).nick text) none false))
    | _ => none
  | .lock i order =>
    match s.phase i with
    | .ready frame except last =>
      if s.hub = none ∧ order.Perm (s.registry.filter fun c => except ≠ some c) then
        some { s.setPhase i (.sending frame order last) with
          hub := if d.threaded then none else some (.worker i) }
      else none
    | _ => none
  | .next i =>
    match s.phase i with
    | .sending frame (c :: rest) last =>
      if d.threaded then
        if (s.conn c).writer = none then
          some ((s.setPhase i (.writing frame c frame rest last)).setConn c
            { s.conn c with writer := some i })
        else none
      else some (s.setPhase i (.writing frame c frame rest last))
    | _ => none
  | .finish i =>
    match s.phase i with
    | .sending _ [] last =>
      some { s.setPhase i (if last then .done else .reading) with
        hub := if d.threaded then s.hub else none }
    | _ => none
  | .remove i =>
    if s.phase i = .removing ∧ s.hub = none then
      some { s.setPhase i (afterRemove d (s.conn i).nick) with
        registry := s.registry.filter (· ≠ i) }
    else none

end State

def server (d : Design) : Machine State Action where
  init := {}
  step s a := if s.status = .running then s.act d a else none

/-- What a worker may do next after reading. -/
inductive Design.After (d : Design) : Phase → Prop
  | reading : d.After .reading
  | naming (name : Bytes) : d.After (.naming name)
  | asking (text : Bytes) : d.threaded = true → d.After (.asking text)
  | ready (frame : Bytes) (except : Option ℕ) : d.threaded = false →
      d.After (.ready frame except false)
  | removing : d.After .removing

/-- What each action does, and where. -/
inductive Effect (d : Design) (s : State) : Action → State → Prop
  | sigint : Effect d s .sigint { s with stop := true }
  | client {a : Action} {c : ℕ} (stalled closed reset : Bool)
      (stalls : stalled = true → a = .stall c ∨ (s.conn c).stalled = true)
      (resets : (s.conn c).reset = true → reset = true) :
      Effect d s a (s.setConn c { s.conn c with stalled, closed, reset })
  | ended {a : Action} {status : Status} (ended : status ≠ .running) :
      Effect d s a { s with status }
  | refused {a : Action} : Effect d s a s
  | accept (main : s.main = .polling) : Effect d s .accept
      { s.setConn s.count { nick := d.noNick } with
        count := s.count + 1
        main := if d.threaded then .adding s.count else .spawning s.count }
  | register {i : ℕ} (main : s.main = .adding i) (free : s.hub = none) :
      Effect d s .register { s with registry := s.registry ++ [i], main := .spawning i }
  | spawn {i : ℕ} (main : s.main = .spawning i) :
      Effect d s .spawn { s.setPhase i .starting with main := .polling }
  | sawStop (main : s.main = .polling) (stop : s.stop = true) : Effect d s .sawStop
      { s with main := if d = .tcpCpp then .shutting (List.range s.count) else .stopping }
  | lockAll {order : List ℕ} (main : s.main = .stopping) (free : s.hub = none)
      (perm : order.Perm s.registry) :
      Effect d s (.lockAll order) { s with hub := some .main, main := .shutting order }
  | request {c : ℕ} {rest : List ℕ} (main : s.main = .shutting (c :: rest)) (cpp : d = .tcpCpp) :
      Effect d s .shut { s.request d c with main := .shutting rest }
  | shut {c : ℕ} {rest : List ℕ} (main : s.main = .shutting (c :: rest)) (other : d ≠ .tcpCpp)
      (free : d = .threadedRust → (s.conn c).writer = none) :
      Effect d s .shut { s.setConn c { s.conn c with shut := true } with main := .shutting rest }
  | release (main : s.main = .shutting []) : Effect d s .shut { s with
      hub := if d = .tcpCpp then s.hub else none, main := .joining (List.range s.count) }
  | joined {i : ℕ} {rest : List ℕ} (main : s.main = .joining (i :: rest))
      (done : s.phase i = .done) : Effect d s .join { s with main := .joining rest }
  | leave {a : Action} {i : ℕ} {rest : List ℕ}
      (because : (a = .acceptError ∧ d = .tcpCpp ∨ a = .pollError ∧ d.lang = .cpp) ∧
        s.main = .polling ∧ i :: rest = List.range s.count ∨
        ∃ j, s.main = .leaving (j :: i :: rest)) :
      Effect d s a { s.request d i with main := .leaving (i :: rest) }
  | move {a : Action} {i : ℕ} {p : Phase} (here : s.phase i = .reading) (after : d.After p) :
      Effect d s a (s.setPhase i p)
  | ask {i : ℕ} {text : Bytes} (here : s.phase i = .asking text) :
      Effect d s (.ask i) (s.setPhase i (.ready (buildDeliver (s.conn i).nick text) none false))
  | name {i : ℕ} {name : Bytes} (here : s.phase i = .naming name) (nick : Bytes) :
      Effect d s (.name i) ((s.setPhase i (afterName d nick)).setConn i { s.conn i with nick })
  | startTcp {i : ℕ} (here : s.phase i = .starting) (tcp : d.threaded = false) (shut : Bool)
      (asked : shut = ((s.conn i).shut || (d = .tcpCpp && (s.conn i).asked))) :
      Effect d s (.start i) ((s.setPhase i .adding).setConn i { s.conn i with shut })
  | startError {i : ℕ} (here : s.phase i = .starting) (rust : d = .tcpRust) :
      Effect d s (.startError i) (s.setPhase i .done)
  | startCpp {i : ℕ} (here : s.phase i = .starting) (cpp : d = .threadedCpp) :
      Effect d s (.start i) (s.setPhase i (.welcoming welcome))
  | startRust {i : ℕ} (here : s.phase i = .starting) (rust : d = .threadedRust)
      (free : (s.conn i).writer = none) : Effect d s (.start i)
      ((s.setPhase i (.welcoming welcome)).setConn i { s.conn i with writer := some i })
  | add {i : ℕ} (here : s.phase i = .adding) (free : s.hub = none) :
      Effect d s (.add i) { s.setPhase i .reading with registry := s.registry ++ [i] }
  | write {i c : ℕ} {left : Bytes} {w : Wrote} (here : (s.phase i).target i = some (c, left))
      (allowed : (s.conn c).allows left w = true) : Effect d s (.write i w) (s.wrote i c left w)
  | lock {i : ℕ} {order : List ℕ} {frame : Bytes} {except : Option ℕ} {last : Bool}
      (here : s.phase i = .ready frame except last) (free : s.hub = none)
      (perm : order.Perm (s.registry.filter fun c => except ≠ some c)) :
      Effect d s (.lock i order) { s.setPhase i (.sending frame order last) with
        hub := if d.threaded then none else some (.worker i) }
  | nextTcp {i c : ℕ} {frame : Bytes} {rest : List ℕ} {last : Bool}
      (here : s.phase i = .sending frame (c :: rest) last) (tcp : d.threaded = false) :
      Effect d s (.next i) (s.setPhase i (.writing frame c frame rest last))
  | next {i c : ℕ} {frame : Bytes} {rest : List ℕ} {last : Bool}
      (here : s.phase i = .sending frame (c :: rest) last) (threaded : d.threaded = true)
      (free : (s.conn c).writer = none) : Effect d s (.next i)
      ((s.setPhase i (.writing frame c frame rest last)).setConn c
        { s.conn c with writer := some i })
  | finish {i : ℕ} {frame : Bytes} {last : Bool} (here : s.phase i = .sending frame [] last) :
      Effect d s (.finish i) { s.setPhase i (if last then .done else .reading) with
        hub := if d.threaded then s.hub else none }
  | remove {i : ℕ} (here : s.phase i = .removing) (free : s.hub = none) :
      Effect d s (.remove i) { s.setPhase i (afterRemove d (s.conn i).nick) with
        registry := s.registry.filter (· ≠ i) }

theorem after_onFrame (d : Design) (i : ℕ) (nick : Bytes) (f : Frame) :
    d.After (onFrame d i nick f) := by
  unfold onFrame
  split_ifs with threaded
  · exact .naming _
  · exact .asking _ threaded
  · exact .reading
  · exact .removing
  · exact .naming _
  · exact .reading
  · exact .ready _ _ (by simpa using threaded)
  · exact .reading

/-- A client changes, but only as clients do. -/
theorem Effect.client_of_eq {d : Design} {s : State} {a : Action} {c : ℕ} {v : Conn}
    (same : v = { s.conn c with stalled := v.stalled, closed := v.closed, reset := v.reset })
    (stalls : v.stalled = true → a = .stall c ∨ (s.conn c).stalled = true)
    (resets : (s.conn c).reset = true → v.reset = true) : Effect d s a (s.setConn c v) := by
  rw [same]
  exact .client _ _ _ stalls resets

theorem effect_leave {d : Design} {s : State} {a : Action} {todo : List ℕ}
    (because : (a = .acceptError ∧ d = .tcpCpp ∨ a = .pollError ∧ d.lang = .cpp) ∧
      s.main = .polling ∧ todo = List.range s.count ∨ ∃ j, s.main = .leaving (j :: todo)) :
    Effect d s a (s.leave d todo) := by
  cases todo with
  | nil => exact .ended (by simp)
  | cons i rest => exact .leave because

theorem effect_of_act {d : Design} {s t : State} {a : Action} (taken : s.act d a = some t) :
    Effect d s a t := by
  cases a with
  | sigint =>
    cases taken
    exact .sigint
  | stall c =>
    cases taken
    exact .client_of_eq rfl (fun _ => .inl rfl) fun broken => broken
  | resume c =>
    cases taken
    exact .client_of_eq rfl (fun stalled => by cases stalled) fun broken => broken
  | close c =>
    cases taken
    exact .client_of_eq rfl (fun stalled => .inr stalled) fun broken => broken
  | reset c =>
    cases taken
    exact .client_of_eq rfl (fun stalled => .inr stalled) fun _ => rfl
  | accept =>
    simp only [State.act, Option.ite_none_right_eq_some] at taken
    obtain ⟨main, made⟩ := taken
    cases made
    exact .accept main
  | acceptError =>
    simp only [State.act, Option.ite_none_right_eq_some] at taken
    obtain ⟨main, made⟩ := taken
    split at made
    · cases made
      exact effect_leave (.inl ⟨.inl ⟨rfl, rfl⟩, main, rfl⟩)
    · cases made
      exact .ended (by simp)
    · cases made
      exact .refused
  | cloneError =>
    simp only [State.act, Option.ite_none_right_eq_some] at taken
    obtain ⟨-, made⟩ := taken
    cases made
    exact .ended (by simp)
  | pollError =>
    simp only [State.act, Option.ite_none_right_eq_some] at taken
    obtain ⟨main, made⟩ := taken
    cases d with
    | tcpRust => cases made
    | threadedRust =>
      cases made
      exact .ended (by simp)
    | tcpCpp =>
      cases made
      exact effect_leave (.inl ⟨.inr ⟨rfl, rfl⟩, main, rfl⟩)
    | threadedCpp =>
      cases made
      exact effect_leave (.inl ⟨.inr ⟨rfl, rfl⟩, main, rfl⟩)
  | register =>
    simp only [State.act] at taken
    split at taken
    · next i main =>
      rw [Option.ite_none_right_eq_some] at taken
      obtain ⟨free, made⟩ := taken
      cases made
      exact .register main free
    · cases taken
  | spawn =>
    simp only [State.act] at taken
    split at taken
    · next i main =>
      cases taken
      exact .spawn main
    · cases taken
  | spawnError =>
    simp only [State.act] at taken
    split at taken
    · cases taken
      refine .ended ?_
      split_ifs <;> simp
    · cases taken
  | sawStop =>
    simp only [State.act, Option.ite_none_right_eq_some] at taken
    obtain ⟨⟨main, stop⟩, made⟩ := taken
    cases made
    exact .sawStop main stop
  | lockAll order =>
    simp only [State.act, Option.ite_none_right_eq_some] at taken
    obtain ⟨⟨main, free, perm⟩, made⟩ := taken
    cases made
    exact .lockAll main free perm
  | shut =>
    simp only [State.act] at taken
    split at taken
    · next main =>
      cases taken
      exact .release main
    · next c rest main =>
      split_ifs at taken with cpp held
      · cases taken
        exact .request main cpp
      · cases taken
        exact .shut main cpp fun rust => not_not.mp fun held' => held ⟨rust, held'⟩
    · cases taken
  | join =>
    simp only [State.act] at taken
    split at taken
    · cases taken
      exact .ended (by simp)
    · next i rest main =>
      rw [Option.ite_none_right_eq_some] at taken
      obtain ⟨done, made⟩ := taken
      cases made
      exact .joined main done
    · next i rest main =>
      rw [Option.ite_none_right_eq_some] at taken
      obtain ⟨-, made⟩ := taken
      cases made
      exact effect_leave (.inr ⟨i, main⟩)
    · cases taken
  | start i =>
    simp only [State.act, Option.ite_none_right_eq_some] at taken
    obtain ⟨here, made⟩ := taken
    cases d with
    | tcpCpp =>
      cases made
      exact .startTcp here rfl _ (by simp)
    | tcpRust =>
      have same : s.setPhase i .adding =
          (s.setPhase i .adding).setConn i { s.conn i with shut := (s.conn i).shut } := by
        rw [State.setConn]
        simp [State.setPhase]
      cases made
      rw [same]
      exact .startTcp here rfl _ (by simp)
    | threadedCpp =>
      cases made
      exact .startCpp here rfl
    | threadedRust =>
      rw [Option.ite_none_right_eq_some] at made
      obtain ⟨free, made⟩ := made
      cases made
      exact .startRust here rfl free
  | startError i =>
    simp only [State.act, Option.ite_none_right_eq_some] at taken
    obtain ⟨⟨here, rust⟩, made⟩ := taken
    cases made
    exact .startError here rust
  | add i =>
    simp only [State.act, Option.ite_none_right_eq_some] at taken
    obtain ⟨⟨here, free⟩, made⟩ := taken
    cases made
    exact .add here free
  | write i w =>
    simp only [State.act] at taken
    split at taken
    · next c left here =>
      rw [Option.ite_none_right_eq_some] at taken
      obtain ⟨allowed, made⟩ := taken
      split_ifs at made
      · cases made
        exact .ended (by simp)
      · cases made
        exact .write here allowed
    · cases taken
  | frame i f =>
    simp only [State.act, Option.ite_none_right_eq_some] at taken
    obtain ⟨⟨here, -⟩, made⟩ := taken
    cases made
    exact .move here (after_onFrame d i _ f)
  | foreign i =>
    simp only [State.act, Option.ite_none_right_eq_some] at taken
    obtain ⟨⟨here, -⟩, made⟩ := taken
    cases made
    exact .move here .removing
  | eof i =>
    simp only [State.act, Option.ite_none_right_eq_some] at taken
    obtain ⟨⟨here, -⟩, made⟩ := taken
    cases made
    exact .move here .removing
  | sawRequest i =>
    simp only [State.act, Option.ite_none_right_eq_some] at taken
    obtain ⟨⟨here, -⟩, made⟩ := taken
    cases made
    exact .move here .removing
  | name i =>
    simp only [State.act] at taken
    split at taken
    · next name here =>
      rw [Option.ite_none_right_eq_some] at taken
      obtain ⟨-, made⟩ := taken
      cases made
      exact .name here _
    · cases taken
  | ask i =>
    simp only [State.act] at taken
    split at taken
    · next text here =>
      rw [Option.ite_none_left_eq_some] at taken
      obtain ⟨-, made⟩ := taken
      cases made
      exact .ask here
    · cases taken
  | lock i order =>
    simp only [State.act] at taken
    split at taken
    · next frame except last here =>
      rw [Option.ite_none_right_eq_some] at taken
      obtain ⟨⟨free, perm⟩, made⟩ := taken
      cases made
      exact .lock here free perm
    · cases taken
  | next i =>
    simp only [State.act] at taken
    split at taken
    · next frame c rest last here =>
      split_ifs at taken with threaded free
      · cases taken
        exact .next here threaded free
      · cases taken
        exact .nextTcp here (by simpa using threaded)
    · cases taken
  | finish i =>
    simp only [State.act] at taken
    split at taken
    · next frame last here =>
      cases taken
      exact .finish here
    · cases taken
  | remove i =>
    simp only [State.act, Option.ite_none_right_eq_some] at taken
    obtain ⟨⟨here, free⟩, made⟩ := taken
    cases made
    exact .remove here free

end LinuxSys.Servers.Threads
