import LinuxSys.Chatterd.Wire
import LinuxSys.Lib.Machine
import LinuxSys.Lib.Socket

/-! # The threaded C++ server of ch21

One thread serves each client; a broadcast holds the hub's mutex until the frame is written to
every client. SIGINT makes the accept loop stop: it asks every thread to stop, which shuts the
thread's socket down, and joins them, while the threads still announce that their clients left.
-/

namespace LinuxSys.Servers.TcpHub

open Lib Chatterd

def server : Bytes := [0x73, 0x65, 0x72, 0x76, 0x65, 0x72]
def joinedText : Bytes := [0x20, 0x6A, 0x6F, 0x69, 0x6E, 0x65, 0x64]
def leftText : Bytes := [0x20, 0x6C, 0x65, 0x66, 0x74]

def buildDeliver (name text : Bytes) : Bytes := encode typeDeliver (deliverPayload name text)

/-- `Hub::Client`; the descriptor is that of the thread that serves it. -/
structure Client where
  id : ℕ
  name : Bytes
deriving DecidableEq, Repr

/-- Where `serve_client` stands. The last broadcast of a thread announces that its client left. -/
inductive Phase where
  | absent
  | starting
  | reading
  | naming (name : Bytes)
  | ready (frame : Bytes) (except : Option ℕ) (last : Bool)
  | sending (last : Bool)
  | removing
  | done
deriving DecidableEq, Repr

/-- The thread goes on reading from its client. -/
def Phase.serving : Phase → Bool
  | .reading => true
  | .naming _ => true
  | .ready _ _ last => !last
  | .sending last => !last
  | _ => false

/-- The broadcast that holds the mutex: the bytes left for the first target. -/
structure Cast where
  thread : ℕ
  frame : Bytes
  left : Bytes
  targets : List ℕ
deriving DecidableEq, Repr

/-- `cmd_serve`: in its loop, or returning and stopping and joining the threads. -/
inductive Main where
  | loop
  | stopping (code : ℕ) (todo : List ℕ)
deriving DecidableEq, Repr

structure State where
  status : Status := .running
  stop : Bool := false
  main : Main := .loop
  threads : List ℕ := []
  phase : ℕ → Phase := fun _ => .absent
  sock : ℕ → Sock := fun _ => {}
  /-- `my_name` of each thread. -/
  name : ℕ → Bytes := fun _ => []
  clients : List Client := []
  cast : Option Cast := none

inductive Action where
  | sigint
  | disconnect (id : ℕ)
  | accept
  | pollError
  | acceptError
  | spawnError
  | sawStop
  | requestStop (id : ℕ)
  | exit
  | add (id : ℕ)
  | frame (id : ℕ) (f : Frame)
  | readError (id : ℕ)
  | setName (id : ℕ)
  | lock (id : ℕ)
  | write (w : Wrote)
  | unlock
  | remove (id : ℕ)
deriving DecidableEq, Repr

namespace State

def setPhase (s : State) (id : ℕ) (phase : Phase) : State :=
  { s with phase := Function.update s.phase id phase }

/-- A broadcast goes on with the next target. -/
def advance (s : State) (c : Cast) (left : Option Bytes) : State :=
  match left with
  | some (b :: rest) => { s with cast := some { c with left := b :: rest } }
  | _ => { s with cast := some { c with left := c.frame, targets := c.targets.tail } }

end State

/-- What `serve_client` does with a frame. -/
def onFrame (id : ℕ) (name : Bytes) (f : Frame) : Phase :=
  if f.typ = typeJoin then
    if f.payload = [] then .removing else .naming f.payload
  else if f.typ = typeMsg then
    if name = [] then .reading else .ready (buildDeliver name f.payload) (some id) false
  else .reading

/-- After `Hub::remove`: a client that had a name is announced as gone. -/
def afterRemove (name : Bytes) : Phase :=
  if name = [] then .done else .ready (buildDeliver server (name ++ leftText)) none true

/-- What a running server does. -/
def act (s : State) : Action → Option State
  | .sigint => some { s with stop := true }
  | .disconnect id =>
    some { s with sock := Function.update s.sock id { s.sock id with gone := true } }
  | .accept =>
    if s.main = .loop then
      some { s.setPhase s.threads.length .starting with threads := s.threads ++ [s.threads.length] }
    else none
  | .pollError =>
    if s.main = .loop then some { s with main := .stopping 1 s.threads } else none
  | .acceptError =>
    if s.main = .loop then some { s with main := .stopping 1 s.threads } else none
  | .spawnError => if s.main = .loop then some { s with status := .killed } else none
  | .sawStop =>
    if s.main = .loop ∧ s.stop then some { s with main := .stopping 0 s.threads } else none
  | .requestStop id =>
    match s.main with
    | .stopping code todo =>
      if id ∈ todo then
        some { s with
          main := .stopping code (todo.filter (· ≠ id))
          sock := Function.update s.sock id { s.sock id with shut := true } }
      else none
    | .loop => none
  | .exit =>
    match s.main with
    | .stopping code [] =>
      if ∀ id ∈ s.threads, s.phase id = .done then some { s with status := .exited code } else none
    | _ => none
  | .add id =>
    if s.phase id = .starting ∧ s.cast = none then
      some { s.setPhase id .reading with clients := s.clients ++ [⟨id, []⟩] }
    else none
  | .frame id f =>
    if s.phase id = .reading then some (s.setPhase id (onFrame id (s.name id) f)) else none
  | .readError id => if s.phase id = .reading then some (s.setPhase id .removing) else none
  | .setName id =>
    match s.phase id with
    | .naming name =>
      if s.cast = none then
        some { s.setPhase id (.ready (buildDeliver server (name ++ joinedText)) none false) with
          name := Function.update s.name id name
          clients := s.clients.map fun c => if c.id = id then { c with name := name } else c }
      else none
    | _ => none
  | .lock id =>
    match s.phase id with
    | .ready frame except last =>
      if s.cast = none then
        some { s.setPhase id (.sending last) with
          cast := some ⟨id, frame, frame,
            (s.clients.map Client.id).filter fun c => some c ≠ except⟩ }
      else none
    | _ => none
  | .write w =>
    match s.cast with
    | some c =>
      match c.targets with
      | target :: _ =>
        if w.possible (s.sock target) c.left then
          if w = .pipe then some { s with status := .killed }
          else some (s.advance c (w.rest c.left))
        else none
      | [] => none
    | none => none
  | .unlock =>
    match s.cast with
    | some ⟨thread, _, _, []⟩ =>
      match s.phase thread with
      | .sending last =>
        some { s.setPhase thread (if last then .done else .reading) with cast := none }
      | _ => none
    | _ => none
  | .remove id =>
    if s.phase id = .removing ∧ s.cast = none then
      match s.clients.find? fun c => c.id = id with
      | some c =>
        some { s.setPhase id (afterRemove c.name) with
          clients := s.clients.filter fun c => c.id ≠ id }
      | none => some (s.setPhase id .done)
    else none

def step (s : State) (a : Action) : Option State :=
  if s.status = .running then act s a else none

/-- The server listening, before its first client. -/
def tcpHub : Machine State Action where
  init := {}
  step := step

/-- No write to a client that is gone or shut down, and no failing `poll`, `accept` or thread. -/
def spared (s : State) : Action → Bool
  | .write _ =>
    match s.cast with
    | some ⟨_, _, _, target :: _⟩ => !(s.sock target).broken
    | _ => true
  | .pollError => false
  | .acceptError => false
  | .spawnError => false
  | _ => true

/-- The server was not killed, it has exited only because it was asked to, and each client whose
thread goes on is still registered. -/
structure Survives (s : State) : Prop where
  alive : s.status ≠ .killed
  exit : ∀ code, s.status = .exited code → code = 0 ∧ s.stop
  main : ∀ code todo, s.main = .stopping code todo → code = 0 ∧ s.stop
  served : ∀ id, (s.phase id).serving → id ∈ s.clients.map Client.id

namespace Survives

variable {s : State}

theorem init : Survives {} := by
  constructor <;> simp [Phase.serving]

/-- A step of one thread that keeps its client registered as long as it goes on. -/
theorem of_phase (inv : Survives s) {t : State} {id : ℕ} {p : Phase}
    (same : (t.status, t.stop, t.main) = (s.status, s.stop, s.main))
    (phase : t.phase = Function.update s.phase id p)
    (keeps : ∀ c, c ≠ id → c ∈ s.clients.map Client.id → c ∈ t.clients.map Client.id)
    (own : p.serving → id ∈ t.clients.map Client.id) : Survives t := by
  obtain ⟨status, stop, main⟩ : t.status = s.status ∧ t.stop = s.stop ∧ t.main = s.main := by
    simpa using same
  refine ⟨by rw [status]; exact inv.alive, by rw [status, stop]; exact inv.exit,
    by rw [main, stop]; exact inv.main, fun c serving => ?_⟩
  rw [phase, Function.update_apply] at serving
  split at serving
  · next equal =>
    rw [equal]
    exact own serving
  · next different => exact keeps c different (inv.served c serving)

theorem keeps (inv : Survives s) {a : Action} {t : State} (guard : spared s a)
    (taken : step s a = some t) : Survives t := by
  unfold step at taken
  split at taken
  swap
  · cases taken
  cases a <;> simp only [act] at taken
  case sigint =>
    cases taken
    exact ⟨inv.alive, fun code ended => ⟨(inv.exit code ended).1, rfl⟩,
      fun code todo stopping => ⟨(inv.main code todo stopping).1, rfl⟩, inv.served⟩
  case disconnect id =>
    cases taken
    exact ⟨inv.alive, inv.exit, inv.main, inv.served⟩
  case accept =>
    split_ifs at taken
    cases taken
    exact inv.of_phase rfl rfl (fun _ _ member => member) fun impossible => by cases impossible
  case pollError => cases guard
  case acceptError => cases guard
  case spawnError => cases guard
  case sawStop =>
    split_ifs at taken with seen
    cases taken
    refine ⟨inv.alive, inv.exit, ?_, inv.served⟩
    rintro code todo ⟨⟩
    exact ⟨rfl, seen.2⟩
  case requestStop id =>
    split at taken
    · next code todo stopping =>
      split_ifs at taken
      cases taken
      refine ⟨inv.alive, inv.exit, ?_, inv.served⟩
      rintro code' todo' ⟨⟩
      exact inv.main code todo stopping
    · cases taken
  case exit =>
    split at taken
    · next code stopping =>
      split_ifs at taken
      cases taken
      refine ⟨by simp, ?_, inv.main, inv.served⟩
      rintro code' ⟨⟩
      exact inv.main code [] stopping
    · cases taken
  case add id =>
    split_ifs at taken
    cases taken
    refine inv.of_phase rfl rfl (fun c _ member => ?_) fun _ => ?_
    · rw [List.map_append]
      exact List.mem_append_left _ member
    · simp
  case frame id f =>
    split_ifs at taken with reading
    cases taken
    exact inv.of_phase rfl rfl (fun _ _ member => member) fun _ =>
      inv.served id (by rw [reading]; rfl)
  case readError id =>
    split_ifs at taken
    cases taken
    exact inv.of_phase rfl rfl (fun _ _ member => member) fun impossible => by cases impossible
  case setName id =>
    split at taken
    · next name naming =>
      split_ifs at taken
      cases taken
      have ids : (s.clients.map fun c => if c.id = id then { c with name := name } else c).map
          Client.id = s.clients.map Client.id := by
        rw [List.map_map]
        refine List.map_congr_left fun c _ => ?_
        simp only [Function.comp_apply]
        split <;> rfl
      refine inv.of_phase rfl rfl (fun c _ member => ?_) fun _ => ?_
      · exact ids ▸ member
      · exact ids ▸ inv.served id (by rw [naming]; rfl)
    · cases taken
  case lock id =>
    split at taken
    · next frame except last ready =>
      split_ifs at taken
      cases taken
      exact inv.of_phase rfl rfl (fun _ _ member => member) fun serving =>
        inv.served id (by rw [ready]; exact serving)
    · cases taken
  case write w =>
    split at taken
    · next c casting =>
      split at taken
      · next target rest targets =>
        split_ifs at taken with possible failed
        · have whole : (s.sock target).broken = false := by
            obtain ⟨thread, frame, left, all⟩ := c
            cases targets
            simpa [spared, casting] using guard
          exact absurd failed (Wrote.ne_pipe_of_possible possible whole)
        · cases taken
          simp only [State.advance]
          split <;> exact ⟨inv.alive, inv.exit, inv.main, inv.served⟩
      · cases taken
    · cases taken
  case unlock =>
    split at taken
    · next thread _ _ casting =>
      split at taken
      · next last sending =>
        cases taken
        refine inv.of_phase rfl rfl (fun _ _ member => member) fun serving => ?_
        refine inv.served thread ?_
        rw [sending]
        cases last
        · rfl
        · cases serving
      · cases taken
    · cases taken
  case remove id =>
    split_ifs at taken with removing
    split at taken
    · next c found =>
      cases taken
      refine inv.of_phase rfl rfl (fun x different member => ?_) fun serving => ?_
      · obtain ⟨d, inside, rfl⟩ := List.mem_map.mp member
        exact List.mem_map.mpr ⟨d, List.mem_filter.mpr ⟨inside, by simpa using different⟩, rfl⟩
      · unfold afterRemove at serving
        split at serving <;> cases serving
    · cases taken
      exact inv.of_phase rfl rfl (fun _ _ member => member) fun impossible => by cases impossible

end Survives

end LinuxSys.Servers.TcpHub
