import LinuxSys.Fleet.FdReuse
import LinuxSys.Lib.Socket

/-! # The C++ chatterd process of the fleet

The process whose threads `FdReuse` follows, with what ends it: SIGINT and SIGTERM set a flag that
makes `serve` return, which destroys the hub while the detached client threads still run, and the
process exits when `main` returns. Writes go to clients, and to the peer for the worker's JOIN.
-/

namespace LinuxSys.Servers.FleetNode

open Lib Chatterd Fleet

/-- `serve` is in its accept loop, or has returned. -/
inductive Main where
  | loop
  | returned (code : ℕ)
deriving DecidableEq, Repr

structure State where
  status : Status := .running
  sig : Bool := false
  main : Main := .loop
  node : FdReuse.State := {}
  sock : FdReuse.Socket → Sock := fun _ => {}
  /-- What the worker still has to write of the JOIN on its new connection. -/
  join : Option Bytes := none

inductive Action where
  | signal
  | disconnect (socket : FdReuse.Socket)
  | node (a : FdReuse.Action)
  | write (k : FdReuse.Thread) (w : Wrote)
  | writeJoin (w : Wrote)
  | sawSignal
  | pollError
  | spawnError
  | exit
deriving DecidableEq, Repr

/-- The steps that use the hub. -/
def usesHub : FdReuse.Action → Bool
  | .join .. => true
  | .msg .. => true
  | .relay .. => true
  | .leave _ => true
  | _ => false

/-- The first frame of the worker's connection. -/
def joinFrame (localNode : Bytes) : Frame := ⟨typeJoin, bridgeNick localNode⟩

/-- A step of one of the threads. -/
def moved (s : State) (a : FdReuse.Action) : Option State :=
  (FdReuse.step s.node a).map fun n => { s with node := n }

/-- The steps of the threads; a thread that uses the hub after `serve` returned uses a destroyed
object, which is taken to crash the process. -/
def actNode (localNode : Bytes) (s : State) (a : FdReuse.Action) : Option State :=
  if s.main ≠ .loop ∧ usesHub a then some { s with status := .killed }
  else match a with
  | .write .. => none
  | .accept fd => if s.main = .loop then moved s (.accept fd) else none
  | .dial fd =>
    match writeFrame (joinFrame localNode) with
    | .ok bytes =>
      (FdReuse.step s.node (.dial fd)).map fun n => { s with node := n, join := some bytes }
    | .error _ => none
  | .relay nick text => if s.join = none then moved s (.relay nick text) else none
  | .drop => if s.join = none then moved s .drop else none
  | a => moved s a

def act (localNode : Bytes) (s : State) : Action → Option State
  | .signal => some { s with sig := true }
  | .disconnect socket =>
    some { s with sock := Function.update s.sock socket { s.sock socket with gone := true } }
  | .node a => actNode localNode s a
  | .write k w =>
    match (s.node.job k).current with
    | some (c, left) =>
      match s.node.table c.fd with
      | some socket =>
        if w.possible (s.sock socket) left then
          match w with
          | .count n => moved s (.write k n)
          | .intr => some s
          | .pipe => some { s with status := .killed }
          | .error => moved s (.fail k)
        else none
      | none => moved s (.fail k)
    | none => none
  | .writeJoin w =>
    match s.join, s.node.link with
    | some left, some (id, _) =>
      if w.possible (s.sock (.dialed id)) left then
        match w with
        | .count n => some { s with join := if left.drop n = [] then none else some (left.drop n) }
        | .intr => some s
        | .pipe => some { s with status := .killed }
        | .error =>
          (FdReuse.step s.node .drop).map fun n => { s with node := n, join := none }
      else none
    | _, _ => none
  | .sawSignal => if s.main = .loop ∧ s.sig then some { s with main := .returned 0 } else none
  | .pollError => if s.main = .loop then some { s with main := .returned 1 } else none
  | .spawnError => if s.main = .loop then some { s with status := .killed } else none
  | .exit =>
    match s.main with
    | .returned code => some { s with status := .exited code }
    | .loop => none

def step (localNode : Bytes) (s : State) (a : Action) : Option State :=
  if s.status = .running then act localNode s a else none

/-- The process listening, before its first connection. -/
def fleetNode (localNode : Bytes) : Machine State Action where
  init := {}
  step := step localNode

/-- No write to a peer that is gone, no use of the hub after `serve` returned, and no failing
`poll` or thread. -/
def spared (s : State) : Action → Bool
  | .write k _ =>
    match (s.node.job k).current with
    | some (c, _) =>
      match s.node.table c.fd with
      | some socket => !(s.sock socket).broken
      | none => true
    | none => true
  | .writeJoin _ =>
    match s.node.link with
    | some (id, _) => !(s.sock (.dialed id)).broken
    | none => true
  | .node a => !usesHub a || s.main = .loop
  | .pollError => false
  | .spawnError => false
  | _ => true

/-- Each client whose handler goes on is registered. -/
def Served (n : FdReuse.State) : Prop := ∀ c, n.phase c = .serving → c ∈ n.hub.clients

/-- The process was not killed, it has exited only because it was asked to, and each client whose
handler goes on is still registered. -/
structure Survives (s : State) : Prop where
  alive : s.status ≠ .killed
  exit : ∀ code, s.status = .exited code → code = 0 ∧ s.sig
  main : ∀ code, s.main = .returned code → code = 0 ∧ s.sig
  served : Served s.node

theorem Served.of_phase {n m : FdReuse.State} (inv : Served n) {c : FdReuse.Client} {p : Phase}
    (phase : m.phase = Function.update n.phase c p)
    (keeps : ∀ x, x ≠ c → x ∈ n.hub.clients → x ∈ m.hub.clients)
    (own : p = .serving → c ∈ m.hub.clients) : Served m := by
  intro x serving
  rw [phase, Function.update_apply] at serving
  split at serving
  · next same =>
    rw [same]
    exact own serving
  · next different => exact keeps x different (inv x serving)

theorem Served.keeps {n m : FdReuse.State} (inv : Served n) {a : FdReuse.Action}
    (taken : FdReuse.step n a = some m) : Served m := by
  cases FdReuse.effect_of_step taken with
  | accept =>
    exact inv.of_phase rfl (fun _ _ member => member) fun impossible => by cases impossible
  | join =>
    apply inv.of_phase rfl
    · exact fun x _ member => Hub.mem_add.mpr (.inl member)
    · exact fun _ => Hub.mem_add.mpr (.inr rfl)
  | refuse =>
    exact inv.of_phase rfl (fun _ _ member => member) fun impossible => by cases impossible
  | leave =>
    apply inv.of_phase rfl
    · exact fun x different member => Hub.mem_remove.mpr ⟨member, different⟩
    · exact fun impossible => by cases impossible
  | close =>
    exact inv.of_phase rfl (fun _ _ member => member) fun impossible => by cases impossible
  | msg => exact inv
  | relay => exact inv
  | lock => exact inv
  | write => exact inv
  | fail => exact inv
  | done => exact inv
  | dial => exact inv
  | drop => exact inv

namespace Survives

variable {localNode : Bytes} {s : State}

theorem init : Survives {} := by
  constructor <;> simp [Served]

/-- A step of a thread that ends nothing. -/
theorem of_node (inv : Survives s) {a : FdReuse.Action} {n : FdReuse.State} {join : Option Bytes}
    (taken : FdReuse.step s.node a = some n) : Survives { s with node := n, join := join } :=
  ⟨inv.alive, inv.exit, inv.main, inv.served.keeps taken⟩

theorem of_moved (inv : Survives s) {a : FdReuse.Action} {t : State} (taken : moved s a = some t) :
    Survives t := by
  obtain ⟨n, step, rfl⟩ := Option.map_eq_some_iff.mp taken
  exact inv.of_node step

theorem keeps_node (inv : Survives s) {a : FdReuse.Action} {t : State}
    (guard : usesHub a → s.main = .loop) (taken : actNode localNode s a = some t) :
    Survives t := by
  unfold actNode at taken
  split at taken
  · next late => exact absurd (guard late.2) late.1
  · split at taken
    · cases taken
    · split_ifs at taken
      exact inv.of_moved taken
    · split at taken
      · obtain ⟨n, step, rfl⟩ := Option.map_eq_some_iff.mp taken
        exact inv.of_node step
      · cases taken
    · split_ifs at taken
      exact inv.of_moved taken
    · split_ifs at taken
      exact inv.of_moved taken
    · exact inv.of_moved taken

theorem keeps (inv : Survives s) {a : Action} {t : State} (guard : spared s a)
    (taken : step localNode s a = some t) : Survives t := by
  unfold step at taken
  split at taken
  swap
  · cases taken
  cases a <;> simp only [act] at taken
  case signal =>
    cases taken
    exact ⟨inv.alive, fun code ended => ⟨(inv.exit code ended).1, rfl⟩,
      fun code returned => ⟨(inv.main code returned).1, rfl⟩, inv.served⟩
  case disconnect socket =>
    cases taken
    exact ⟨inv.alive, inv.exit, inv.main, inv.served⟩
  case node a =>
    refine inv.keeps_node (fun uses => ?_) taken
    simpa [spared, uses] using guard
  case write k w =>
    split at taken
    · next c left current =>
      split at taken
      · next socket entry =>
        split_ifs at taken with possible
        have whole : (s.sock socket).broken = false := by
          simpa [spared, current, entry] using guard
        cases w with
        | count n => exact inv.of_moved taken
        | intr =>
          cases taken
          exact inv
        | pipe => exact absurd rfl (Wrote.ne_pipe_of_possible possible whole)
        | error => exact inv.of_moved taken
      · exact inv.of_moved taken
    · cases taken
  case writeJoin w =>
    split at taken
    · next left id fd joining link =>
      split_ifs at taken with possible
      have whole : (s.sock (.dialed id)).broken = false := by
        simpa [spared, link] using guard
      cases w with
      | count n =>
        cases taken
        exact ⟨inv.alive, inv.exit, inv.main, inv.served⟩
      | intr =>
        cases taken
        exact inv
      | pipe => exact absurd rfl (Wrote.ne_pipe_of_possible possible whole)
      | error =>
        obtain ⟨n, step, rfl⟩ := Option.map_eq_some_iff.mp taken
        exact inv.of_node step
    · cases taken
  case sawSignal =>
    split_ifs at taken with seen
    cases taken
    refine ⟨inv.alive, inv.exit, ?_, inv.served⟩
    rintro code ⟨⟩
    exact ⟨rfl, seen.2⟩
  case pollError => cases guard
  case spawnError => cases guard
  case exit =>
    split at taken
    · next code returned =>
      cases taken
      refine ⟨by simp, ?_, inv.main, inv.served⟩
      rintro code' ⟨⟩
      exact inv.main code returned
    · cases taken

end Survives

end LinuxSys.Servers.FleetNode
