import LinuxSys.Chatterd.Wire
import LinuxSys.Lib.Machine

/-! # The Go hub of chatterd ch27

One goroutine owns the clients. It takes registrations, removals and broadcasts from the readers,
and a broadcast waits at every recipient's channel of 64 frames until there is room. A writer
returns when a write fails and leaves its channel as it is; only the hub can remove the client.
-/

namespace LinuxSys.Chatterd.AsyncHub

open Lib

/-- The capacity of `out`. -/
def capacity : ℕ := 64

def deliver (nick text : Bytes) : Bytes := encode typeDeliver (deliverPayload nick text)

/-- Where `handleConn` stands for a client: it sends on `register`, `broadcast` and `unregister`. -/
inductive Phase where
  | absent
  | joining
  | registering
  | registered
  | reading
  | broadcasting (frame : Bytes)
  | unregistering
  | finished
deriving DecidableEq, Repr

/-- Where the writer goroutine of a client stands. -/
inductive Writer where
  | absent
  | receiving
  | writing (frame : Bytes)
  | returned
deriving DecidableEq, Repr

/-- Where `run` stands: in its `select`, or before the recipients that a broadcast has left. -/
inductive Hub where
  | selecting
  | sending (frame : Bytes) (todo : List ℕ)
  | returned
deriving DecidableEq, Repr

structure State where
  exited : Bool := false
  cancelled : Bool := false
  /-- How many connections have been accepted. -/
  accepted : ℕ := 0
  hub : Hub := .selecting
  /-- The keys of `clients`. -/
  clients : List ℕ := []
  phase : ℕ → Phase := fun _ => .absent
  nick : ℕ → Bytes := fun _ => []
  writer : ℕ → Writer := fun _ => .absent
  out : ℕ → List Bytes := fun _ => []
  closed : ℕ → Bool := fun _ => false

inductive Action where
  | accept
  | cancel
  | exit
  | join (i : ℕ) (payload : Bytes)
  | register (i : ℕ)
  | spawn (i : ℕ)
  | frame (i : ℕ) (payload : Bytes)
  | readError (i : ℕ)
  | giveUp (i : ℕ)
  | broadcast (i : ℕ) (todo : List ℕ)
  | send
  | sent
  | unregister (i : ℕ)
  | stop
  | receive (i : ℕ)
  | wrote (i : ℕ)
  | writeError (i : ℕ)
  | stopWriter (i : ℕ)
deriving DecidableEq, Repr

namespace State

def setPhase (s : State) (i : ℕ) (phase : Phase) : State :=
  { s with phase := Function.update s.phase i phase }

def setWriter (s : State) (i : ℕ) (writer : Writer) : State :=
  { s with writer := Function.update s.writer i writer }

def setOut (s : State) (i : ℕ) (out : List Bytes) : State :=
  { s with out := Function.update s.out i out }

/-- The client is taken out of the map and its channel is closed, if it was there. -/
def remove (s : State) (i : ℕ) : State :=
  if i ∈ s.clients then
    { s with clients := s.clients.filter (· ≠ i), closed := Function.update s.closed i true }
  else s

/-- What a running server does. A map is ranged over in any order. -/
def act (s : State) : Action → Option State
  | .accept => some { s.setPhase (s.accepted + 1) .joining with accepted := s.accepted + 1 }
  | .cancel => some { s with cancelled := true }
  | .exit => if s.cancelled then some { s with exited := true } else none
  | .join i payload =>
    if s.phase i = .joining then
      some { s.setPhase i .registering with nick := Function.update s.nick i payload }
    else none
  | .register i =>
    if s.hub = .selecting ∧ s.phase i = .registering then
      some { s.setPhase i .registered with clients := s.clients ++ [i] }
    else none
  | .spawn i =>
    if s.phase i = .registered then some ((s.setPhase i .reading).setWriter i .receiving) else none
  | .frame i payload =>
    if s.phase i = .reading then
      some (s.setPhase i (.broadcasting (deliver (s.nick i) payload)))
    else none
  | .readError i =>
    if s.phase i = .joining then some (s.setPhase i .finished)
    else if s.phase i = .reading then some (s.setPhase i .unregistering)
    else none
  | .giveUp i =>
    if s.cancelled then
      match s.phase i with
      | .registering | .broadcasting _ | .unregistering => some (s.setPhase i .finished)
      | _ => none
    else none
  | .broadcast i todo =>
    match s.hub, s.phase i with
    | .selecting, .broadcasting frame =>
      if todo.Perm (s.clients.filter (· ≠ i)) then
        some { s.setPhase i .reading with hub := .sending frame todo }
      else none
    | _, _ => none
  | .send =>
    match s.hub with
    | .sending frame (d :: rest) =>
      if (s.out d).length < capacity then
        some { s.setOut d (s.out d ++ [frame]) with hub := .sending frame rest }
      else none
    | _ => none
  | .sent =>
    match s.hub with
    | .sending _ [] => some { s with hub := .selecting }
    | _ => none
  | .unregister i =>
    if s.hub = .selecting ∧ s.phase i = .unregistering then
      some ((s.setPhase i .finished).remove i)
    else none
  | .stop =>
    if s.hub = .selecting ∧ s.cancelled then
      some { s with hub := .returned, closed := fun i => s.closed i || decide (i ∈ s.clients) }
    else none
  | .receive i =>
    match s.writer i, s.out i with
    | .receiving, frame :: rest => some ((s.setWriter i (.writing frame)).setOut i rest)
    | _, _ => none
  | .wrote i =>
    match s.writer i with
    | .writing _ => some (s.setWriter i .receiving)
    | _ => none
  | .writeError i =>
    match s.writer i with
    | .writing _ => some (s.setWriter i .returned)
    | _ => none
  | .stopWriter i =>
    if s.writer i = .receiving ∧ s.out i = [] ∧ s.closed i then some (s.setWriter i .returned)
    else none

/-- The hub stands at the full channel of a client whose writer has returned. -/
def Stands (s : State) : Prop :=
  ∃ frame d rest, s.hub = .sending frame (d :: rest) ∧ (s.out d).length = capacity ∧
    s.writer d = .returned

end State

/-- `run`, `handleConn` and the writers of any number of clients. -/
def server : Machine State Action where
  init := {}
  step s a := if s.exited then none else s.act a

/-- The hub is blocked for ever, sending to a client whose writer has returned. -/
def State.Wedged (s : State) : Prop :=
  s.Stands ∧ ∀ acts t, server.runFrom? s acts = some t → t.hub = s.hub

/-- A client that the hub does not know yet. -/
def Phase.fresh : Phase → Bool
  | .absent | .joining | .registering => true
  | _ => false

/-- The clients that the present broadcast has yet to reach. -/
def Hub.todo : Hub → List ℕ
  | .sending _ todo => todo
  | _ => []

/-- No broadcast is taken up while a recipient's writer has returned with its channel full, and no
writer returns with its channel full while the hub has a frame for it. -/
def near (s : State) : Action → Prop
  | .broadcast _ todo => ∀ d ∈ todo, s.writer d = .returned → (s.out d).length < capacity
  | .writeError d => d ∈ s.hub.todo → (s.out d).length < capacity
  | _ => True

instance (s : State) : (a : Action) → Decidable (near s a)
  | .broadcast _ todo =>
    inferInstanceAs (Decidable (∀ d ∈ todo, s.writer d = .returned → (s.out d).length < capacity))
  | .writeError d => inferInstanceAs (Decidable (d ∈ s.hub.todo → (s.out d).length < capacity))
  | .accept | .cancel | .exit | .join _ _ | .register _ | .spawn _ | .frame _ _ | .readError _
  | .giveUp _ | .send | .sent | .unregister _ | .stop | .receive _ | .wrote _ | .stopWriter _ =>
    isTrue trivial

namespace State

variable {s t : State} {i d : ℕ}

@[simp] theorem setPhase_phase (p : Phase) :
    (s.setPhase i p).phase = Function.update s.phase i p := rfl

@[simp] theorem setWriter_writer (w : Writer) :
    (s.setWriter i w).writer = Function.update s.writer i w := rfl

@[simp] theorem setOut_out (out : List Bytes) :
    (s.setOut i out).out = Function.update s.out i out := rfl

/-- What the hub owes to a client whose writer has returned fits in its channel. -/
structure Inv (s : State) : Prop where
  bound : ∀ i, s.accepted < i → s.phase i = .absent
  fresh : ∀ i, (s.phase i).fresh = true → i ∉ s.clients ∧ s.closed i = false
  nodup : s.clients.Nodup
  opened : s.hub ≠ .returned → ∀ i ∈ s.clients, s.closed i = false
  unique : ∀ frame todo, s.hub = .sending frame todo → todo.Nodup ∧ todo ⊆ s.clients
  room : ∀ frame todo, s.hub = .sending frame todo → ∀ d ∈ todo, s.writer d = .returned →
    (s.out d).length < capacity

namespace Inv

theorem setPhase (inv : s.Inv) {p : Phase} (fresh : p.fresh = true → (s.phase i).fresh = true)
    (known : i ≤ s.accepted) : (s.setPhase i p).Inv := by
  refine { inv with bound := fun j beyond => ?_, fresh := fun j new => ?_ }
  · have apart : j ≠ i := by
      rintro rfl
      exact absurd known (not_le.mpr beyond)
    exact (Function.update_of_ne apart _ _).trans (inv.bound j beyond)
  · rcases eq_or_ne j i with rfl | apart
    · rw [setPhase_phase, Function.update_self] at new
      exact inv.fresh j (fresh new)
    · rw [setPhase_phase, Function.update_of_ne apart] at new
      exact inv.fresh j new

theorem known (inv : s.Inv) (some : s.phase i ≠ .absent) : i ≤ s.accepted := by
  by_contra beyond
  exact some (inv.bound i (not_le.mp beyond))

/-- A writer that has not returned may do anything; one that returns has room for what the hub still
has for it. -/
theorem setWriter (inv : s.Inv) {w : Writer} (room : w = .returned → i ∈ s.hub.todo →
    (s.out i).length < capacity) : (s.setWriter i w).Inv := by
  refine { inv with room := fun frame todo sending d member returned => ?_ }
  rcases eq_or_ne d i with rfl | apart
  · rw [setWriter_writer, Function.update_self] at returned
    exact room returned ((congrArg Hub.todo sending).symm ▸ member)
  · rw [setWriter_writer, Function.update_of_ne apart] at returned
    exact inv.room frame todo sending d member returned

theorem setOut (inv : s.Inv) {out : List Bytes} (less : s.writer i = .returned →
    out.length ≤ (s.out i).length) : (s.setOut i out).Inv := by
  refine { inv with room := fun frame todo sending d member returned => ?_ }
  have before := inv.room frame todo sending d member returned
  rcases eq_or_ne d i with rfl | apart
  · rw [setOut_out, Function.update_self]
    exact (less returned).trans_lt before
  · rw [setOut_out, Function.update_of_ne apart]
    exact before

theorem accept (inv : s.Inv) :
    ({ s.setPhase (s.accepted + 1) .joining with accepted := s.accepted + 1 } : State).Inv := by
  refine { inv with bound := fun j beyond => ?_, fresh := fun j new => ?_ }
  · have apart : j ≠ s.accepted + 1 := ne_of_gt beyond
    exact (Function.update_of_ne apart _ _).trans (inv.bound j (Nat.lt_of_succ_lt beyond))
  · rcases eq_or_ne j (s.accepted + 1) with rfl | apart
    · exact inv.fresh _ (by rw [inv.bound _ (Nat.lt_succ_self _)]; rfl)
    · change (Function.update s.phase _ _ j).fresh = true at new
      rw [Function.update_of_ne apart] at new
      exact inv.fresh j new

theorem register (inv : s.Inv) (selecting : s.hub = .selecting) (here : s.phase i = .registering) :
    ({ s.setPhase i .registered with clients := s.clients ++ [i] } : State).Inv := by
  obtain ⟨absent, opened⟩ := inv.fresh i (by rw [here]; rfl)
  have moved : (s.setPhase i .registered).Inv :=
    inv.setPhase (by simp [Phase.fresh]) (inv.known (by simp [here]))
  refine { moved with fresh := fun j new => ?_, nodup := ?_, opened := fun _ j member => ?_,
                      unique := fun frame todo sending => ?_ }
  · refine ⟨fun member => ?_, (moved.fresh j new).2⟩
    rcases List.mem_append.mp member with old | added
    · exact (moved.fresh j new).1 old
    · obtain rfl := List.mem_singleton.mp added
      change (Function.update s.phase j .registered j).fresh = true at new
      rw [Function.update_self] at new
      cases new
  · rw [List.nodup_append]
    refine ⟨inv.nodup, List.pairwise_singleton _ i, fun a old b new => ?_⟩
    rintro rfl
    exact absent (List.mem_singleton.mp new ▸ old)
  · rcases List.mem_append.mp member with old | added
    · exact inv.opened (by rw [selecting]; simp) j old
    · rw [List.mem_singleton.mp added]
      exact opened
  · cases selecting.symm.trans sending

/-- The hub takes up a broadcast. -/
theorem broadcast (inv : s.Inv) {frame : Bytes} {todo : List ℕ} (selecting : s.hub = .selecting)
    (here : s.phase i = .broadcasting frame) (those : todo.Perm (s.clients.filter (· ≠ i)))
    (near : ∀ d ∈ todo, s.writer d = .returned → (s.out d).length < capacity) :
    ({ s.setPhase i .reading with hub := .sending frame todo } : State).Inv := by
  have moved : (s.setPhase i .reading).Inv :=
    inv.setPhase (by simp [Phase.fresh]) (inv.known (by simp [here]))
  refine { moved with opened := fun _ => inv.opened (by rw [selecting]; simp),
                      unique := fun _ _ sending => ?_, room := fun _ _ sending => ?_ }
  · cases sending
    exact ⟨those.symm.nodup (inv.nodup.filter _),
      fun d member => List.mem_of_mem_filter (those.subset member)⟩
  · cases sending
    exact near

/-- A client that has its frame is not owed another by the same broadcast. -/
theorem send (inv : s.Inv) {frame : Bytes} {rest : List ℕ}
    (sending : s.hub = .sending frame (d :: rest)) :
    ({ s.setOut d (s.out d ++ [frame]) with hub := .sending frame rest } : State).Inv := by
  obtain ⟨distinct, sub⟩ := inv.unique _ _ sending
  obtain ⟨once, distinct⟩ := List.nodup_cons.mp distinct
  refine { inv with opened := fun _ => inv.opened (by rw [sending]; simp),
                    unique := fun _ _ same => ?_, room := fun _ _ same j member returned => ?_ }
  · cases same
    exact ⟨distinct, fun j member => sub (List.mem_cons_of_mem d member)⟩
  · cases same
    have apart : j ≠ d := by
      rintro rfl
      exact once member
    change (Function.update s.out d (s.out d ++ [frame]) j).length < capacity
    rw [Function.update_of_ne apart]
    exact inv.room _ _ sending j (List.mem_cons_of_mem d member) returned

theorem unregister (inv : s.Inv) (selecting : s.hub = .selecting)
    (here : s.phase i = .unregistering) : ((s.setPhase i .finished).remove i).Inv := by
  have moved : (s.setPhase i .finished).Inv :=
    inv.setPhase (by simp [Phase.fresh]) (inv.known (by simp [here]))
  rw [remove]
  split_ifs
  · refine { moved with fresh := fun j new => ?_, nodup := inv.nodup.filter _,
                        opened := fun _ j member => ?_, unique := fun _ _ sending => ?_ }
    · have apart : j ≠ i := by
        rintro rfl
        change (Function.update s.phase j .finished j).fresh = true at new
        rw [Function.update_self] at new
        cases new
      obtain ⟨absent, opened⟩ := moved.fresh j new
      exact ⟨fun member => absent (List.mem_of_mem_filter member),
        (Function.update_of_ne apart _ _).trans opened⟩
    · have apart : j ≠ i := by simpa using (List.mem_filter.mp member).2
      refine (Function.update_of_ne apart _ _).trans ?_
      exact inv.opened (by rw [selecting]; simp) j (List.mem_of_mem_filter member)
    · cases selecting.symm.trans sending
  · exact moved

/-- The hub never sends on a closed channel, which would end the server. -/
theorem opened_of_mem (inv : s.Inv) {frame : Bytes} {todo : List ℕ}
    (sending : s.hub = .sending frame todo) (member : d ∈ todo) : s.closed d = false :=
  inv.opened (by rw [sending]; simp) d ((inv.unique _ _ sending).2 member)

theorem keeps (inv : s.Inv) {a : Action} (near : near s a) (taken : s.act a = some t) : t.Inv := by
  cases a with
  | accept =>
    cases taken
    exact inv.accept
  | cancel =>
    cases taken
    exact { inv with }
  | exit =>
    obtain ⟨-, made⟩ := Option.ite_none_right_eq_some.mp taken
    cases made
    exact { inv with }
  | join i payload =>
    obtain ⟨here, made⟩ := Option.ite_none_right_eq_some.mp taken
    cases made
    have moved : (s.setPhase i .registering).Inv :=
      inv.setPhase (by simp [here, Phase.fresh]) (inv.known (by simp [here]))
    exact { moved with }
  | register i =>
    obtain ⟨⟨selecting, here⟩, made⟩ := Option.ite_none_right_eq_some.mp taken
    cases made
    exact inv.register selecting here
  | spawn i =>
    obtain ⟨here, made⟩ := Option.ite_none_right_eq_some.mp taken
    cases made
    exact (inv.setPhase (by simp [Phase.fresh]) (inv.known (by simp [here]))).setWriter (by simp)
  | frame i payload =>
    obtain ⟨here, made⟩ := Option.ite_none_right_eq_some.mp taken
    cases made
    exact inv.setPhase (by simp [Phase.fresh]) (inv.known (by simp [here]))
  | readError i =>
    simp only [act] at taken
    split_ifs at taken with here here
    · cases taken
      exact inv.setPhase (by simp [Phase.fresh]) (inv.known (by simp [here]))
    · cases taken
      exact inv.setPhase (by simp [Phase.fresh]) (inv.known (by simp [here]))
  | giveUp i =>
    simp only [act] at taken
    split_ifs at taken
    split at taken
    all_goals try cases taken
    all_goals
      rename_i here
      exact inv.setPhase (by simp [Phase.fresh]) (inv.known (by simp [here]))
  | broadcast i todo =>
    simp only [act] at taken
    split at taken
    · next frame selecting here =>
      obtain ⟨those, made⟩ := Option.ite_none_right_eq_some.mp taken
      cases made
      exact inv.broadcast selecting here those near
    · cases taken
  | send =>
    simp only [act] at taken
    split at taken
    · next frame d rest sending =>
      obtain ⟨-, made⟩ := Option.ite_none_right_eq_some.mp taken
      cases made
      exact inv.send sending
    · cases taken
  | sent =>
    simp only [act] at taken
    split at taken
    · next frame sending =>
      cases taken
      exact { inv with
        opened := fun _ => inv.opened (by rw [sending]; simp)
        unique := fun _ _ other => by cases other
        room := fun _ _ other => by cases other }
    · cases taken
  | unregister i =>
    obtain ⟨⟨selecting, here⟩, made⟩ := Option.ite_none_right_eq_some.mp taken
    cases made
    exact inv.unregister selecting here
  | stop =>
    obtain ⟨⟨selecting, -⟩, made⟩ := Option.ite_none_right_eq_some.mp taken
    cases made
    refine { inv with fresh := fun j new => ?_, opened := fun other => absurd rfl other,
                      unique := fun _ _ other => ?_, room := fun _ _ other => ?_ }
    · obtain ⟨absent, opened⟩ := inv.fresh j new
      exact ⟨absent, by simp [absent, opened]⟩
    · cases other
    · cases other
  | receive i =>
    simp only [act] at taken
    split at taken
    · next frame rest here first =>
      cases taken
      refine (inv.setWriter (w := .writing frame) (by simp)).setOut fun returned => ?_
      rw [setWriter_writer, Function.update_self] at returned
      cases returned
    · cases taken
  | wrote i =>
    simp only [act] at taken
    split at taken
    · cases taken
      exact inv.setWriter (by simp)
    · cases taken
  | writeError i =>
    simp only [act] at taken
    split at taken
    · cases taken
      exact inv.setWriter fun _ => near
    · cases taken
  | stopWriter i =>
    obtain ⟨⟨here, empty, closed⟩, made⟩ := Option.ite_none_right_eq_some.mp taken
    cases made
    refine inv.setWriter fun _ _ => ?_
    rw [empty]
    decide

end Inv

end State

/-- While every step meets the condition, the hub does not even stand there. -/
theorem not_stands {acts : List Action} {s : State} (met : server.Meets near server.init acts)
    (run : server.run? acts = some s) : ¬ s.Stands := by
  have start : server.init.Inv := by
    refine ⟨fun _ _ => rfl, fun _ _ => ⟨List.not_mem_nil, rfl⟩, List.nodup_nil, ?_, ?_, ?_⟩
    · intro _ i member
      cases member
    · intro frame todo sending
      cases sending
    · intro frame todo sending
      cases sending
  have keeps : ∀ s a t, s.Inv → near s a → server.step s a = some t → t.Inv := by
    intro s a t inv near taken
    simp only [server] at taken
    split_ifs at taken
    exact inv.keeps near taken
  have inv := @Machine.run?_keeps_of_meets _ _ server State.Inv near start keeps _ _ met run
  rintro ⟨frame, d, rest, sending, full, returned⟩
  exact absurd full (ne_of_lt (inv.room frame _ sending d List.mem_cons_self returned))

/-- The writer goroutine of the client has been started. -/
def Phase.spawned : Phase → Bool
  | .reading | .broadcasting _ | .unregistering | .finished => true
  | _ => false

/-- The hub stands before the full channel of `d`, whose writer was started and has returned. -/
structure StandsAt (frame : Bytes) (d : ℕ) (rest : List ℕ) (s : State) : Prop where
  hub : s.hub = .sending frame (d :: rest)
  full : (s.out d).length = capacity
  returned : s.writer d = .returned
  known : d ≤ s.accepted
  spawned : (s.phase d).spawned = true

namespace StandsAt

variable {s t : State} {frame : Bytes} {d i : ℕ} {rest : List ℕ}

theorem setPhase (stands : StandsAt frame d rest s) {p : Phase}
    (later : (s.phase i).spawned = true → p.spawned = true) :
    StandsAt frame d rest (s.setPhase i p) := by
  refine { stands with spawned := ?_ }
  rcases eq_or_ne d i with rfl | apart
  · rw [State.setPhase_phase, Function.update_self]
    exact later stands.spawned
  · rw [State.setPhase_phase, Function.update_of_ne apart]
    exact stands.spawned

theorem setWriter (stands : StandsAt frame d rest s) (apart : d ≠ i) (w : Writer) :
    StandsAt frame d rest (s.setWriter i w) := by
  refine { stands with returned := ?_ }
  rw [State.setWriter_writer, Function.update_of_ne apart]
  exact stands.returned

theorem setOut (stands : StandsAt frame d rest s) (apart : d ≠ i) (out : List Bytes) :
    StandsAt frame d rest (s.setOut i out) := by
  refine { stands with full := ?_ }
  rw [State.setOut_out, Function.update_of_ne apart]
  exact stands.full

theorem apart_of_writer (stands : StandsAt frame d rest s) {w : Writer} (here : s.writer i = w)
    (live : w ≠ .returned) : d ≠ i := by
  rintro rfl
  exact live (here.symm.trans stands.returned)

/-- Nothing moves the hub: only the writer would have made room. -/
theorem keeps (stands : StandsAt frame d rest s) {a : Action} (taken : s.act a = some t) :
    StandsAt frame d rest t := by
  have busy : s.hub ≠ .selecting := by
    rw [stands.hub]
    simp
  cases a with
  | accept =>
    cases taken
    have known := stands.known
    refine { stands with known := Nat.le_succ_of_le known, spawned := ?_ }
    have apart : d ≠ s.accepted + 1 := by omega
    exact (congrArg Phase.spawned (Function.update_of_ne apart _ _)).trans stands.spawned
  | cancel =>
    cases taken
    exact { stands with }
  | exit =>
    obtain ⟨-, made⟩ := Option.ite_none_right_eq_some.mp taken
    cases made
    exact { stands with }
  | join i payload =>
    obtain ⟨here, made⟩ := Option.ite_none_right_eq_some.mp taken
    cases made
    have moved : StandsAt frame d rest (s.setPhase i .registering) :=
      stands.setPhase (by simp [here, Phase.spawned])
    exact { moved with }
  | register i =>
    obtain ⟨⟨selecting, -⟩, -⟩ := Option.ite_none_right_eq_some.mp taken
    exact absurd selecting busy
  | spawn i =>
    obtain ⟨here, made⟩ := Option.ite_none_right_eq_some.mp taken
    cases made
    have apart : d ≠ i := by
      rintro rfl
      have spawned := stands.spawned
      rw [here] at spawned
      cases spawned
    exact (stands.setPhase fun _ => rfl).setWriter apart _
  | frame i payload =>
    obtain ⟨here, made⟩ := Option.ite_none_right_eq_some.mp taken
    cases made
    exact stands.setPhase fun _ => rfl
  | readError i =>
    simp only [State.act] at taken
    split_ifs at taken
    · cases taken
      exact stands.setPhase fun _ => rfl
    · cases taken
      exact stands.setPhase fun _ => rfl
  | giveUp i =>
    simp only [State.act] at taken
    split_ifs at taken
    split at taken
    all_goals
      cases taken
    all_goals
      exact stands.setPhase fun _ => rfl
  | broadcast i todo =>
    simp only [State.act, stands.hub] at taken
    cases taken
  | send =>
    simp only [State.act, stands.hub, stands.full, lt_irrefl, if_false] at taken
    cases taken
  | sent =>
    simp only [State.act, stands.hub] at taken
    cases taken
  | unregister i =>
    obtain ⟨⟨selecting, -⟩, -⟩ := Option.ite_none_right_eq_some.mp taken
    exact absurd selecting busy
  | stop =>
    obtain ⟨⟨selecting, -⟩, -⟩ := Option.ite_none_right_eq_some.mp taken
    exact absurd selecting busy
  | receive i =>
    simp only [State.act] at taken
    split at taken
    · next here _ =>
      cases taken
      have apart := stands.apart_of_writer here (by simp)
      exact (stands.setWriter apart _).setOut apart _
    · cases taken
  | wrote i =>
    simp only [State.act] at taken
    split at taken
    · next here =>
      cases taken
      exact stands.setWriter (stands.apart_of_writer here (by simp)) _
    · cases taken
  | writeError i =>
    simp only [State.act] at taken
    split at taken
    · next here =>
      cases taken
      exact stands.setWriter (stands.apart_of_writer here (by simp)) _
    · cases taken
  | stopWriter i =>
    obtain ⟨⟨here, -, -⟩, made⟩ := Option.ite_none_right_eq_some.mp taken
    cases made
    exact stands.setWriter (stands.apart_of_writer here (by simp)) _

theorem wedged (stands : StandsAt frame d rest s) : s.Wedged := by
  refine ⟨⟨frame, d, rest, stands.hub, stands.full, stands.returned⟩, fun acts t run => ?_⟩
  have kept : StandsAt frame d rest t := by
    refine @Machine.runFrom?_keeps _ _ server (StandsAt frame d rest) (fun u a v here taken => ?_)
      _ _ _ stands run
    simp only [server] at taken
    split_ifs at taken
    exact here.keeps taken
  rw [kept.hub, stands.hub]

end StandsAt

/-- In a run whose steps all meet the condition, the hub is never blocked for ever before a client
whose writer has returned. -/
theorem hub_not_wedged {acts : List Action} {s : State}
    (met : server.Meets near server.init acts) (run : server.run? acts = some s) : ¬ s.Wedged :=
  fun wedged => not_stands met run wedged.1

/-- Two clients register. -/
def pair : List Action :=
  [.accept, .join 1 [0x61], .register 1, .spawn 1, .accept, .join 2 [0x62], .register 2, .spawn 2]

/-- The first sends a text, and its frame is queued with the second. -/
def text : List Action := [.frame 1 [0x68], .broadcast 1 [2], .send, .sent]

/-- The second has gone when its writer gets to the frame. -/
theorem hub_not_wedged_gone : ∃ s, server.run? (pair ++ text ++ [.receive 2, .writeError 2]) =
    some s ∧ ¬ s.Wedged := by
  obtain ⟨s, run⟩ : ∃ s, server.run? (pair ++ text ++ [.receive 2, .writeError 2]) = some s :=
    ⟨_, rfl⟩
  exact ⟨s, run, hub_not_wedged (by decide) run⟩

/-- The second has stopped reading: its writer is in `Write`, with `k` frames queued behind. -/
structure Stalled (reader : Phase) (hub : Hub) (k : ℕ) (s : State) : Prop where
  running : s.exited = false
  hub : s.hub = hub
  clients : s.clients = [1, 2]
  reader : s.phase 1 = reader
  other : s.phase 2 = .reading
  known : 2 ≤ s.accepted
  out : (s.out 2).length = k
  writer : ∃ frame, s.writer 2 = .writing frame

namespace Stalled

variable {k : ℕ} {s : State}

theorem step {p : Phase} {hub : Hub} (stalled : Stalled p hub k s) (a : Action) :
    server.step s a = s.act a := by
  simp [server, stalled.running]

theorem setReader {p : Phase} {hub : Hub} (stalled : Stalled p hub k s) (q : Phase) :
    Stalled q hub k (s.setPhase 1 q) := by
  refine { stalled with reader := ?_, other := ?_ }
  · rw [State.setPhase_phase, Function.update_self]
  · rw [State.setPhase_phase, Function.update_of_ne (by decide)]
    exact stalled.other

/-- The hub takes up another text. -/
theorem takes (stalled : Stalled .reading .selecting k s) : ∃ frame t,
    server.runFrom? s [.frame 1 [0x68], .broadcast 1 [2]] = some t ∧
      Stalled .reading (.sending frame [2]) k t := by
  let frame := deliver (s.nick 1) [0x68]
  let offer := s.setPhase 1 (.broadcasting frame)
  let taken : State := { offer.setPhase 1 .reading with hub := .sending frame [2] }
  have offered : Stalled (.broadcasting frame) .selecting k offer := stalled.setReader _
  have first : server.step s (.frame 1 [0x68]) = some offer := by
    rw [stalled.step]
    exact if_pos stalled.reader
  have second : server.step offer (.broadcast 1 [2]) = some taken := by
    rw [offered.step, State.act, offered.hub, offered.reader, offered.clients]
    rfl
  refine ⟨frame, taken, ?_, { offered.setReader .reading with hub := rfl }⟩
  rw [Machine.runFrom?_cons first, Machine.runFrom?_cons second]
  rfl

/-- There is room, and the hub goes on. -/
theorem sends {frame : Bytes} (stalled : Stalled .reading (.sending frame [2]) k s)
    (room : k < capacity) : ∃ t, server.runFrom? s [.send, .sent] = some t ∧
      Stalled .reading .selecting (k + 1) t := by
  let queued : State := { s.setOut 2 (s.out 2 ++ [frame]) with hub := .sending frame [] }
  have next : Stalled .reading (.sending frame []) (k + 1) queued := by
    refine { stalled with hub := rfl, out := ?_ }
    change (Function.update s.out 2 (s.out 2 ++ [frame]) 2).length = k + 1
    rw [Function.update_self, List.length_append, stalled.out, List.length_singleton]
  have first : server.step s .send = some queued := by
    rw [stalled.step, State.act, stalled.hub]
    exact if_pos (stalled.out.trans_lt room)
  have second : server.step queued .sent = some { queued with hub := .selecting } := by
    rw [next.step]
    rfl
  refine ⟨{ queued with hub := .selecting }, ?_, { next with hub := rfl }⟩
  rw [Machine.runFrom?_cons first, Machine.runFrom?_cons second]
  rfl

/-- The channel fills up. -/
theorem fills (stalled : Stalled .reading .selecting 0 s) {n : ℕ} (most : n ≤ capacity) :
    ∃ t, server.runFrom? s (List.replicate n text).flatten = some t ∧
      Stalled .reading .selecting n t := by
  induction n with
  | zero => exact ⟨s, rfl, stalled⟩
  | succ n ih =>
    obtain ⟨t, run, filled⟩ := ih (by omega)
    obtain ⟨frame, u, taken, stands⟩ := filled.takes
    obtain ⟨v, sent, next⟩ := stands.sends (by omega)
    refine ⟨v, ?_, next⟩
    have once : server.runFrom? t text = some v :=
      (Machine.runFrom?_append_of taken [.send, .sent]).trans sent
    rw [List.replicate_succ', List.flatten_append, Machine.runFrom?_append_of run,
      List.flatten_singleton, once]

end Stalled

/-- The second client stops reading, the first sends 66 texts, and the second resets its
connection. -/
def resets : List Action :=
  pair ++ text ++ [.receive 2] ++ (List.replicate capacity text).flatten ++
    [.frame 1 [0x68], .broadcast 1 [2]] ++ [.writeError 2]

theorem hub_wedged_reset : ∃ s, server.run? resets = some s ∧ s.Wedged := by
  obtain ⟨s, start, stalled⟩ : ∃ s, server.run? (pair ++ text ++ [.receive 2]) = some s ∧
      Stalled .reading .selecting 0 s :=
    ⟨_, rfl, rfl, rfl, rfl, rfl, rfl, by decide, rfl, _, rfl⟩
  obtain ⟨t, full, filled⟩ := stalled.fills le_rfl
  obtain ⟨frame, u, taken, stands⟩ := filled.takes
  obtain ⟨last, writing⟩ := stands.writer
  have reset : server.step u (.writeError 2) = some (u.setWriter 2 .returned) := by
    rw [stands.step, State.act, writing]
  have blocked : StandsAt frame 2 [] (u.setWriter 2 .returned) := by
    refine ⟨stands.hub, stands.out, ?_, stands.known, congrArg Phase.spawned stands.other⟩
    rw [State.setWriter_writer, Function.update_self]
  refine ⟨_, ?_, blocked.wedged⟩
  rw [resets, Machine.run?, Machine.runFrom?_append_of (t := u), Machine.runFrom?_cons reset]
  · rfl
  · rw [Machine.runFrom?_append_of (t := t), taken]
    rw [Machine.runFrom?_append_of start, full]

end LinuxSys.Chatterd.AsyncHub
