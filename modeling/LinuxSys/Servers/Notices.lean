import LinuxSys.Chatterd.Deliver
import LinuxSys.Servers.TcpHub

/-! # What the ch21 server says in its own name

The server tells its clients who joined and who left under the reserved name `server`. Names are
what clients send: nothing keeps a client from taking that name, from joining again under another
one, or from making a frame longer than its length field can say. The hub is run here with a record
of its broadcasts.
-/

namespace LinuxSys.Servers.TcpHub

open Lib Chatterd

/-- What a thread broadcasts. -/
inductive Said where
  | joined (name : Bytes)
  | left (name : Bytes)
  | relayed (name text : Bytes)
deriving DecidableEq, Repr

namespace Said

/-- The server's own words. -/
def notice : Said → Bool
  | .joined _ | .left _ => true
  | .relayed _ _ => false

def sender : Said → Bytes
  | .joined _ | .left _ => server
  | .relayed name _ => name

def text : Said → Bytes
  | .joined name => name ++ joinedText
  | .left name => name ++ leftText
  | .relayed _ text => text

def payload (said : Said) : Bytes := deliverPayload said.sender said.text

end Said

/-- A broadcast with the thread that made it and the bytes it writes. -/
structure Sent where
  thread : ℕ
  said : Said
  frame : Bytes
deriving DecidableEq, Repr

/-- What a thread is to broadcast after the action. -/
def meant? (s : State) : Action → Option (ℕ × Said)
  | .frame id f =>
    if f.typ = typeMsg ∧ s.name id ≠ [] then some (id, .relayed (s.name id) f.payload) else none
  | .setName id =>
    match s.phase id with
    | .naming name => some (id, .joined name)
    | _ => none
  | .remove id => (s.clients.find? fun c => c.id = id).bind fun c =>
    if c.name = [] then none else some (id, .left c.name)
  | _ => none

/-- The broadcast that the action begins. -/
def begun? (s : State) (pending : ℕ → Option Said) : Action → Option Sent
  | .lock id =>
    match s.phase id with
    | .ready frame _ _ => (pending id).map fun said => ⟨id, said, frame⟩
    | _ => none
  | _ => none

/-- The hub with what its threads are to broadcast and have broadcast. -/
structure Traced where
  hub : State := {}
  pending : ℕ → Option Said := fun _ => none
  log : List Sent := []

def Traced.step (t : Traced) (a : Action) : Option Traced :=
  (TcpHub.step t.hub a).map fun hub =>
    { hub
      pending := match meant? t.hub a with
        | some (id, said) => Function.update t.pending id (some said)
        | none => t.pending
      log := t.log ++ (begun? t.hub t.pending a).toList }

/-- The server from its start, and all it has said. -/
def traced : Machine Traced Action where
  init := {}
  step := Traced.step

/-- What a thread has said, in order. -/
def Traced.saidBy (t : Traced) (id : ℕ) : List Said :=
  (t.log.filter fun sent => sent.thread = id).map Sent.said

/-- The name that is announced as joined and not yet as left; no further one may be then. -/
def tell : Option (Option Bytes) → Said → Option (Option Bytes)
  | present, .relayed _ _ => present
  | some none, .joined name => some (some name)
  | some (some present), .left name => if name = present then some none else none
  | _, _ => none

/-- `none` when the notices are not well paired. -/
def present (said : List Said) : Option (Option Bytes) := said.foldl tell (some none)

def named (name : Bytes) : Option Bytes := if name = [] then none else some name

/-- What `chatctl` shows as the sender. -/
def senderOf (payload : Bytes) : Option Bytes := (splitFirst? 0 payload).map Prod.fst

/-- Whatever of the broadcasts a client is sent, each DELIVER frame it reads there that names the
server as its sender is a notice. The notices about every client are well paired: while it is
served, of the name it has now only the coming is announced, and of no name when it is gone. -/
structure Sound (t : Traced) : Prop where
  reserved : ∀ heard : List Sent, heard.Sublist t.log →
    ∀ f ∈ (wire.parse (heard.flatMap Sent.frame)).1, f.typ = typeDeliver →
      senderOf f.payload = some server →
        ∃ sent ∈ heard, sent.said.notice ∧ f.payload = sent.said.payload
  paired : ∀ id, present (t.saidBy id) ≠ none
  reading : ∀ id, t.hub.phase id = .reading →
    present (t.saidBy id) = some (named (t.hub.name id))
  gone : ∀ id, t.hub.phase id = .done → present (t.saidBy id) = some none

/-- The length field can say how long the frame is. -/
def Fits (said : Said) : Prop := said.payload.length < 65536

instance (said : Said) : Decidable (Fits said) := inferInstanceAs (Decidable (_ < _))

/-- Of a client with this name: it joins only once, does not speak under the name `server`, and
what it sends makes no frame that is too long. -/
def Decent (name : Bytes) (f : Frame) : Prop :=
  (f.typ = typeJoin → f.payload ≠ [] → name = [] ∧ Fits (.joined f.payload)) ∧
    (f.typ = typeMsg → name ≠ [] → before 0 name ≠ server ∧ Fits (.relayed name f.payload))

instance (name : Bytes) (f : Frame) : Decidable (Decent name f) :=
  inferInstanceAs (Decidable (_ ∧ _))

/-- Every frame that is read is decent. -/
def Civil (t : Traced) : Action → Prop
  | .frame id f => Decent (t.hub.name id) f
  | _ => True

instance (t : Traced) : (a : Action) → Decidable (Civil t a)
  | .frame id f => inferInstanceAs (Decidable (Decent (t.hub.name id) f))
  | .sigint | .disconnect _ | .accept | .pollError | .acceptError | .spawnError | .sawStop
  | .requestStop _ | .exit | .add _ | .readError _ | .setName _ | .lock _ | .write _ | .unlock
  | .remove _ => isTrue trivial

/-! What one thread sees of a step. -/

/-- A thread's part of the state; `entry` is the name that the hub has for its client. -/
structure View where
  phase : Phase
  name : Bytes
  entry : Option Bytes
  pending : Option Said
  said : List Said

def entryOf (clients : List Client) (id : ℕ) : Option Bytes :=
  (clients.find? fun c => c.id = id).map Client.name

def Traced.view (t : Traced) (id : ℕ) : View where
  phase := t.hub.phase id
  name := t.hub.name id
  entry := entryOf t.hub.clients id
  pending := t.pending id
  said := t.saidBy id

/-- What a thread does to its part while its client is decent. -/
inductive Own (id : ℕ) : View → View → Prop
  | start (v : View) : v.phase = .absent → Own id v { v with phase := .starting }
  | add (v : View) : v.phase = .starting →
      Own id v { v with phase := .reading, entry := v.entry.or (some []) }
  | frame (v : View) (f : Frame) : v.phase = .reading → Decent v.name f →
      Own id v { v with
        phase := onFrame id v.name f
        pending := if f.typ = typeMsg ∧ v.name ≠ [] then some (.relayed v.name f.payload)
          else v.pending }
  | readError (v : View) : v.phase = .reading → Own id v { v with phase := .removing }
  | setName (v : View) (name : Bytes) : v.phase = .naming name →
      Own id v { v with
        phase := .ready (buildDeliver server (name ++ joinedText)) none false
        name := name
        entry := v.entry.map fun _ => name
        pending := some (.joined name) }
  | lock (v : View) (frame : Bytes) (except : Option ℕ) (last : Bool) :
      v.phase = .ready frame except last →
        Own id v { v with phase := .sending last, said := v.said ++ v.pending.toList }
  | unlock (v : View) (last : Bool) : v.phase = .sending last →
      Own id v { v with phase := if last then .done else .reading }
  | remove (v : View) (name : Bytes) : v.phase = .removing → v.entry = some name →
      Own id v { v with
        phase := afterRemove name
        entry := none
        pending := if name = [] then v.pending else some (.left name) }
  | lost (v : View) : v.phase = .removing → v.entry = none → Own id v { v with phase := .done }

theorem entryOf_append (clients : List Client) (id other : ℕ) :
    entryOf (clients ++ [⟨id, []⟩]) other =
      if other = id then (entryOf clients id).or (some []) else entryOf clients other := by
  rw [entryOf, List.find?_append]
  split
  · next same =>
    subst same
    rw [entryOf]
    cases clients.find? fun c => c.id = other <;> simp
  · next different =>
    have single : List.find? (fun c : Client => c.id = other) [⟨id, []⟩] = none := by
      simp [Ne.symm different]
    rw [single, Option.or_none, entryOf]

theorem entryOf_rename (clients : List Client) (id other : ℕ) (name : Bytes) :
    entryOf (clients.map fun c => if c.id = id then { c with name := name } else c) other =
      if other = id then (entryOf clients id).map fun _ => name else entryOf clients other := by
  induction clients with
  | nil => simp [entryOf]
  | cons c rest ih =>
    rw [entryOf] at ih
    by_cases this : c.id = id
    · by_cases same : other = id
      · subst same
        simp [entryOf, this]
      · have different : ¬ id = other := fun equal => same equal.symm
        simpa [entryOf, this, different, same] using ih
    · by_cases same : c.id = other
      · have different : ¬ other = id := fun equal => this (same.trans equal)
        simp [entryOf, same, different]
      · simpa [entryOf, this, same] using ih

theorem entryOf_filter (clients : List Client) (id other : ℕ) :
    entryOf (clients.filter fun c => !decide (c.id = id)) other =
      if other = id then none else entryOf clients other := by
  rw [entryOf, List.find?_filter]
  split
  · next same =>
    subst same
    rw [List.find?_eq_none.mpr]
    · rfl
    · intro c _
      simp
  · next different =>
    rw [entryOf]
    congr 2
    funext c
    by_cases same : c.id = other
    · simp [same, different]
    · simp [same]

theorem Traced.step_eq {t u : Traced} {a : Action} (taken : t.step a = some u) :
    ∃ hub, act t.hub a = some hub ∧ u =
      { hub
        pending := match meant? t.hub a with
          | some (id, said) => Function.update t.pending id (some said)
          | none => t.pending
        log := t.log ++ (begun? t.hub t.pending a).toList } := by
  obtain ⟨hub, step, rfl⟩ := Option.map_eq_some_iff.mp taken
  refine ⟨hub, ?_, rfl⟩
  rw [TcpHub.step] at step
  exact (Option.ite_none_right_eq_some.mp step).2

/-- A step that moves no thread and says nothing leaves every thread's part. -/
theorem view_of_quiet {t : Traced} {hub : State} {log : List Sent} {id : ℕ}
    (phase : hub.phase = t.hub.phase) (name : hub.name = t.hub.name)
    (clients : hub.clients = t.hub.clients) (silent : log = []) :
    ({ hub, pending := t.pending, log := t.log ++ log } : Traced).view id = t.view id := by
  subst silent
  simp only [Traced.view, Traced.saidBy, phase, name, clients, List.append_nil]

/-- Each thread's part of the state changes by its own steps. -/
theorem own_of_step {t u : Traced} {a : Action} (civil : Civil t a)
    (fresh : ∀ id, t.hub.threads.length ≤ id → t.hub.phase id = .absent)
    (taken : t.step a = some u) (id : ℕ) :
    u.view id = t.view id ∨ Own id (t.view id) (u.view id) := by
  obtain ⟨hub, moved, rfl⟩ := Traced.step_eq taken
  cases a <;> simp only [act] at moved
  case sigint =>
    cases moved
    exact .inl (view_of_quiet rfl rfl rfl rfl)
  case disconnect =>
    cases moved
    exact .inl (view_of_quiet rfl rfl rfl rfl)
  case accept =>
    obtain ⟨-, same⟩ := Option.ite_none_right_eq_some.mp moved
    cases same
    by_cases own : id = t.hub.threads.length
    · subst own
      right
      have started := @Own.start t.hub.threads.length (t.view t.hub.threads.length)
        (fresh _ le_rfl)
      simpa [Traced.view, meant?, begun?, Traced.saidBy, State.setPhase] using started
    · exact .inl (by simp [Traced.view, meant?, begun?, Traced.saidBy, State.setPhase, own])
  case pollError =>
    obtain ⟨-, same⟩ := Option.ite_none_right_eq_some.mp moved
    cases same
    exact .inl (view_of_quiet rfl rfl rfl rfl)
  case acceptError =>
    obtain ⟨-, same⟩ := Option.ite_none_right_eq_some.mp moved
    cases same
    exact .inl (view_of_quiet rfl rfl rfl rfl)
  case spawnError =>
    obtain ⟨-, same⟩ := Option.ite_none_right_eq_some.mp moved
    cases same
    exact .inl (view_of_quiet rfl rfl rfl rfl)
  case sawStop =>
    obtain ⟨-, same⟩ := Option.ite_none_right_eq_some.mp moved
    cases same
    exact .inl (view_of_quiet rfl rfl rfl rfl)
  case requestStop =>
    split at moved
    · obtain ⟨-, same⟩ := Option.ite_none_right_eq_some.mp moved
      cases same
      exact .inl (view_of_quiet rfl rfl rfl rfl)
    · cases moved
  case exit =>
    split at moved
    · obtain ⟨-, same⟩ := Option.ite_none_right_eq_some.mp moved
      cases same
      exact .inl (view_of_quiet rfl rfl rfl rfl)
    · cases moved
  case add who =>
    obtain ⟨⟨starting, -⟩, same⟩ := Option.ite_none_right_eq_some.mp moved
    cases same
    by_cases own : id = who
    · subst own
      right
      have added := @Own.add id (t.view id) starting
      simpa [Traced.view, meant?, begun?, Traced.saidBy, State.setPhase, entryOf_append] using added
    · left
      simp [Traced.view, meant?, begun?, Traced.saidBy, State.setPhase, entryOf_append, own]
  case frame who f =>
    obtain ⟨reading, same⟩ := Option.ite_none_right_eq_some.mp moved
    cases same
    by_cases own : id = who
    · subst own
      right
      have read := @Own.frame id (t.view id) f reading civil
      by_cases relays : f.typ = typeMsg ∧ t.hub.name id ≠ []
      · simpa [Traced.view, meant?, begun?, Traced.saidBy, State.setPhase, relays] using read
      · simpa [Traced.view, meant?, begun?, Traced.saidBy, State.setPhase, relays] using read
    · left
      by_cases relays : f.typ = typeMsg ∧ t.hub.name who ≠ []
      · simp [Traced.view, meant?, begun?, Traced.saidBy, State.setPhase, relays, own]
      · simp [Traced.view, meant?, begun?, Traced.saidBy, State.setPhase, relays, own]
  case readError who =>
    obtain ⟨reading, same⟩ := Option.ite_none_right_eq_some.mp moved
    cases same
    by_cases own : id = who
    · subst own
      right
      have failed := @Own.readError id (t.view id) reading
      simpa [Traced.view, meant?, begun?, Traced.saidBy, State.setPhase] using failed
    · exact .inl (by simp [Traced.view, meant?, begun?, Traced.saidBy, State.setPhase, own])
  case setName who =>
    split at moved
    · next name naming =>
      obtain ⟨-, same⟩ := Option.ite_none_right_eq_some.mp moved
      cases same
      by_cases own : id = who
      · subst own
        right
        have set := @Own.setName id (t.view id) name naming
        simpa [Traced.view, meant?, begun?, Traced.saidBy, State.setPhase, naming, entryOf_rename]
          using set
      · left
        simp [Traced.view, meant?, begun?, Traced.saidBy, State.setPhase, naming, entryOf_rename,
          own]
    · cases moved
  case lock who =>
    split at moved
    · next frame except last ready =>
      obtain ⟨-, same⟩ := Option.ite_none_right_eq_some.mp moved
      cases same
      by_cases own : id = who
      · subst own
        right
        have begun := @Own.lock id (t.view id) frame except last ready
        cases pending : t.pending id with
        | none =>
          simpa [Traced.view, meant?, begun?, Traced.saidBy, State.setPhase, ready, pending]
            using begun
        | some said =>
          simpa [Traced.view, meant?, begun?, Traced.saidBy, State.setPhase, ready, pending]
            using begun
      · left
        cases pending : t.pending who with
        | none =>
          simp [Traced.view, meant?, begun?, Traced.saidBy, State.setPhase, ready, pending, own]
        | some said =>
          simp [Traced.view, meant?, begun?, Traced.saidBy, State.setPhase, ready, pending, own,
            Ne.symm own]
    · cases moved
  case write w =>
    split at moved
    · split at moved
      · split_ifs at moved
        · cases moved
          exact .inl (view_of_quiet rfl rfl rfl rfl)
        · cases moved
          left
          apply view_of_quiet
          all_goals
            first
            | rfl
            | (simp only [State.advance]; split <;> rfl)
      · cases moved
    · cases moved
  case unlock =>
    split at moved
    · next who _ _ casting =>
      split at moved
      · next last sending =>
        cases moved
        by_cases own : id = who
        · subst own
          right
          have freed := @Own.unlock id (t.view id) last sending
          simpa [Traced.view, meant?, begun?, Traced.saidBy, State.setPhase] using freed
        · exact .inl (by simp [Traced.view, meant?, begun?, Traced.saidBy, State.setPhase, own])
      · cases moved
    · cases moved
  case remove who =>
    obtain ⟨⟨removing, -⟩, same⟩ := Option.ite_none_right_eq_some.mp moved
    split at same
    · next c found =>
      cases same
      by_cases own : id = who
      · subst own
        right
        have removed := @Own.remove id (t.view id) c.name removing
          (by simp [Traced.view, entryOf, found])
        by_cases unnamed : c.name = []
        · simpa [Traced.view, meant?, begun?, Traced.saidBy, State.setPhase, found, unnamed,
            entryOf_filter] using removed
        · simpa [Traced.view, meant?, begun?, Traced.saidBy, State.setPhase, found, unnamed,
            entryOf_filter] using removed
      · left
        by_cases unnamed : c.name = []
        · simp [Traced.view, meant?, begun?, Traced.saidBy, State.setPhase, found, unnamed,
            entryOf_filter, own]
        · simp [Traced.view, meant?, begun?, Traced.saidBy, State.setPhase, found, unnamed,
            entryOf_filter, own]
    · next missing =>
      cases same
      by_cases own : id = who
      · subst own
        right
        have lost := @Own.lost id (t.view id) removing
          (by simp [Traced.view, entryOf, missing])
        simpa [Traced.view, meant?, begun?, Traced.saidBy, State.setPhase, missing] using lost
      · left
        simp [Traced.view, meant?, begun?, Traced.saidBy, State.setPhase, missing, own]

/-! What holds of each thread. -/

theorem present_append (before : List Said) (said : Said) :
    present (before ++ [said]) = tell (present before) said := by
  rw [present, List.foldl_append]
  rfl

/-- A broadcast that does not pretend to be the server's, and whose length can be told. -/
def Proper (said : Said) : Prop := Fits said ∧ (said.notice = false → before 0 said.sender ≠ server)

/-- The broadcast that a thread is about to make, of which the notices are then as given. -/
def View.Ready (v : View) (frame : Bytes) (then' : Option Bytes) : Prop :=
  ∃ said, v.pending = some said ∧ Proper said ∧ frame = encode typeDeliver said.payload ∧
    present (v.said ++ [said]) = some then'

/-- A thread whose client has joined at most once. -/
def View.Good (v : View) : Prop :=
  match v.phase with
  | .absent | .starting => v.name = [] ∧ v.entry = none ∧ v.said = []
  | .reading | .removing =>
    v.entry = some v.name ∧ Fits (.left v.name) ∧ present v.said = some (named v.name)
  | .naming name =>
    name ≠ [] ∧ Fits (.joined name) ∧ v.name = [] ∧ v.entry = some [] ∧ present v.said = some none
  | .ready frame _ false =>
    v.entry = some v.name ∧ Fits (.left v.name) ∧ v.Ready frame (named v.name)
  | .sending false =>
    v.entry = some v.name ∧ Fits (.left v.name) ∧ present v.said = some (named v.name)
  | .ready frame _ true => v.Ready frame none
  | .sending true | .done => present v.said = some none

/-- Notices that are not well paired do not become so. -/
theorem present_ne_none {before : List Said} {said : Said} {then' : Option Bytes}
    (paired : present (before ++ [said]) = some then') : present before ≠ none := by
  intro broken
  rw [present_append, broken] at paired
  cases said with
  | joined name => cases paired
  | left name => cases paired
  | relayed name text => cases paired

theorem View.Ready.present_ne_none {v : View} {frame : Bytes} {then' : Option Bytes}
    (ready : v.Ready frame then') : present v.said ≠ none := by
  obtain ⟨said, -, -, -, paired⟩ := ready
  exact TcpHub.present_ne_none paired

theorem View.Good.present_ne_none {v : View} (good : v.Good) : present v.said ≠ none := by
  rw [Good] at good
  split at good
  · rw [good.2.2]
    exact nofun
  · rw [good.2.2]
    exact nofun
  · rw [good.2.2]
    exact nofun
  · rw [good.2.2]
    exact nofun
  · rw [good.2.2.2.2]
    exact nofun
  · exact good.2.2.present_ne_none
  · rw [good.2.2]
    exact nofun
  · exact good.present_ne_none
  · rw [good]
    exact nofun
  · rw [good]
    exact nofun

theorem named_of_ne {name : Bytes} (some' : name ≠ []) : named name = some name := if_neg some'

theorem named_nil : named [] = none := if_pos rfl

theorem fits_left {name : Bytes} (fits : Fits (.joined name)) : Fits (.left name) := by
  rw [Fits, Said.payload, length_deliverPayload] at fits ⊢
  have shorter : (Said.text (.left name)).length ≤ (Said.text (.joined name)).length := by
    simp [Said.text, leftText, joinedText]
  simp only [Said.sender] at fits ⊢
  omega

theorem fits_left_nil : Fits (.left []) := by decide

theorem View.Good.frame {id : ℕ} {v : View} {f : Frame} (good : v.Good)
    (reading : v.phase = .reading) (decent : Decent v.name f) :
    View.Good { v with
      phase := onFrame id v.name f
      pending := if f.typ = typeMsg ∧ v.name ≠ [] then some (.relayed v.name f.payload)
        else v.pending } := by
  rw [Good, reading] at good
  obtain ⟨entry, fits, said⟩ := good
  by_cases join : f.typ = typeJoin
  · by_cases empty : f.payload = []
    · rw [onFrame, if_pos join, if_pos empty]
      exact ⟨entry, fits, said⟩
    · obtain ⟨unnamed, short⟩ := decent.1 join empty
      rw [onFrame, if_pos join, if_neg empty]
      rw [unnamed] at entry said
      exact ⟨empty, short, unnamed, entry, said⟩
  · by_cases msg : f.typ = typeMsg
    · by_cases unnamed : v.name = []
      · rw [onFrame, if_neg join, if_pos msg, if_pos unnamed]
        exact ⟨entry, fits, said⟩
      · obtain ⟨honest, short⟩ := decent.2 msg unnamed
        rw [onFrame, if_neg join, if_pos msg, if_neg unnamed, if_pos ⟨msg, unnamed⟩]
        refine ⟨entry, fits, _, rfl, ⟨short, fun _ => honest⟩, rfl, ?_⟩
        rw [present_append, said]
        rfl
    · rw [onFrame, if_neg join, if_neg msg]
      exact ⟨entry, fits, said⟩

/-- What a thread does keeps its part good. -/
theorem View.Good.keeps {id : ℕ} {v w : View} (good : v.Good) (own : Own id v w) : w.Good := by
  cases own with
  | start absent =>
    rw [Good, absent] at good
    exact good
  | add starting =>
    rw [Good, starting] at good
    obtain ⟨name, entry, said⟩ := good
    rw [Good]
    refine ⟨?_, ?_, ?_⟩
    · rw [entry, name]
      rfl
    · rw [name]
      exact fits_left_nil
    · rw [said, name]
      rfl
  | frame f reading decent => exact good.frame reading decent
  | readError reading =>
    rw [Good, reading] at good
    exact good
  | setName name naming =>
    rw [Good, naming] at good
    obtain ⟨some', fits, -, entry, said⟩ := good
    refine ⟨?_, fits_left fits, _, rfl, ⟨fits, nofun⟩, rfl, ?_⟩
    · rw [entry]
      rfl
    · rw [present_append, said, named_of_ne some']
      rfl
  | lock frame except last ready =>
    rw [Good, ready] at good
    cases last with
    | false =>
      obtain ⟨entry, fits, said, pending, -, -, paired⟩ := good
      rw [pending]
      exact ⟨entry, fits, paired⟩
    | true =>
      obtain ⟨said, pending, -, -, paired⟩ := good
      rw [pending]
      exact paired
  | unlock last sending =>
    rw [Good, sending] at good
    cases last with
    | false => exact good
    | true => exact good
  | remove name removing here =>
    rw [Good, removing] at good
    obtain ⟨entry, fits, said⟩ := good
    obtain rfl := Option.some.inj (here.symm.trans entry)
    by_cases unnamed : v.name = []
    · rw [afterRemove, if_pos unnamed, if_pos unnamed]
      rw [unnamed, named_nil] at said
      exact said
    · rw [afterRemove, if_neg unnamed, if_neg unnamed]
      refine ⟨_, rfl, ⟨fits, nofun⟩, rfl, ?_⟩
      rw [present_append, said, named_of_ne unnamed]
      exact if_pos rfl
  | lost removing missing =>
    rw [Good, removing] at good
    rw [missing] at good
    cases good.1

/-! What holds of the server. -/

structure Traced.Inv (t : Traced) : Prop where
  fresh : ∀ id, t.hub.threads.length ≤ id → t.hub.phase id = .absent
  good : ∀ id, (t.view id).Good
  log : ∀ sent ∈ t.log, Proper sent.said ∧ sent.frame = encode typeDeliver sent.said.payload

theorem absent_of_update {phase : ℕ → Phase} {who id : ℕ} {p : Phase}
    (moving : phase who ≠ .absent) (absent : phase id = .absent) :
    Function.update phase who p id = .absent := by
  have other : id ≠ who := by
    rintro rfl
    exact moving absent
  rw [Function.update_of_ne other, absent]

theorem advance_same (s : State) (c : Cast) (left : Option Bytes) :
    (s.advance c left).threads = s.threads ∧ (s.advance c left).phase = s.phase := by
  unfold State.advance
  split <;> exact ⟨rfl, rfl⟩

/-- A new thread takes a number that no thread has, and only threads that there are move. -/
theorem fresh_of_act {s u : State} {a : Action}
    (fresh : ∀ id, s.threads.length ≤ id → s.phase id = .absent) (moved : act s a = some u)
    (id : ℕ) (new : u.threads.length ≤ id) : u.phase id = .absent := by
  cases a <;> simp only [act] at moved
  case sigint =>
    cases moved
    exact fresh id new
  case disconnect =>
    cases moved
    exact fresh id new
  case accept =>
    obtain ⟨-, same⟩ := Option.ite_none_right_eq_some.mp moved
    cases same
    rw [List.length_append, List.length_singleton] at new
    change Function.update s.phase s.threads.length _ id = _
    rw [Function.update_of_ne (by omega)]
    exact fresh id (by omega)
  case requestStop =>
    cases main : s.main with
    | loop => simp only [main, reduceCtorEq] at moved
    | stopping code todo =>
      simp only [main] at moved
      obtain ⟨-, same⟩ := Option.ite_none_right_eq_some.mp moved
      cases same
      exact fresh id new
  case exit =>
    cases main : s.main with
    | loop => simp only [main, reduceCtorEq] at moved
    | stopping code todo =>
      cases todo with
      | nil =>
        simp only [main] at moved
        obtain ⟨-, same⟩ := Option.ite_none_right_eq_some.mp moved
        cases same
        exact fresh id new
      | cons _ _ => simp only [main, reduceCtorEq] at moved
  case add who =>
    obtain ⟨⟨starting, -⟩, same⟩ := Option.ite_none_right_eq_some.mp moved
    cases same
    exact absent_of_update (by simp [starting]) (fresh id new)
  case frame who f =>
    obtain ⟨reading, same⟩ := Option.ite_none_right_eq_some.mp moved
    cases same
    exact absent_of_update (by simp [reading]) (fresh id new)
  case readError who =>
    obtain ⟨reading, same⟩ := Option.ite_none_right_eq_some.mp moved
    cases same
    exact absent_of_update (by simp [reading]) (fresh id new)
  case setName who =>
    split at moved
    · next name naming =>
      obtain ⟨-, same⟩ := Option.ite_none_right_eq_some.mp moved
      cases same
      exact absent_of_update (by simp [naming]) (fresh id new)
    · cases moved
  case lock who =>
    split at moved
    · next frame except last ready =>
      obtain ⟨-, same⟩ := Option.ite_none_right_eq_some.mp moved
      cases same
      exact absent_of_update (by simp [ready]) (fresh id new)
    · cases moved
  case write w =>
    split at moved
    · split at moved
      · split_ifs at moved
        · cases moved
          exact fresh id new
        · cases moved
          obtain ⟨threads, phase⟩ := advance_same s _ (w.rest _)
          rw [threads] at new
          rw [phase]
          exact fresh id new
      · cases moved
    · cases moved
  case unlock =>
    split at moved
    · next who _ _ casting =>
      split at moved
      · next last sending =>
        cases moved
        exact absent_of_update (by simp [sending]) (fresh id new)
      · cases moved
    · cases moved
  case remove who =>
    obtain ⟨⟨removing, -⟩, same⟩ := Option.ite_none_right_eq_some.mp moved
    split at same
    · cases same
      exact absent_of_update (by simp [removing]) (fresh id new)
    · cases same
      exact absent_of_update (by simp [removing]) (fresh id new)
  all_goals
    obtain ⟨-, same⟩ := Option.ite_none_right_eq_some.mp moved
    cases same
    exact fresh id new

/-- A broadcast is the one that its thread had ready. -/
theorem proper_of_begun {t : Traced} {a : Action} {sent : Sent} (good : ∀ id, (t.view id).Good)
    (begun : begun? t.hub t.pending a = some sent) :
    Proper sent.said ∧ sent.frame = encode typeDeliver sent.said.payload := by
  cases a with
  | lock id =>
    have ready := good id
    rw [begun?] at begun
    split at begun
    · next frame except last here =>
      rw [View.Good, show (t.view id).phase = _ from here] at ready
      obtain ⟨then', said, pending, proper, rfl, -⟩ : ∃ then', (t.view id).Ready frame then' := by
        cases last with
        | false => exact ⟨_, ready.2.2⟩
        | true => exact ⟨_, ready⟩
      rw [show t.pending id = some said from pending] at begun
      cases begun
      exact ⟨proper, rfl⟩
    · cases begun
  | _ => cases begun

theorem Traced.Inv.keeps {t u : Traced} {a : Action} (inv : t.Inv) (civil : Civil t a)
    (taken : t.step a = some u) : u.Inv := by
  have moves := own_of_step civil inv.fresh taken
  obtain ⟨hub, moved, rfl⟩ := Traced.step_eq taken
  refine ⟨fresh_of_act inv.fresh moved, fun id => ?_, fun sent member => ?_⟩
  · rcases moves id with same | own
    · rw [same]
      exact inv.good id
    · exact (inv.good id).keeps own
  · rcases List.mem_append.mp member with old | new
    · exact inv.log sent old
    · exact proper_of_begun inv.good (Option.mem_toList.mp new)

/-- Proper broadcasts are read one by one. -/
theorem parse_frames {heard : List Sent}
    (proper : ∀ sent ∈ heard,
      Proper sent.said ∧ sent.frame = encode typeDeliver sent.said.payload) :
    (wire.parse (heard.flatMap Sent.frame)).1 =
      heard.map fun sent => ⟨typeDeliver, sent.said.payload⟩ := by
  induction heard with
  | nil => exact congrArg Prod.fst parse_nil
  | cons sent rest ih =>
    obtain ⟨⟨fits, -⟩, frame⟩ := proper sent List.mem_cons_self
    rw [List.flatMap_cons, frame, parse_encode fits, List.map_cons,
      ih fun other member => proper other (List.mem_cons_of_mem _ member)]

theorem senderOf_payload (said : Said) : senderOf said.payload = some (before 0 said.sender) := by
  obtain ⟨rest, found⟩ := splitFirst?_append_cons 0 said.sender said.text
  rw [senderOf, Said.payload, deliverPayload, found]
  rfl

theorem Traced.Inv.sound {t : Traced} (inv : t.Inv) : Sound t where
  reserved := by
    intro heard part f member _ named
    rw [parse_frames fun sent inside => inv.log sent (part.subset inside)] at member
    obtain ⟨sent, inside, rfl⟩ := List.mem_map.mp member
    refine ⟨sent, inside, ?_, rfl⟩
    have proper := (inv.log sent (part.subset inside)).1
    rw [senderOf_payload] at named
    cases own : sent.said.notice with
    | true => rfl
    | false => exact absurd (Option.some.inj named) (proper.2 own)
  paired id := (inv.good id).present_ne_none
  reading := by
    intro id reading
    have good := inv.good id
    rw [View.Good, show (t.view id).phase = _ from reading] at good
    exact good.2.2
  gone := by
    intro id gone
    have good := inv.good id
    rw [View.Good, show (t.view id).phase = _ from gone] at good
    exact good

/-- In a run whose clients are all decent, `server` says only who joined and left, and every name is
announced as gone once it is. -/
theorem notices_sound {t : Traced} {acts : List Action}
    (civil : traced.Meets Civil traced.init acts) (run : traced.run? acts = some t) : Sound t := by
  have start : (traced.init).Inv :=
    ⟨fun _ _ => rfl, fun _ => ⟨rfl, rfl, rfl⟩, nofun⟩
  exact (@Machine.run?_keeps_of_meets _ _ _ Traced.Inv Civil start
    (fun _ _ _ inv allowed taken => Traced.Inv.keeps inv allowed taken) _ _ civil run).sound

/-- A client joins, says something and goes. -/
def visit : List Action := [.accept, .add 0, .frame 0 ⟨typeJoin, [97]⟩, .setName 0, .lock 0,
  .write (.count 21), .unlock, .frame 0 ⟨typeMsg, [98]⟩, .lock 0, .unlock, .readError 0, .remove 0,
  .lock 0, .unlock]

theorem notices_sound_visit : ∃ t, traced.run? visit = some t ∧ Sound t := by
  obtain ⟨t, run⟩ : ∃ t, traced.run? visit = some t := ⟨_, rfl⟩
  exact ⟨t, run, notices_sound (by decide) run⟩

/-- A client joins as `server`, speaks to another one, and joins again. -/
def imposture : List Action := [.accept, .accept, .add 0, .add 1, .frame 0 ⟨typeJoin, server⟩,
  .setName 0, .lock 0, .write (.count 26), .write (.count 26), .unlock, .frame 0 ⟨typeMsg, [97]⟩,
  .lock 0, .write (.count 14), .unlock, .frame 0 ⟨typeJoin, [98]⟩, .setName 0, .lock 0]

/-- What it says is shown as the server's, and its first name is never announced as gone. -/
theorem not_sound_imposture : ∃ t, traced.run? imposture = some t ∧
    (∃ sent ∈ t.log, sent.said.notice = false ∧ senderOf sent.said.payload = some server) ∧
    present (t.saidBy 0) = none ∧ ¬ Sound t := by
  refine ⟨_, rfl, ⟨_, List.mem_of_getElem? (i := 1) rfl, rfl, rfl⟩, ?_, ?_⟩
  · rfl
  · intro sound
    apply sound.paired 0
    rfl

end LinuxSys.Servers.TcpHub
