import LinuxSys.Chatterd.AsyncHub
import LinuxSys.Lib.History

/-! # The order of broadcasts in chatterd ch27

The hub takes one broadcast after another, so there is one order of all of them. A client's writer is
handed the broadcasts of the others while it is registered in that order, and a sender's messages
stand in the order in which they were read.
-/

namespace LinuxSys.Chatterd.AsyncHub

open Lib

/-- A broadcast as the hub takes it, with the clients that are registered. -/
structure Broadcast where
  sender : ℕ
  frame : Bytes
  clients : List ℕ
deriving DecidableEq, Repr

inductive Event where
  | offered (i : ℕ) (frame : Bytes)
  | taken (b : Broadcast)
  | handed (d : ℕ) (frame : Bytes)
deriving DecidableEq, Repr

/-- A reader offers a frame, the hub takes it, a writer is handed it. -/
def State.events (s : State) : Action → List Event
  | .frame i payload => [.offered i (deliver (s.nick i) payload)]
  | .broadcast i _ =>
    match s.phase i with
    | .broadcasting frame => [.taken ⟨i, frame, s.clients⟩]
    | _ => []
  | .receive d =>
    match s.out d with
    | frame :: _ => [.handed d frame]
    | [] => []
  | _ => []

def Event.offered? (i : ℕ) : Event → Option Bytes
  | .offered j frame => if j = i then some frame else none
  | _ => none

def Event.taken? : Event → Option Broadcast
  | .taken b => some b
  | _ => none

def Event.handed? (d : ℕ) : Event → Option Bytes
  | .handed e frame => if e = d then some frame else none
  | _ => none

/-- What a client has sent, as frames for the others. -/
def offered (past : List Event) (i : ℕ) : List Bytes := past.filterMap (Event.offered? i)

/-- All broadcasts in the order in which the hub has taken them. -/
def log (past : List Event) : List Broadcast := past.filterMap Event.taken?

/-- What a client's writer has been handed. -/
def handed (past : List Event) (d : ℕ) : List Bytes := past.filterMap (Event.handed? d)

/-- A client is to have what others send while it is registered. -/
def due (all : List Broadcast) (d : ℕ) : List Bytes :=
  (all.filter fun b => b.sender ≠ d ∧ d ∈ b.clients).map Broadcast.frame

def sent (all : List Broadcast) (i : ℕ) : List Bytes :=
  (all.filter fun b => b.sender = i).map Broadcast.frame

/-- What the hub is about to send to a client. -/
def Hub.owed (hub : Hub) (d : ℕ) : List Bytes :=
  match hub with
  | .sending frame todo => if d ∈ todo then [frame] else []
  | _ => []

/-- What a client has offered and the hub has not taken. A reader gives it up on shutdown only. -/
def Phase.Late : Phase → List Bytes → Prop
  | .broadcasting frame, late => late = [frame]
  | .finished, late => late.length ≤ 1
  | _, late => late = []

/-- No client is registered twice. -/
structure Known (s : State) : Prop where
  bound : ∀ i, s.accepted < i → s.phase i = .absent
  fresh : ∀ i, (s.phase i).fresh = true → i ∉ s.clients
  nodup : s.clients.Nodup
  once : s.hub.todo.Nodup

structure Ordered (s : State) (past : List Event) : Prop where
  known : Known s
  receives : ∀ d, due (log past) d = handed past d ++ s.out d ++ s.hub.owed d
  sends : ∀ i, ∃ late, offered past i = sent (log past) i ++ late ∧ (s.phase i).Late late

section Steps

variable {s t : State} {past : List Event} {i d : ℕ} {p : Phase} {frame : Bytes}

theorem Known.setPhase (known : Known s) (fresh : p.fresh = true → (s.phase i).fresh = true)
    (there : s.phase i ≠ .absent) : Known (s.setPhase i p) := by
  refine ⟨fun j beyond => ?_, fun j new => ?_, known.nodup, known.once⟩
  · have apart : j ≠ i := by
      rintro rfl
      exact there (known.bound j beyond)
    exact (Function.update_of_ne apart _ _).trans (known.bound j beyond)
  · rcases eq_or_ne j i with rfl | apart
    · rw [State.setPhase_phase, Function.update_self] at new
      exact known.fresh j (fresh new)
    · rw [State.setPhase_phase, Function.update_of_ne apart] at new
      exact known.fresh j new

/-- A client goes on without a broadcast. -/
theorem Ordered.setPhase (ordered : Ordered s past) (fresh : p.fresh = true → (s.phase i).fresh = true)
    (there : s.phase i ≠ .absent) (late : ∀ late, (s.phase i).Late late → p.Late late) :
    Ordered (s.setPhase i p) past := by
  refine ⟨ordered.known.setPhase fresh there, ordered.receives, fun j => ?_⟩
  obtain ⟨rest, split, waits⟩ := ordered.sends j
  refine ⟨rest, split, ?_⟩
  rcases eq_or_ne j i with rfl | apart
  · rw [State.setPhase_phase, Function.update_self]
    exact late rest waits
  · rw [State.setPhase_phase, Function.update_of_ne apart]
    exact waits

theorem Ordered.accept (ordered : Ordered s past) :
    Ordered { s.setPhase (s.accepted + 1) .joining with accepted := s.accepted + 1 } past := by
  have absent := ordered.known.bound (s.accepted + 1) (Nat.lt_succ_self _)
  have update (j : ℕ) (apart : j ≠ s.accepted + 1) :
      Function.update s.phase (s.accepted + 1) Phase.joining j = s.phase j :=
    Function.update_of_ne apart _ _
  refine ⟨⟨fun j beyond => ?_, fun j new => ?_, ordered.known.nodup, ordered.known.once⟩,
    ordered.receives, fun j => ?_⟩
  · exact (update j (ne_of_gt beyond)).trans (ordered.known.bound j (Nat.lt_of_succ_lt beyond))
  · rcases eq_or_ne j (s.accepted + 1) with rfl | apart
    · exact ordered.known.fresh _ (by rw [absent]; rfl)
    · exact ordered.known.fresh j ((congrArg Phase.fresh (update j apart)).symm.trans new)
  · obtain ⟨rest, split, waits⟩ := ordered.sends j
    refine ⟨rest, split, ?_⟩
    change (Function.update s.phase (s.accepted + 1) Phase.joining j).Late rest
    rcases eq_or_ne j (s.accepted + 1) with rfl | apart
    · rw [absent] at waits
      rw [Function.update_self]
      exact waits
    · rw [update j apart]
      exact waits

/-- The hub takes up a broadcast, which is owed to all others that are registered. -/
theorem Ordered.broadcast (ordered : Ordered s past) {todo : List ℕ} (selecting : s.hub = .selecting)
    (here : s.phase i = .broadcasting frame) (those : todo.Perm (s.clients.filter (· ≠ i))) :
    Ordered { s.setPhase i .reading with hub := .sending frame todo }
      (past ++ [.taken ⟨i, frame, s.clients⟩]) := by
  have moved : Known (s.setPhase i .reading) :=
    ordered.known.setPhase (by simp [Phase.fresh]) (by simp [here])
  have taken : log (past ++ [.taken ⟨i, frame, s.clients⟩]) = log past ++ [⟨i, frame, s.clients⟩] := by
    simp [log, Event.taken?]
  refine ⟨⟨moved.bound, moved.fresh, moved.nodup, those.symm.nodup (ordered.known.nodup.filter _)⟩,
    fun d => ?_, fun j => ?_⟩
  · have before := ordered.receives d
    have nothing : Hub.selecting.owed d = [] := rfl
    rw [selecting, nothing, List.append_nil] at before
    have same : handed (past ++ [.taken ⟨i, frame, s.clients⟩]) d = handed past d := by
      simp [handed, Event.handed?]
    have owed : due [⟨i, frame, s.clients⟩] d = (Hub.sending frame todo).owed d := by
      have member : d ∈ todo ↔ i ≠ d ∧ d ∈ s.clients := by
        rw [those.mem_iff, List.mem_filter, and_comm, decide_eq_true_iff, ne_comm]
      simp only [Hub.owed, member, due]
      split_ifs with there
      · simp [there]
      · simp [there]
    rw [taken, same, due, List.filter_append, List.map_append]
    exact congrArg₂ List.append before owed
  · obtain ⟨rest, split, waits⟩ := ordered.sends j
    have same : offered (past ++ [.taken ⟨i, frame, s.clients⟩]) j = offered past j := by
      simp [offered, Event.offered?]
    rw [same, taken, sent, List.filter_append, List.map_append]
    change ∃ late, _ ∧ (Function.update s.phase i Phase.reading j).Late late
    rcases eq_or_ne j i with rfl | apart
    · rw [here] at waits
      obtain rfl : rest = [frame] := waits
      exact ⟨[], by simpa [sent] using split, by rw [Function.update_self]; rfl⟩
    · refine ⟨rest, by simpa [sent, apart.symm] using split, ?_⟩
      rw [Function.update_of_ne apart]
      exact waits

/-- What the hub owed to a client is in its channel. -/
theorem Ordered.send (ordered : Ordered s past) {rest : List ℕ}
    (sending : s.hub = .sending frame (d :: rest)) :
    Ordered { s.setOut d (s.out d ++ [frame]) with hub := .sending frame rest } past := by
  have once := ordered.known.once
  rw [sending, Hub.todo, List.nodup_cons] at once
  refine ⟨⟨ordered.known.bound, ordered.known.fresh, ordered.known.nodup, once.2⟩, fun e => ?_,
    ordered.sends⟩
  have before := ordered.receives e
  rw [sending] at before
  change due (log past) e = handed past e ++ Function.update s.out d (s.out d ++ [frame]) e ++ _
  rw [before]
  rcases eq_or_ne e d with rfl | apart
  · rw [Function.update_self]
    simp [Hub.owed, once.1]
  · rw [Function.update_of_ne apart]
    simp [Hub.owed, apart]

/-- A writer takes the next frame out of its channel. -/
theorem Ordered.receive (ordered : Ordered s past) {rest : List Bytes} {w : Writer}
    (first : s.out d = frame :: rest) :
    Ordered ((s.setWriter d w).setOut d rest) (past ++ [.handed d frame]) := by
  have taken : log (past ++ [.handed d frame]) = log past := by simp [log, Event.taken?]
  refine ⟨⟨ordered.known.bound, ordered.known.fresh, ordered.known.nodup, ordered.known.once⟩,
    fun e => ?_, fun j => ?_⟩
  · have before := ordered.receives e
    change _ = _ ++ Function.update s.out d rest e ++ s.hub.owed e
    rw [taken, before]
    rcases eq_or_ne e d with rfl | apart
    · rw [Function.update_self, first]
      simp [handed, Event.handed?]
    · rw [Function.update_of_ne apart]
      simp [handed, Event.handed?, apart.symm]
  · have same : offered (past ++ [.handed d frame]) j = offered past j := by
      simp [offered, Event.offered?]
    rw [taken, same]
    exact ordered.sends j

/-- A reader has read a message. -/
theorem Ordered.offer (ordered : Ordered s past) (here : s.phase i = .reading) :
    Ordered (s.setPhase i (.broadcasting frame)) (past ++ [.offered i frame]) := by
  have taken : log (past ++ [.offered i frame]) = log past := by simp [log, Event.taken?]
  refine ⟨ordered.known.setPhase (by simp [Phase.fresh]) (by simp [here]), fun d => ?_, fun j => ?_⟩
  · have same : handed (past ++ [.offered i frame]) d = handed past d := by
      simp [handed, Event.handed?]
    rw [taken, same]
    exact ordered.receives d
  · obtain ⟨rest, split, waits⟩ := ordered.sends j
    rw [taken, State.setPhase_phase]
    rcases eq_or_ne j i with rfl | apart
    · rw [here] at waits
      obtain rfl : rest = [] := waits
      refine ⟨[frame], ?_, by rw [Function.update_self]; rfl⟩
      rw [List.append_nil] at split
      rw [← split]
      simp [offered, Event.offered?]
    · refine ⟨rest, ?_, by rw [Function.update_of_ne apart]; exact waits⟩
      rw [← split]
      simp [offered, Event.offered?, apart.symm]

theorem Ordered.register (ordered : Ordered s past) (here : s.phase i = .registering) :
    Ordered { s.setPhase i .registered with clients := s.clients ++ [i] } past := by
  have absent := ordered.known.fresh i (by rw [here]; rfl)
  have moved : Ordered (s.setPhase i .registered) past :=
    ordered.setPhase (by simp [Phase.fresh]) (by simp [here]) (by simp [here, Phase.Late])
  refine ⟨⟨moved.known.bound, fun j new member => ?_, ?_, moved.known.once⟩, moved.receives,
    moved.sends⟩
  · rcases List.mem_append.mp member with old | added
    · exact moved.known.fresh j new old
    · obtain rfl := List.mem_singleton.mp added
      change (Function.update s.phase j .registered j).fresh = true at new
      rw [Function.update_self] at new
      cases new
  · rw [List.nodup_append]
    refine ⟨ordered.known.nodup, List.pairwise_singleton _ i, fun a old b new => ?_⟩
    rintro rfl
    exact absent (List.mem_singleton.mp new ▸ old)

theorem Ordered.unregister (ordered : Ordered s past) (here : s.phase i = .unregistering) :
    Ordered ((s.setPhase i .finished).remove i) past := by
  have moved : Ordered (s.setPhase i .finished) past :=
    ordered.setPhase (by simp [Phase.fresh]) (by simp [here]) (by simp [here, Phase.Late])
  rw [State.remove]
  split_ifs
  · exact ⟨⟨moved.known.bound, fun j new member =>
      moved.known.fresh j new (List.mem_of_mem_filter member), moved.known.nodup.filter _,
      moved.known.once⟩, moved.receives, moved.sends⟩
  · exact moved

theorem Ordered.act (ordered : Ordered s past) {a : Action} (taken : s.act a = some t) :
    Ordered t (past ++ s.events a) := by
  have none_given : past ++ [] = past := List.append_nil past
  cases a with
  | accept =>
    cases taken
    exact none_given.symm ▸ ordered.accept
  | cancel =>
    cases taken
    exact none_given.symm ▸ { ordered with known := { ordered.known with } }
  | exit =>
    obtain ⟨-, made⟩ := Option.ite_none_right_eq_some.mp taken
    cases made
    exact none_given.symm ▸ { ordered with known := { ordered.known with } }
  | join i payload =>
    obtain ⟨here, made⟩ := Option.ite_none_right_eq_some.mp taken
    cases made
    have moved : Ordered (s.setPhase i .registering) past :=
      ordered.setPhase (by simp [here, Phase.fresh]) (by simp [here]) (by simp [here, Phase.Late])
    exact none_given.symm ▸ { moved with known := { moved.known with } }
  | register i =>
    obtain ⟨⟨selecting, here⟩, made⟩ := Option.ite_none_right_eq_some.mp taken
    cases made
    exact none_given.symm ▸ ordered.register here
  | spawn i =>
    obtain ⟨here, made⟩ := Option.ite_none_right_eq_some.mp taken
    cases made
    have moved : Ordered (s.setPhase i .reading) past :=
      ordered.setPhase (by simp [Phase.fresh]) (by simp [here]) (by simp [here, Phase.Late])
    exact none_given.symm ▸ { moved with known := { moved.known with } }
  | frame i payload =>
    obtain ⟨here, made⟩ := Option.ite_none_right_eq_some.mp taken
    cases made
    exact ordered.offer here
  | readError i =>
    simp only [State.act] at taken
    split_ifs at taken with here here
    · cases taken
      exact none_given.symm ▸ ordered.setPhase (by simp [Phase.fresh]) (by simp [here])
        (by simp [here, Phase.Late])
    · cases taken
      exact none_given.symm ▸ ordered.setPhase (by simp [Phase.fresh]) (by simp [here])
        (by simp [here, Phase.Late])
  | giveUp i =>
    simp only [State.act] at taken
    split_ifs at taken
    split at taken
    all_goals try cases taken
    all_goals
      rename_i here
      exact none_given.symm ▸ ordered.setPhase (by simp [Phase.fresh]) (by simp [here])
        (by simp [here, Phase.Late])
  | broadcast i todo =>
    simp only [State.act] at taken
    split at taken
    · next frame selecting here =>
      obtain ⟨those, made⟩ := Option.ite_none_right_eq_some.mp taken
      cases made
      have given : s.events (.broadcast i todo) = [.taken ⟨i, frame, s.clients⟩] := by
        rw [State.events, here]
      rw [given]
      exact ordered.broadcast selecting here those
    · cases taken
  | send =>
    simp only [State.act] at taken
    split at taken
    · next frame d rest sending =>
      obtain ⟨-, made⟩ := Option.ite_none_right_eq_some.mp taken
      cases made
      exact none_given.symm ▸ ordered.send sending
    · cases taken
  | sent =>
    simp only [State.act] at taken
    split at taken
    · next frame sending =>
      cases taken
      refine none_given.symm ▸ ⟨{ ordered.known with once := List.nodup_nil }, fun d => ?_,
        ordered.sends⟩
      have before := ordered.receives d
      rw [sending] at before
      simpa [Hub.owed] using before
    · cases taken
  | unregister i =>
    obtain ⟨⟨selecting, here⟩, made⟩ := Option.ite_none_right_eq_some.mp taken
    cases made
    exact none_given.symm ▸ ordered.unregister here
  | stop =>
    obtain ⟨⟨selecting, -⟩, made⟩ := Option.ite_none_right_eq_some.mp taken
    cases made
    refine none_given.symm ▸ ⟨{ ordered.known with once := List.nodup_nil }, fun d => ?_,
      ordered.sends⟩
    have before := ordered.receives d
    rw [selecting] at before
    exact before
  | receive d =>
    simp only [State.act] at taken
    split at taken
    · next frame rest here first =>
      cases taken
      have given : s.events (.receive d) = [.handed d frame] := by rw [State.events, first]
      rw [given]
      exact ordered.receive first
    · cases taken
  | wrote d =>
    simp only [State.act] at taken
    split at taken
    · cases taken
      exact none_given.symm ▸ { ordered with known := { ordered.known with } }
    · cases taken
  | writeError d =>
    simp only [State.act] at taken
    split at taken
    · cases taken
      exact none_given.symm ▸ { ordered with known := { ordered.known with } }
    · cases taken
  | stopWriter d =>
    obtain ⟨-, made⟩ := Option.ite_none_right_eq_some.mp taken
    cases made
    exact none_given.symm ▸ { ordered with known := { ordered.known with } }

end Steps

/-- In every run, what the others have sent while a client was registered is what its writer has been
handed, its channel holds and the hub owes it, in the one order of the hub; and what the hub has taken
from a client is what that has sent, in its order, but for the last. -/
theorem handed_in_order (acts : List Action) (s : State) (run : server.run? acts = some s) :
    let past := server.history State.events server.init acts
    (∀ d, due (log past) d = handed past d ++ s.out d ++ s.hub.owed d) ∧
      ∀ i, ∃ late, offered past i = sent (log past) i ++ late ∧ (s.phase i).Late late := by
  have start : Ordered server.init [] := by
    refine ⟨⟨fun _ _ => rfl, fun _ _ => List.not_mem_nil, List.nodup_nil, List.nodup_nil⟩,
      fun _ => rfl, fun _ => ⟨[], rfl, rfl⟩⟩
  have keeps (s : State) (a : Action) (t : State) (past : List Event) (ordered : Ordered s past)
      (taken : server.step s a = some t) : Ordered t (past ++ s.events a) := by
    simp only [server] at taken
    split_ifs at taken
    exact ordered.act taken
  have ordered := Machine.history_keeps keeps start run
  rw [List.nil_append] at ordered
  exact ⟨ordered.receives, ordered.sends⟩

/-- One of two clients sends two messages, of which the other has been handed the first. -/
theorem handed_in_order_two :
    let acts : List Action := [.accept, .accept, .join 1 [97], .join 2 [98], .register 1, .register 2,
      .spawn 1, .spawn 2, .frame 1 [120], .broadcast 1 [2], .frame 1 [121], .send, .sent, .receive 2]
    ∃ s, server.run? acts = some s ∧
      let past := server.history State.events server.init acts
      (∀ d, due (log past) d = handed past d ++ s.out d ++ s.hub.owed d) ∧
        ∀ i, ∃ late, offered past i = sent (log past) i ++ late ∧ (s.phase i).Late late := by
  intro acts
  obtain ⟨s, run⟩ : ∃ s, server.run? acts = some s := ⟨_, rfl⟩
  exact ⟨s, run, handed_in_order acts s run⟩

end LinuxSys.Chatterd.AsyncHub
