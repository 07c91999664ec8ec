import LinuxSys.Chatterd.Wire
import LinuxSys.Lib.Progress

/-! # The Go hub of ch21

Every client has a reader goroutine, which drives the hub, and a writer goroutine, which drains the
client's channel of 64 frames to the socket. A broadcast takes the clients under the mutex and then
queues the frame with each: it waits at a full channel until there is room or the client's `done`
is closed. The writer returns when a write fails; `done` is closed by the reader, when it removes
the client.
-/

namespace LinuxSys.Servers.GoHub

open Lib Chatterd

def buildDeliver (name text : Bytes) : Bytes := encode typeDeliver (deliverPayload name text)

/-- The capacity of `out`. -/
def capacity : ℕ := 64

/-- Where the reader goroutine of a client stands. The last broadcast comes after the removal. -/
inductive Phase where
  | absent
  | starting
  | reading
  | naming (name : Bytes)
  | ready (frame : Bytes) (except : Option ℕ) (last : Bool)
  | sending (frame : Bytes) (todo : List ℕ) (last : Bool)
  | removing
  | finished
deriving DecidableEq, Repr

/-- Where the writer goroutine of a client stands. -/
inductive Writer where
  | absent
  | selecting
  | writing (frame : Bytes)
  | returned
deriving DecidableEq, Repr

structure State where
  exited : Bool := false
  cancelled : Bool := false
  /-- The last id given. -/
  lastId : ℕ := 0
  phase : ℕ → Phase := fun _ => .absent
  /-- `myName` of each reader. -/
  myName : ℕ → Bytes := fun _ => []
  /-- The keys of `hub.clients`. -/
  clients : List ℕ := []
  name : ℕ → Bytes := fun _ => []
  out : ℕ → List Bytes := fun _ => []
  done : ℕ → Bool := fun _ => false
  writer : ℕ → Writer := fun _ => .absent

inductive Action where
  | accept
  | sigint
  | exit
  | add (i : ℕ)
  | frame (i : ℕ) (f : Frame)
  | readError (i : ℕ)
  | setName (i : ℕ)
  | targets (i : ℕ) (todo : List ℕ)
  | send (i : ℕ)
  | skip (i : ℕ)
  | sent (i : ℕ)
  | remove (i : ℕ)
  | receive (i : ℕ)
  | wrote (i : ℕ)
  | writeError (i : ℕ)
  | stopWriter (i : ℕ)
deriving DecidableEq, Repr

/-- What `serveClient` does with a frame. -/
def onFrame (i : ℕ) (myName : Bytes) (f : Frame) : Phase :=
  if f.typ = typeJoin then
    if f.payload = [] then .removing else .naming f.payload
  else if f.typ = typeMsg then
    if myName = [] then .reading else .ready (buildDeliver myName f.payload) (some i) false
  else .reading

/-- After `remove`: a client that had a name is announced as gone. -/
def afterRemove (name : Bytes) : Phase :=
  if name = [] then .finished
  else .ready (buildDeliver (ascii "server") (name ++ ascii " left")) none true

namespace State

def setPhase (s : State) (i : ℕ) (phase : Phase) : State :=
  { s with phase := Function.update s.phase i phase }

def setWriter (s : State) (i : ℕ) (writer : Writer) : State :=
  { s with writer := Function.update s.writer i writer }

def setOut (s : State) (i : ℕ) (out : List Bytes) : State :=
  { s with out := Function.update s.out i out }

/-- What a running server does. -/
def act (s : State) : Action → Option State
  | .accept => some { s.setPhase (s.lastId + 1) .starting with lastId := s.lastId + 1 }
  | .sigint => some { s with cancelled := true }
  | .exit => some { s with exited := true }
  | .add i =>
    if s.phase i = .starting then
      some { (s.setPhase i .reading).setWriter i .selecting with clients := s.clients ++ [i] }
    else none
  | .frame i f =>
    if s.phase i = .reading then
      some { s.setPhase i (onFrame i (s.myName i) f) with
        myName := if f.typ = typeJoin ∧ f.payload ≠ [] then
          Function.update s.myName i f.payload else s.myName }
    else none
  | .readError i => if s.phase i = .reading then some (s.setPhase i .removing) else none
  | .setName i =>
    match s.phase i with
    | .naming name =>
      let joined := buildDeliver (ascii "server") (name ++ ascii " joined")
      some { s.setPhase i (.ready joined none false) with name := Function.update s.name i name }
    | _ => none
  | .targets i todo =>
    match s.phase i with
    | .ready frame except last =>
      if todo.Perm (s.clients.filter fun j => except ≠ some j) then
        some (s.setPhase i (.sending frame todo last))
      else none
    | _ => none
  | .send i =>
    match s.phase i with
    | .sending frame (d :: rest) last =>
      if (s.out d).length < capacity then
        some ((s.setPhase i (.sending frame rest last)).setOut d (s.out d ++ [frame]))
      else none
    | _ => none
  | .skip i =>
    match s.phase i with
    | .sending frame (d :: rest) last =>
      if s.done d then some (s.setPhase i (.sending frame rest last)) else none
    | _ => none
  | .sent i =>
    match s.phase i with
    | .sending _ [] last => some (s.setPhase i (if last then .finished else .reading))
    | _ => none
  | .remove i =>
    if s.phase i = .removing then
      some { s.setPhase i (afterRemove (s.name i)) with
        clients := s.clients.filter (· ≠ i), done := Function.update s.done i true }
    else none
  | .receive i =>
    match s.writer i, s.out i with
    | .selecting, frame :: rest => some ((s.setWriter i (.writing frame)).setOut i rest)
    | _, _ => none
  | .wrote i =>
    match s.writer i with
    | .writing _ => some (s.setWriter i .selecting)
    | _ => none
  | .writeError i =>
    match s.writer i with
    | .writing _ => some (s.setWriter i .returned)
    | _ => none
  | .stopWriter i =>
    if s.writer i = .selecting ∧ (s.done i ∨ s.cancelled) then some (s.setWriter i .returned)
    else none

/-- A reader stands at a full channel. -/
def Blocked (s : State) (i d : ℕ) : Prop :=
  ∃ frame rest last, s.phase i = .sending frame (d :: rest) last ∧
    (s.out d).length = capacity ∧ s.done d = false

end State

def hub : Machine State Action where
  init := {}
  step s a := if s.exited then none else s.act a

/-- What each action does, and where. -/
inductive Effect (s : State) : Action → State → Prop
  | accept : Effect s .accept { s.setPhase (s.lastId + 1) .starting with lastId := s.lastId + 1 }
  | sigint : Effect s .sigint { s with cancelled := true }
  | exit : Effect s .exit { s with exited := true }
  | add {i : ℕ} (here : s.phase i = .starting) : Effect s (.add i)
      { (s.setPhase i .reading).setWriter i .selecting with clients := s.clients ++ [i] }
  | frame {i : ℕ} {f : Frame} (here : s.phase i = .reading) (myName : ℕ → Bytes) :
      Effect s (.frame i f) { s.setPhase i (onFrame i (s.myName i) f) with myName }
  | readError {i : ℕ} (here : s.phase i = .reading) :
      Effect s (.readError i) (s.setPhase i .removing)
  | setName {i : ℕ} {new : Bytes} (here : s.phase i = .naming new) (joined : Bytes)
      (name : ℕ → Bytes) :
      Effect s (.setName i) { s.setPhase i (.ready joined none false) with name }
  | targets {i : ℕ} {todo : List ℕ} {frame : Bytes} {except : Option ℕ} {last : Bool}
      (here : s.phase i = .ready frame except last)
      (those : todo.Perm (s.clients.filter fun j => except ≠ some j)) :
      Effect s (.targets i todo) (s.setPhase i (.sending frame todo last))
  | send {i d : ℕ} {rest : List ℕ} {frame : Bytes} {last : Bool}
      (here : s.phase i = .sending frame (d :: rest) last) (room : (s.out d).length < capacity) :
      Effect s (.send i) ((s.setPhase i (.sending frame rest last)).setOut d (s.out d ++ [frame]))
  | skip {i d : ℕ} {rest : List ℕ} {frame : Bytes} {last : Bool}
      (here : s.phase i = .sending frame (d :: rest) last) (gone : s.done d = true) :
      Effect s (.skip i) (s.setPhase i (.sending frame rest last))
  | sent {i : ℕ} {frame : Bytes} {last : Bool} (here : s.phase i = .sending frame [] last) :
      Effect s (.sent i) (s.setPhase i (if last then .finished else .reading))
  | remove {i : ℕ} (here : s.phase i = .removing) : Effect s (.remove i)
      { s.setPhase i (afterRemove (s.name i)) with
        clients := s.clients.filter (· ≠ i), done := Function.update s.done i true }
  | receive {i : ℕ} {frame : Bytes} {rest : List Bytes} (here : s.writer i = .selecting)
      (first : s.out i = frame :: rest) :
      Effect s (.receive i) ((s.setWriter i (.writing frame)).setOut i rest)
  | wrote {i : ℕ} {frame : Bytes} (here : s.writer i = .writing frame) :
      Effect s (.wrote i) (s.setWriter i .selecting)
  | writeError {i : ℕ} {frame : Bytes} (here : s.writer i = .writing frame) :
      Effect s (.writeError i) (s.setWriter i .returned)
  | stopWriter {i : ℕ} (here : s.writer i = .selecting) (because : s.done i ∨ s.cancelled) :
      Effect s (.stopWriter i) (s.setWriter i .returned)

theorem effect_of_act {s t : State} {a : Action} (taken : s.act a = some t) : Effect s a t := by
  cases a with
  | accept =>
    cases taken
    exact .accept
  | sigint =>
    cases taken
    exact .sigint
  | exit =>
    cases taken
    exact .exit
  | add i =>
    simp only [State.act, Option.ite_none_right_eq_some] at taken
    obtain ⟨here, made⟩ := taken
    cases made
    exact .add here
  | frame i f =>
    simp only [State.act, Option.ite_none_right_eq_some] at taken
    obtain ⟨here, made⟩ := taken
    cases made
    exact .frame here _
  | readError i =>
    simp only [State.act, Option.ite_none_right_eq_some] at taken
    obtain ⟨here, made⟩ := taken
    cases made
    exact .readError here
  | setName i =>
    simp only [State.act] at taken
    split at taken
    · next new here =>
      cases taken
      exact .setName here _ _
    · cases taken
  | targets i todo =>
    simp only [State.act] at taken
    split at taken
    · next here =>
      rw [Option.ite_none_right_eq_some] at taken
      obtain ⟨those, made⟩ := taken
      cases made
      exact .targets here those
    · cases taken
  | send i =>
    simp only [State.act] at taken
    split at taken
    · next here =>
      rw [Option.ite_none_right_eq_some] at taken
      obtain ⟨room, made⟩ := taken
      cases made
      exact .send here room
    · cases taken
  | skip i =>
    simp only [State.act] at taken
    split at taken
    · next here =>
      rw [Option.ite_none_right_eq_some] at taken
      obtain ⟨gone, made⟩ := taken
      cases made
      exact .skip here gone
    · cases taken
  | sent i =>
    simp only [State.act] at taken
    split at taken
    · next here =>
      cases taken
      exact .sent here
    · cases taken
  | remove i =>
    simp only [State.act, Option.ite_none_right_eq_some] at taken
    obtain ⟨here, made⟩ := taken
    cases made
    exact .remove here
  | receive i =>
    simp only [State.act] at taken
    split at taken
    · next here first =>
      cases taken
      exact .receive here first
    · cases taken
  | wrote i =>
    simp only [State.act] at taken
    split at taken
    · next here =>
      cases taken
      exact .wrote here
    · cases taken
  | writeError i =>
    simp only [State.act] at taken
    split at taken
    · next here =>
      cases taken
      exact .writeError here
    · cases taken
  | stopWriter i =>
    simp only [State.act, Option.ite_none_right_eq_some] at taken
    obtain ⟨⟨here, because⟩, made⟩ := taken
    cases made
    exact .stopWriter here because

/-- The client is in the hub. -/
def Phase.serving : Phase → Bool
  | .reading | .naming _ | .removing => true
  | .ready _ _ last | .sending _ _ last => !last
  | _ => false

/-- The client has been removed. -/
def Phase.gone : Phase → Bool
  | .ready _ _ last | .sending _ _ last => last
  | .finished => true
  | _ => false

namespace State

structure Inv (s : State) : Prop where
  clients : ∀ i, i ∈ s.clients ↔ (s.phase i).serving = true
  done : ∀ i, s.done i = (s.phase i).gone
  bound : ∀ i, s.phase i ≠ .absent → i ≤ s.lastId
  nodup : s.clients.Nodup
  todo : ∀ i frame todo last, s.phase i = .sending frame todo last → todo.Nodup ∧
    ∀ d ∈ todo, (s.phase d).serving = true ∨ (s.phase d).gone = true
  out : ∀ d, (s.out d).length ≤ capacity
  writer : ∀ d, (s.phase d).serving = true → s.writer d ≠ .absent

@[simp] theorem setPhase_phase (s : State) (i : ℕ) (p : Phase) :
    (s.setPhase i p).phase = Function.update s.phase i p := rfl

@[simp] theorem setWriter_writer (s : State) (i : ℕ) (w : Writer) :
    (s.setWriter i w).writer = Function.update s.writer i w := rfl

@[simp] theorem setOut_out (s : State) (i : ℕ) (out : List Bytes) :
    (s.setOut i out).out = Function.update s.out i out := rfl

end State

theorem onFrame_serving (i : ℕ) (myName : Bytes) (f : Frame) :
    (onFrame i myName f).serving = true ∧ (onFrame i myName f).gone = false ∧
      ∀ frame todo last, onFrame i myName f ≠ .sending frame todo last := by
  unfold onFrame
  split_ifs <;> exact ⟨rfl, rfl, by simp⟩

theorem afterRemove_gone (name : Bytes) : (afterRemove name).serving = false ∧
    (afterRemove name).gone = true ∧
      ∀ frame todo last, afterRemove name ≠ .sending frame todo last := by
  unfold afterRemove
  split_ifs <;> exact ⟨rfl, rfl, by simp⟩

namespace State.Inv

variable {s : State}

/-- A reader that goes on without leaving or entering the hub. -/
theorem setPhase (inv : s.Inv) {i : ℕ} {p : Phase} (serving : p.serving = (s.phase i).serving)
    (gone : p.gone = (s.phase i).gone) (bounded : i ≤ s.lastId)
    (todo : ∀ frame todo last, p = .sending frame todo last → todo.Nodup ∧
      ∀ d ∈ todo, (s.phase d).serving = true ∨ (s.phase d).gone = true) :
    (s.setPhase i p).Inv := by
  have sameServing : ∀ j, (Function.update s.phase i p j).serving = (s.phase j).serving := by
    intro j
    rcases eq_or_ne j i with rfl | other
    · rw [Function.update_self, serving]
    · rw [Function.update_of_ne other]
  have sameGone : ∀ j, (Function.update s.phase i p j).gone = (s.phase j).gone := by
    intro j
    rcases eq_or_ne j i with rfl | other
    · rw [Function.update_self, gone]
    · rw [Function.update_of_ne other]
  constructor
  · intro j
    rw [State.setPhase_phase, sameServing]
    exact inv.clients j
  · intro j
    rw [State.setPhase_phase, sameGone]
    exact inv.done j
  · intro j other
    rcases eq_or_ne j i with rfl | elsewhere
    · exact bounded
    · rw [State.setPhase_phase, Function.update_of_ne elsewhere] at other
      exact inv.bound j other
  · exact inv.nodup
  · intro j frame rest last here
    simp only [State.setPhase_phase, sameServing, sameGone]
    rcases eq_or_ne j i with rfl | other
    · rw [State.setPhase_phase, Function.update_self] at here
      exact todo frame rest last here
    · rw [State.setPhase_phase, Function.update_of_ne other] at here
      exact inv.todo j frame rest last here
  · exact inv.out
  · intro j live
    rw [State.setPhase_phase, sameServing] at live
    exact inv.writer j live

theorem setOut (inv : s.Inv) (d : ℕ) {out : List Bytes} (short : out.length ≤ capacity) :
    (s.setOut d out).Inv := by
  refine ⟨inv.clients, inv.done, inv.bound, inv.nodup, inv.todo, fun e => ?_, inv.writer⟩
  rcases eq_or_ne e d with rfl | other
  · rwa [State.setOut_out, Function.update_self]
  · rw [State.setOut_out, Function.update_of_ne other]
    exact inv.out e

theorem setWriter (inv : s.Inv) (d : ℕ) {w : Writer} (some : w ≠ .absent) :
    (s.setWriter d w).Inv := by
  refine ⟨inv.clients, inv.done, inv.bound, inv.nodup, inv.todo, inv.out, fun e live => ?_⟩
  rcases eq_or_ne e d with rfl | other
  · rwa [State.setWriter_writer, Function.update_self]
  · rw [State.setWriter_writer, Function.update_of_ne other]
    exact inv.writer e live

theorem accept (inv : s.Inv) :
    ({ s.setPhase (s.lastId + 1) .starting with lastId := s.lastId + 1 } : State).Inv := by
  have absent : s.phase (s.lastId + 1) = .absent := by
    by_contra other
    have bound := inv.bound _ other
    omega
  have counted : ({ s with lastId := s.lastId + 1 } : State).Inv :=
    ⟨inv.clients, inv.done, fun i other => (inv.bound i other).trans (Nat.le_succ _), inv.nodup,
      inv.todo, inv.out, inv.writer⟩
  refine counted.setPhase (i := s.lastId + 1) (p := .starting) ?_ ?_ le_rfl (by simp)
  · exact (congrArg Phase.serving absent).symm
  · exact (congrArg Phase.gone absent).symm

theorem add (inv : s.Inv) {i : ℕ} (starting : s.phase i = .starting) :
    ({ (s.setPhase i .reading).setWriter i .selecting with
      clients := s.clients ++ [i] } : State).Inv := by
  have outside : i ∉ s.clients := by
    rw [inv.clients, starting]
    decide
  constructor
  · intro j
    change j ∈ s.clients ++ [i] ↔ (Function.update s.phase i .reading j).serving = true
    rw [List.mem_append, List.mem_singleton, inv.clients]
    rcases eq_or_ne j i with rfl | other
    · rw [Function.update_self]
      exact iff_of_true (.inr rfl) rfl
    · rw [Function.update_of_ne other]
      exact or_iff_left other
  · intro j
    change s.done j = (Function.update s.phase i .reading j).gone
    rcases eq_or_ne j i with rfl | other
    · rw [Function.update_self, inv.done, starting]
      rfl
    · rw [Function.update_of_ne other, inv.done]
  · intro j there
    change Function.update s.phase i .reading j ≠ .absent at there
    rcases eq_or_ne j i with rfl | other
    · exact inv.bound j (by rw [starting]; decide)
    · rw [Function.update_of_ne other] at there
      exact inv.bound j there
  · refine List.nodup_append.mpr ⟨inv.nodup, List.nodup_singleton i, ?_⟩
    rintro j member k single rfl
    rw [List.mem_singleton] at single
    exact outside (single ▸ member)
  · intro j frame rest last here
    change Function.update s.phase i .reading j = _ at here
    change rest.Nodup ∧ ∀ d ∈ rest, (Function.update s.phase i .reading d).serving = true ∨
      (Function.update s.phase i .reading d).gone = true
    rcases eq_or_ne j i with rfl | other
    · rw [Function.update_self] at here
      cases here
    · rw [Function.update_of_ne other] at here
      obtain ⟨nodup, known⟩ := inv.todo j frame rest last here
      refine ⟨nodup, fun d member => ?_⟩
      rcases eq_or_ne d i with rfl | elsewhere
      · rw [Function.update_self]
        exact .inl rfl
      · rw [Function.update_of_ne elsewhere]
        exact known d member
  · exact inv.out
  · intro j live
    change Function.update s.writer i .selecting j ≠ .absent
    change (Function.update s.phase i .reading j).serving = true at live
    rcases eq_or_ne j i with rfl | other
    · rw [Function.update_self]
      decide
    · rw [Function.update_of_ne other] at live ⊢
      exact inv.writer j live

theorem remove (inv : s.Inv) {i : ℕ} (removing : s.phase i = .removing) :
    ({ s.setPhase i (afterRemove (s.name i)) with
      clients := s.clients.filter (· ≠ i)
      done := Function.update s.done i true } : State).Inv := by
  obtain ⟨left, gone, other⟩ := afterRemove_gone (s.name i)
  generalize afterRemove (s.name i) = p at left gone other
  constructor
  · intro j
    change j ∈ s.clients.filter (· ≠ i) ↔ (Function.update s.phase i p j).serving = true
    rw [List.mem_filter, inv.clients, decide_eq_true_eq]
    rcases eq_or_ne j i with rfl | elsewhere
    · rw [Function.update_self, left]
      exact iff_of_false (fun both => both.2 rfl) (by decide)
    · rw [Function.update_of_ne elsewhere]
      exact and_iff_left elsewhere
  · intro j
    change Function.update s.done i true j = (Function.update s.phase i p j).gone
    rcases eq_or_ne j i with rfl | elsewhere
    · rw [Function.update_self, Function.update_self, gone]
    · rw [Function.update_of_ne elsewhere, Function.update_of_ne elsewhere, inv.done]
  · intro j there
    change Function.update s.phase i p j ≠ .absent at there
    rcases eq_or_ne j i with rfl | elsewhere
    · exact inv.bound j (by rw [removing]; decide)
    · rw [Function.update_of_ne elsewhere] at there
      exact inv.bound j there
  · exact inv.nodup.filter _
  · intro j frame rest last here
    change Function.update s.phase i p j = _ at here
    change rest.Nodup ∧ ∀ d ∈ rest, (Function.update s.phase i p d).serving = true ∨
      (Function.update s.phase i p d).gone = true
    rcases eq_or_ne j i with rfl | elsewhere
    · rw [Function.update_self] at here
      exact absurd here (other frame rest last)
    · rw [Function.update_of_ne elsewhere] at here
      obtain ⟨nodup, known⟩ := inv.todo j frame rest last here
      refine ⟨nodup, fun d member => ?_⟩
      rcases eq_or_ne d i with rfl | apart
      · rw [Function.update_self]
        exact .inr gone
      · rw [Function.update_of_ne apart]
        exact known d member
  · exact inv.out
  · intro j live
    change (Function.update s.phase i p j).serving = true at live
    rcases eq_or_ne j i with rfl | elsewhere
    · rw [Function.update_self, left] at live
      cases live
    · rw [Function.update_of_ne elsewhere] at live
      exact inv.writer j live

theorem bounded (inv : s.Inv) {i : ℕ} {p : Phase} (here : s.phase i = p) (some : p ≠ .absent) :
    i ≤ s.lastId :=
  inv.bound i (by rwa [here])

theorem keeps (inv : s.Inv) {a : Action} {t : State} (taken : s.act a = some t) : t.Inv := by
  cases effect_of_act taken with
  | accept => exact inv.accept
  | sigint =>
    exact ⟨inv.clients, inv.done, inv.bound, inv.nodup, inv.todo, inv.out, inv.writer⟩
  | exit =>
    exact ⟨inv.clients, inv.done, inv.bound, inv.nodup, inv.todo, inv.out, inv.writer⟩
  | add here => exact inv.add here
  | @frame i f here myName =>
    obtain ⟨serving, gone, other⟩ := onFrame_serving i (s.myName i) f
    have moved := inv.setPhase (p := onFrame i (s.myName i) f) (by rw [serving, here]; rfl)
      (by rw [gone, here]; rfl) (inv.bounded here (by decide))
      fun frame todo last same => absurd same (other frame todo last)
    exact ⟨moved.clients, moved.done, moved.bound, moved.nodup, moved.todo, moved.out,
      moved.writer⟩
  | readError here =>
    exact inv.setPhase (by rw [here]; rfl) (by rw [here]; rfl) (inv.bounded here (by decide))
      (by simp)
  | setName here joined name =>
    have moved := inv.setPhase (p := .ready joined none false) (by rw [here]; rfl)
      (by rw [here]; rfl) (inv.bounded here (by simp)) (by simp)
    exact ⟨moved.clients, moved.done, moved.bound, moved.nodup, moved.todo, moved.out,
      moved.writer⟩
  | targets here those =>
    refine inv.setPhase (by rw [here]; rfl) (by rw [here]; rfl) (inv.bounded here (by simp)) ?_
    rintro _ _ _ ⟨rfl, rfl, rfl⟩
    refine ⟨those.nodup_iff.mpr (inv.nodup.filter _), fun d member => .inl ?_⟩
    exact (inv.clients d).mp (List.mem_filter.mp (those.subset member)).1
  | send here room =>
    obtain ⟨nodup, known⟩ := inv.todo _ _ _ _ here
    refine (inv.setPhase (by rw [here]; rfl) (by rw [here]; rfl) (inv.bounded here (by simp))
      ?_).setOut _ ?_
    · rintro _ _ _ ⟨rfl, rfl, rfl⟩
      exact ⟨(List.nodup_cons.mp nodup).2, fun d member => known d (List.mem_cons_of_mem _ member)⟩
    · rw [List.length_append, List.length_singleton]
      exact room
  | skip here gone =>
    obtain ⟨nodup, known⟩ := inv.todo _ _ _ _ here
    refine inv.setPhase (by rw [here]; rfl) (by rw [here]; rfl) (inv.bounded here (by simp)) ?_
    rintro _ _ _ ⟨rfl, rfl, rfl⟩
    exact ⟨(List.nodup_cons.mp nodup).2, fun d member => known d (List.mem_cons_of_mem _ member)⟩
  | @sent i frame last here =>
    cases last with
    | true =>
      exact inv.setPhase (by rw [here]; rfl) (by rw [here]; rfl) (inv.bounded here (by simp))
        (by simp)
    | false =>
      exact inv.setPhase (by rw [here]; rfl) (by rw [here]; rfl) (inv.bounded here (by simp))
        (by simp)
  | remove here => exact inv.remove here
  | @receive i frame rest here first =>
    have short := inv.out i
    rw [first, List.length_cons] at short
    exact (inv.setWriter i (by simp)).setOut i (by omega)
  | wrote here => exact inv.setWriter _ (by simp)
  | writeError here => exact inv.setWriter _ (by simp)
  | stopWriter here because => exact inv.setWriter _ (by simp)

theorem init : hub.init.Inv := by
  refine ⟨fun i => ?_, fun i => rfl, fun i there => absurd rfl there, List.nodup_nil, ?_, ?_, ?_⟩
  · exact iff_of_false List.not_mem_nil fun live => by cases live
  · rintro i frame todo last ⟨⟩
  · exact fun d => Nat.zero_le _
  · rintro d ⟨⟩

end State.Inv

end LinuxSys.Servers.GoHub
