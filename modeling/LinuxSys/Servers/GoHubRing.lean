import LinuxSys.Servers.GoHub

/-! # When the broadcasters of the Go hub wedge

A client whose writer has returned frees those who wait at its full channel when its own reader
removes it. That reader may wait in a broadcast itself: before its own channel, or in a ring with
other readers of such clients. Where no ring closes, every client can still leave, so nobody waits
for ever. A ring of one is a client whose writer fails while its reader has frames left to read.
-/

namespace LinuxSys.Servers.GoHub

open Lib Chatterd

/-- A goroutine is blocked in `broadcast` on a channel from which no goroutine will ever receive,
and whose `done` none will close. -/
def State.Wedged (s : State) : Prop :=
  s.exited = false ∧ ∃ i d, s.Blocked i d ∧
    ∀ acts t, hub.runFrom? s acts = some t → .receive d ∉ acts ∧ t.done d = false

/-- The clients that a reader still has to queue its frame with, before it removes its own. -/
def Phase.owes (clients : List ℕ) : Phase → ℕ → Prop
  | .naming _, d => d ∈ clients
  | .ready _ except false, d => d ∈ clients ∧ except ≠ some d
  | .sending _ todo false, d => d ∈ todo
  | _, _ => False

instance (clients : List ℕ) (p : Phase) (d : ℕ) : Decidable (p.owes clients d) :=
  match p with
  | .naming _ => inferInstanceAs (Decidable (d ∈ clients))
  | .ready _ except false => inferInstanceAs (Decidable (d ∈ clients ∧ except ≠ some d))
  | .sending _ todo false => inferInstanceAs (Decidable (d ∈ todo))
  | .ready _ _ true | .sending _ _ true | .absent | .starting | .reading | .removing | .finished =>
    inferInstanceAs (Decidable False)

namespace State

def owes (s : State) (i d : ℕ) : Prop := (s.phase i).owes s.clients d

instance (s : State) (i d : ℕ) : Decidable (s.owes i d) :=
  inferInstanceAs (Decidable ((s.phase i).owes s.clients d))

/-- The readers that still have to queue a frame with a client. -/
def claims (s : State) (d : ℕ) : Finset ℕ :=
  (Finset.range (s.lastId + 1)).filter fun i => s.owes i d

/-- Clients whose writers have returned, with more frames on the way to each than its channel holds,
each of which has to queue a frame with another before it can remove itself. -/
structure Ring (s : State) (ring : Set ℕ) : Prop where
  some : ring.Nonempty
  returned : ∀ d ∈ ring, s.writer d = .returned
  waiting : ∀ d ∈ ring, s.done d = false
  crowded : ∀ d ∈ ring, capacity < (s.out d).length + (s.claims d).card
  next : ∀ d ∈ ring, ∃ e ∈ ring, s.owes d e

end State

/-- A writer that returns, a frame that is read and a farewell that is queued close no ring. -/
def near (s : State) : Action → Prop
  | .writeError i => ∀ ring, ¬ (s.setWriter i .returned).Ring ring
  | .stopWriter i => ∀ ring, ¬ (s.setWriter i .returned).Ring ring
  | .frame i f => ∀ ring, ¬ (s.setPhase i (onFrame i (s.myName i) f)).Ring ring
  | .send i => ∀ frame d rest, s.phase i = .sending frame (d :: rest) true →
    ∀ ring, ¬ (s.setOut d (s.out d ++ [frame])).Ring ring
  | _ => True

/-! Only a writer that returns, a frame that is read and a farewell that is queued close a ring. -/

namespace State

variable {s t : State}

theorem mem_claims {i d : ℕ} : i ∈ s.claims d ↔ i < s.lastId + 1 ∧ s.owes i d := by
  rw [claims, Finset.mem_filter, Finset.mem_range]

/-- A ring is there already when no member's part in it is new. -/
theorem Ring.back {ring : Set ℕ} (closed : t.Ring ring)
    (returned : ∀ d, t.writer d = .returned → s.writer d = .returned)
    (done : ∀ d, t.done d = false → s.done d = false)
    (crowd : ∀ d, t.writer d = .returned →
      (t.out d).length + (t.claims d).card ≤ (s.out d).length + (s.claims d).card)
    (owes : ∀ d e, t.writer e = .returned → t.owes d e → s.owes d e) : s.Ring ring where
  some := closed.some
  returned d member := returned d (closed.returned d member)
  waiting d member := done d (closed.waiting d member)
  crowded d member :=
    (closed.crowded d member).trans_le (crowd d (closed.returned d member))
  next d member := by
    obtain ⟨e, other, owed⟩ := closed.next d member
    exact ⟨e, other, owes d e (closed.returned e other) owed⟩

/-- Where readers owe no more and channels hold no more, there is no new ring. -/
theorem Ring.back_of_owes {ring : Set ℕ} (closed : t.Ring ring)
    (returned : ∀ d, t.writer d = .returned → s.writer d = .returned)
    (done : ∀ d, t.done d = false → s.done d = false)
    (out : ∀ d, (t.out d).length ≤ (s.out d).length)
    (owes : ∀ i d, i < t.lastId + 1 → t.writer d = .returned → t.owes i d →
      i < s.lastId + 1 ∧ s.owes i d)
    (all : ∀ i d, t.owes i d → i < t.lastId + 1) : s.Ring ring := by
  refine closed.back returned done (fun d ended => ?_) fun d e ended owed =>
    (owes d e (all d e owed) ended owed).2
  refine Nat.add_le_add (out d) (Finset.card_le_card fun i member => ?_)
  rw [mem_claims] at member ⊢
  exact owes i d member.1 ended member.2

end State

theorem Phase.owes_serving {clients : List ℕ} {p : Phase} {d : ℕ} (owed : p.owes clients d) :
    p.serving = true := by
  cases p with
  | naming name => rfl
  | ready frame except last => cases last <;> first | rfl | exact owed.elim
  | sending frame todo last => cases last <;> first | rfl | exact owed.elim
  | _ => exact owed.elim

theorem Phase.owes_of_subset {clients others : List ℕ} (sub : clients ⊆ others) {p : Phase} {d : ℕ}
    (owed : p.owes clients d) : p.owes others d := by
  cases p with
  | naming name => exact sub owed
  | ready frame except last =>
    cases last with
    | true => exact owed.elim
    | false => exact ⟨sub owed.1, owed.2⟩
  | sending frame todo last => cases last <;> exact owed
  | _ => exact owed.elim

theorem Phase.owes_of_append {clients : List ℕ} {i : ℕ} {p : Phase} {d : ℕ} (other : d ≠ i)
    (owed : p.owes (clients ++ [i]) d) : p.owes clients d := by
  have member : ∀ {l : List ℕ}, d ∈ l ++ [i] → d ∈ l := by
    intro l inside
    rcases List.mem_append.mp inside with here | last
    · exact here
    · exact absurd (List.mem_singleton.mp last) other
  cases p with
  | naming name => exact member owed
  | ready frame except last =>
    cases last with
    | true => exact owed.elim
    | false => exact ⟨member owed.1, owed.2⟩
  | sending frame todo last => cases last <;> exact owed
  | _ => exact owed.elim

namespace State.Inv

variable {s t : State}

theorem owes_lt (inv : s.Inv) {i d : ℕ} (owed : s.owes i d) : i < s.lastId + 1 := by
  have live := Phase.owes_serving owed
  have bound := inv.bound i fun absent => by
    rw [absent] at live
    cases live
  omega

/-- A reader that goes on and owes no more closes no ring. -/
theorem ring_setPhase (inv : s.Inv) {i : ℕ} {p : Phase}
    (less : ∀ d, p.owes s.clients d → s.owes i d) {ring : Set ℕ}
    (closed : (s.setPhase i p).Ring ring) : s.Ring ring := by
  have owes : ∀ j d, (s.setPhase i p).owes j d → s.owes j d := by
    intro j d owed
    rw [State.owes, State.setPhase_phase] at owed
    rcases eq_or_ne j i with rfl | other
    · rw [Function.update_self] at owed
      exact less d owed
    · rwa [Function.update_of_ne other] at owed
  exact closed.back_of_owes (fun _ => id) (fun _ => id) (fun _ => le_rfl)
    (fun j d bound _ owed => ⟨bound, owes j d owed⟩) fun j d owed => inv.owes_lt (owes j d owed)

theorem ring_accept (inv : s.Inv) {ring : Set ℕ}
    (closed : State.Ring { s.setPhase (s.lastId + 1) .starting with lastId := s.lastId + 1 } ring) :
    s.Ring ring := by
  have owes : ∀ j d, State.owes { s.setPhase (s.lastId + 1) .starting with
      lastId := s.lastId + 1 } j d → s.owes j d := by
    intro j d owed
    change (Function.update s.phase (s.lastId + 1) .starting j).owes s.clients d at owed
    rcases eq_or_ne j (s.lastId + 1) with rfl | other
    · rw [Function.update_self] at owed
      exact owed.elim
    · rwa [Function.update_of_ne other] at owed
  refine closed.back_of_owes (fun _ ended => ended) (fun _ more => more) (fun _ => le_rfl)
    (fun j d _ _ owed => ?_) fun j d owed => ?_
  · exact ⟨inv.owes_lt (owes j d owed), owes j d owed⟩
  · exact Nat.lt_succ_of_lt (inv.owes_lt (owes j d owed))

theorem ring_add (inv : s.Inv) {i : ℕ} {ring : Set ℕ}
    (closed : State.Ring { (s.setPhase i .reading).setWriter i .selecting with
      clients := s.clients ++ [i] } ring) : s.Ring ring := by
  have apart : ∀ d, Function.update s.writer i .selecting d = .returned → d ≠ i := by
    rintro d ended rfl
    rw [Function.update_self] at ended
    cases ended
  have owes : ∀ j d, d ≠ i → State.owes { (s.setPhase i .reading).setWriter i .selecting with
      clients := s.clients ++ [i] } j d → s.owes j d := by
    intro j d other owed
    change (Function.update s.phase i .reading j).owes (s.clients ++ [i]) d at owed
    rcases eq_or_ne j i with rfl | elsewhere
    · rw [Function.update_self] at owed
      exact owed.elim
    · rw [Function.update_of_ne elsewhere] at owed
      exact Phase.owes_of_append other owed
  refine closed.back (fun d ended => ?_) (fun _ more => more) (fun d ended => ?_)
    fun j d ended owed => owes j d (apart d ended) owed
  · change Function.update s.writer i .selecting d = .returned at ended
    rwa [Function.update_of_ne (apart d ended)] at ended
  · refine Nat.add_le_add le_rfl (Finset.card_le_card fun j member => ?_)
    rw [State.mem_claims] at member ⊢
    have owed := owes j d (apart d ended) member.2
    exact ⟨inv.owes_lt owed, owed⟩

theorem ring_remove (inv : s.Inv) {i : ℕ} {ring : Set ℕ}
    (closed : State.Ring { s.setPhase i (afterRemove (s.name i)) with
      clients := s.clients.filter (· ≠ i), done := Function.update s.done i true } ring) :
    s.Ring ring := by
  obtain ⟨left, -, -⟩ := afterRemove_gone (s.name i)
  generalize afterRemove (s.name i) = p at left closed
  have owes : ∀ j d, State.owes { s.setPhase i p with
      clients := s.clients.filter (· ≠ i), done := Function.update s.done i true } j d →
      s.owes j d := by
    intro j d owed
    change (Function.update s.phase i p j).owes (s.clients.filter (· ≠ i)) d at owed
    rcases eq_or_ne j i with rfl | elsewhere
    · rw [Function.update_self] at owed
      rw [Phase.owes_serving owed] at left
      cases left
    · rw [Function.update_of_ne elsewhere] at owed
      exact Phase.owes_of_subset (fun e member => (List.mem_filter.mp member).1) owed
  refine closed.back_of_owes (fun _ ended => ended) (fun d more => ?_) (fun _ => le_rfl)
    (fun j d bound _ owed => ⟨bound, owes j d owed⟩) fun j d owed => inv.owes_lt (owes j d owed)
  change Function.update s.done i true d = false at more
  rcases eq_or_ne d i with rfl | elsewhere
  · rw [Function.update_self] at more
    cases more
  · rwa [Function.update_of_ne elsewhere] at more

theorem ring_send (inv : s.Inv) {i d : ℕ} {rest : List ℕ} {frame : Bytes}
    (here : s.phase i = .sending frame (d :: rest) false) {ring : Set ℕ}
    (closed : ((s.setPhase i (.sending frame rest false)).setOut d (s.out d ++ [frame])).Ring ring) :
    s.Ring ring := by
  have fresh := (List.nodup_cons.mp (inv.todo i frame _ _ here).1).1
  have owes : ∀ j e, ((s.setPhase i (.sending frame rest false)).setOut d
      (s.out d ++ [frame])).owes j e → s.owes j e := by
    intro j e owed
    change (Function.update s.phase i (.sending frame rest false) j).owes s.clients e at owed
    rcases eq_or_ne j i with rfl | elsewhere
    · rw [Function.update_self] at owed
      rw [State.owes, here]
      exact List.mem_cons_of_mem d owed
    · rwa [Function.update_of_ne elsewhere] at owed
  have within : ∀ e, ((s.setPhase i (.sending frame rest false)).setOut d
      (s.out d ++ [frame])).claims e ⊆ s.claims e := by
    intro e j member
    rw [State.mem_claims] at member ⊢
    exact ⟨member.1, owes j e member.2⟩
  refine closed.back (fun _ ended => ended) (fun _ more => more) (fun e _ => ?_)
    fun j e _ owed => owes j e owed
  rw [State.setOut_out]
  rcases eq_or_ne e d with rfl | elsewhere
  · have paid : i ∉ ((s.setPhase i (.sending frame rest false)).setOut e
        (s.out e ++ [frame])).claims e := by
      intro member
      have owed := (State.mem_claims.mp member).2
      change (Function.update s.phase i (.sending frame rest false) i).owes s.clients e at owed
      rw [Function.update_self] at owed
      exact fresh owed
    have owed : i ∈ s.claims e := by
      have owed : s.owes i e := by
        rw [State.owes, here]
        exact List.mem_cons_self
      exact State.mem_claims.mpr ⟨inv.owes_lt owed, owed⟩
    have less := Finset.card_lt_card (Finset.ssubset_iff_subset_ne.mpr
      ⟨within e, fun same => paid (same ▸ owed)⟩)
    rw [Function.update_self, List.length_append, List.length_singleton]
    omega
  · rw [Function.update_of_ne elsewhere]
    exact Nat.add_le_add le_rfl (Finset.card_le_card (within e))

theorem returned_of_setWriter {i d : ℕ} {w : Writer} (live : w ≠ .returned)
    (ended : Function.update s.writer i w d = .returned) : s.writer d = .returned := by
  rcases eq_or_ne d i with rfl | elsewhere
  · rw [Function.update_self] at ended
    exact absurd ended live
  · rwa [Function.update_of_ne elsewhere] at ended

/-- A ring after a step that is near was there before it. -/
theorem ring_back (inv : s.Inv) {a : Action} (taken : s.act a = some t)
    (near : near s a) {ring : Set ℕ} (closed : t.Ring ring) : s.Ring ring := by
  cases effect_of_act taken with
  | accept => exact inv.ring_accept closed
  | sigint => exact ⟨closed.some, closed.returned, closed.waiting, closed.crowded, closed.next⟩
  | exit => exact ⟨closed.some, closed.returned, closed.waiting, closed.crowded, closed.next⟩
  | add here => exact inv.ring_add closed
  | frame here myName =>
    exact absurd ⟨closed.some, closed.returned, closed.waiting, closed.crowded, closed.next⟩
      (near ring)
  | readError here => exact inv.ring_setPhase (p := .removing) (fun d owed => owed.elim) closed
  | setName here joined name =>
    have same : (s.setPhase _ (.ready joined none false)).Ring ring :=
      ⟨closed.some, closed.returned, closed.waiting, closed.crowded, closed.next⟩
    refine inv.ring_setPhase (fun d owed => ?_) same
    rw [State.owes, here]
    exact owed.1
  | @targets i todo frame except last here those =>
    refine inv.ring_setPhase (fun d owed => ?_) closed
    cases last with
    | true => exact owed.elim
    | false =>
      have member := List.mem_filter.mp (those.subset owed)
      rw [State.owes, here]
      exact ⟨member.1, of_decide_eq_true member.2⟩
  | @send i d rest frame last here room =>
    cases last with
    | false => exact inv.ring_send here closed
    | true =>
      have short : (s.out d ++ [frame]).length ≤ capacity := by
        rw [List.length_append, List.length_singleton]
        exact room
      refine absurd ?_ (near frame d rest here ring)
      exact (inv.setOut d short).ring_setPhase (i := i) (p := .sending frame rest true)
        (fun e owed => owed.elim) closed
  | @skip i d rest frame last here gone =>
    refine inv.ring_setPhase (fun e owed => ?_) closed
    rw [State.owes, here]
    cases last with
    | true => exact owed.elim
    | false => exact List.mem_cons_of_mem d owed
  | @sent i frame last here =>
    refine inv.ring_setPhase (fun d owed => ?_) closed
    cases last <;> exact owed.elim
  | remove here => exact inv.ring_remove closed
  | @receive i frame rest here first =>
    refine closed.back_of_owes (fun d ended => returned_of_setWriter (by simp) ended)
      (fun _ more => more) (fun d => ?_) (fun j d bound _ owed => ⟨bound, owed⟩)
      fun j d owed => inv.owes_lt owed
    rw [State.setOut_out]
    rcases eq_or_ne d i with rfl | elsewhere
    · rw [Function.update_self, first, List.length_cons]
      exact Nat.le_succ _
    · rw [Function.update_of_ne elsewhere]
      exact le_rfl
  | wrote here =>
    exact closed.back_of_owes (fun d ended => returned_of_setWriter (by decide) ended)
      (fun _ more => more) (fun _ => le_rfl) (fun j d bound _ owed => ⟨bound, owed⟩)
      fun j d owed => inv.owes_lt owed
  | writeError here => exact absurd closed (near ring)
  | stopWriter here because => exact absurd closed (near ring)

end State.Inv

/-! Without a ring all clients can still leave. -/

/-- The steps that a reader has left before its client is removed, at most. -/
def Phase.rank (clients : ℕ) : Phase → ℕ
  | .naming _ => 3 * clients + 5
  | .ready _ _ false => 3 * clients + 4
  | .sending _ todo false => 3 * todo.length + 3
  | .reading => 2
  | .removing => 1
  | _ => 0

def Writer.rank : Writer → ℕ
  | .writing _ => 1
  | _ => 0

namespace State

/-- The steps left before all clients are removed, at most. -/
def work (s : State) : ℕ :=
  ∑ i ∈ Finset.range (s.lastId + 1), (s.phase i).rank s.clients.length +
    (∑ i ∈ Finset.range (s.lastId + 1), 2 * (s.out i).length +
      ∑ i ∈ Finset.range (s.lastId + 1), (s.writer i).rank)

variable {s t : State} {i : ℕ}

theorem work_setPhase_lt {p : Phase} (inside : i ≤ s.lastId)
    (less : p.rank s.clients.length < (s.phase i).rank s.clients.length) :
    (s.setPhase i p).work < s.work := by
  have sum := sum_update (Phase.rank s.clients.length) s.phase (Nat.lt_add_one_of_le inside) p
  simp only [work, setPhase]
  omega

theorem work_send_lt {d : ℕ} {p : Phase} {frame : Bytes} (inside : i ≤ s.lastId)
    (within : d ≤ s.lastId) (less : p.rank s.clients.length + 3 ≤ (s.phase i).rank s.clients.length) :
    ((s.setPhase i p).setOut d (s.out d ++ [frame])).work < s.work := by
  have sum := sum_update (Phase.rank s.clients.length) s.phase (Nat.lt_add_one_of_le inside) p
  have more := sum_update (fun out => 2 * out.length) s.out (Nat.lt_add_one_of_le within)
    (s.out d ++ [frame])
  simp only [List.length_append, List.length_singleton] at more
  simp only [work, setPhase, setOut]
  omega

theorem work_receive_lt {frame : Bytes} {rest : List Bytes} (inside : i ≤ s.lastId)
    (here : s.writer i = .selecting) (first : s.out i = frame :: rest) :
    ((s.setWriter i (.writing frame)).setOut i rest).work < s.work := by
  have sum := sum_update Writer.rank s.writer (Nat.lt_add_one_of_le inside) (.writing frame)
  have less := sum_update (fun out => 2 * out.length) s.out (Nat.lt_add_one_of_le inside) rest
  have before : Writer.rank .selecting = 0 := rfl
  have after : Writer.rank (.writing frame) = 1 := rfl
  rw [here, before, after] at sum
  simp only [first, List.length_cons] at less
  simp only [work, setWriter, setOut]
  omega

theorem work_wrote_lt {frame : Bytes} (inside : i ≤ s.lastId) (here : s.writer i = .writing frame) :
    (s.setWriter i .selecting).work < s.work := by
  have sum := sum_update Writer.rank s.writer (Nat.lt_add_one_of_le inside) .selecting
  have before : Writer.rank (.writing frame) = 1 := rfl
  have after : Writer.rank .selecting = 0 := rfl
  rw [here, before, after] at sum
  simp only [work, setWriter]
  omega

theorem rank_mono {m n : ℕ} (le : m ≤ n) (p : Phase) : p.rank m ≤ p.rank n := by
  cases p with
  | naming name =>
    simp only [Phase.rank]
    omega
  | ready frame except last =>
    cases last with
    | true => exact Nat.le_refl 0
    | false =>
      simp only [Phase.rank]
      omega
  | sending frame todo last => cases last <;> exact Nat.le_refl _
  | _ => exact Nat.le_refl _

theorem work_remove_lt {p : Phase} {done : ℕ → Bool} (inside : i ≤ s.lastId)
    (here : s.phase i = .removing) (none : p.serving = false) :
    ({ s.setPhase i p with clients := s.clients.filter (· ≠ i), done } : State).work < s.work := by
  have fewer : (s.clients.filter (· ≠ i)).length ≤ s.clients.length := List.length_filter_le _ _
  have spent : p.rank s.clients.length = 0 := by
    cases p with
    | ready frame except last => cases last <;> first | rfl | cases none
    | sending frame todo last => cases last <;> first | rfl | cases none
    | _ => first | rfl | cases none
  have sum := sum_update (Phase.rank s.clients.length) s.phase (Nat.lt_add_one_of_le inside) p
  have mono : ∑ j ∈ Finset.range (s.lastId + 1), (Function.update s.phase i p j).rank
      (s.clients.filter (· ≠ i)).length ≤
      ∑ j ∈ Finset.range (s.lastId + 1), (Function.update s.phase i p j).rank s.clients.length :=
    Finset.sum_le_sum fun j _ => rank_mono fewer _
  have before : Phase.rank s.clients.length .removing = 1 := rfl
  rw [here, spent, before] at sum
  simp only [work, setPhase]
  omega

/-- A reader stands before a full channel whose writer has returned. -/
def Stands (s : State) (i d : ℕ) : Prop :=
  (∃ frame rest, s.phase i = .sending frame (d :: rest) false) ∧ (s.out d).length = capacity ∧
    s.done d = false ∧ s.writer d = .returned

namespace Inv

/-- In a hub without a ring, a client that has not been removed has a step left, or its reader
stands before a full channel without a writer. -/
theorem drains_or_stands (inv : s.Inv) (live : (s.phase i).serving = true) :
    (∃ a t, s.act a = some t ∧ near s a ∧ t.exited = s.exited ∧ t.work < s.work) ∨
      ∃ d, s.Stands i d := by
  have inside : i ≤ s.lastId := inv.bound i fun absent => by
    rw [absent] at live
    cases live
  cases here : s.phase i with
  | absent => rw [here] at live; cases live
  | starting => rw [here] at live; cases live
  | finished => rw [here] at live; cases live
  | reading =>
    refine .inl ⟨.readError i, s.setPhase i .removing, by rw [act, if_pos here], trivial, rfl, ?_⟩
    exact work_setPhase_lt inside (by rw [here]; exact Nat.lt_succ_self 1)
  | naming name =>
    let joined := buildDeliver (ascii "server") (name ++ ascii " joined")
    refine .inl ⟨.setName i, { s.setPhase i (.ready joined none false) with
      name := Function.update s.name i name }, by simp only [act, here]; rfl, trivial, rfl, ?_⟩
    have less : (s.setPhase i (.ready joined none false)).work < s.work :=
      work_setPhase_lt inside (by rw [here]; exact Nat.lt_succ_self _)
    exact less
  | ready frame except last =>
    cases last with
    | true => rw [here] at live; cases live
    | false =>
      have fewer : (s.clients.filter fun j => except ≠ some j).length ≤ s.clients.length :=
        List.length_filter_le _ _
      refine .inl ⟨.targets i (s.clients.filter fun j => except ≠ some j),
        s.setPhase i (.sending frame (s.clients.filter fun j => except ≠ some j) false),
        ?_, trivial, rfl, ?_⟩
      · simp only [act, here]
        exact if_pos (List.Perm.refl _)
      · refine work_setPhase_lt inside ?_
        rw [here]
        simp only [Phase.rank]
        omega
  | sending frame todo last =>
    cases last with
    | true => rw [here] at live; cases live
    | false =>
      cases todo with
      | nil =>
        refine .inl ⟨.sent i, s.setPhase i .reading, by simp only [act, here]; rfl, trivial, rfl,
          ?_⟩
        exact work_setPhase_lt inside (by rw [here]; exact Nat.lt_succ_self 2)
      | cons d rest =>
        have shorter : Phase.rank s.clients.length (.sending frame rest false) + 3 ≤
            (s.phase i).rank s.clients.length := by
          rw [here]
          simp only [Phase.rank, List.length_cons]
          omega
        cases more : s.done d with
        | true =>
          refine .inl ⟨.skip i, s.setPhase i (.sending frame rest false),
            by simp only [act, here]; exact if_pos more, trivial, rfl, ?_⟩
          exact work_setPhase_lt inside (by omega)
        | false =>
          have known := (inv.todo i frame _ _ here).2 d List.mem_cons_self
          rw [← inv.done d, more] at known
          have member : (s.phase d).serving = true := by simpa using known
          have within : d ≤ s.lastId := inv.bound d fun absent => by
            rw [absent] at member
            cases member
          rcases Nat.lt_or_ge (s.out d).length capacity with room | full
          · refine .inl ⟨.send i,
              (s.setPhase i (.sending frame rest false)).setOut d (s.out d ++ [frame]),
              by simp only [act, here]; exact if_pos room, ?_, rfl, ?_⟩
            · intro _ _ _ other
              rw [here] at other
              cases other
            · exact work_send_lt inside within shorter
          · have whole : (s.out d).length = capacity := le_antisymm (inv.out d) full
            cases writer : s.writer d with
            | absent => exact absurd writer (inv.writer d member)
            | returned => exact .inr ⟨d, ⟨frame, rest, here⟩, whole, more, writer⟩
            | writing out =>
              refine .inl ⟨.wrote d, s.setWriter d .selecting, by simp only [act, writer], trivial,
                rfl, ?_⟩
              exact work_wrote_lt within writer
            | selecting =>
              obtain ⟨first, later, queued⟩ := List.exists_cons_of_length_pos
                (by rw [whole]; decide : 0 < (s.out d).length)
              refine .inl ⟨.receive d, (s.setWriter d (.writing first)).setOut d later,
                by simp only [act, writer, queued], trivial, rfl, ?_⟩
              exact work_receive_lt within writer queued
  | removing =>
    refine .inl ⟨.remove i, { s.setPhase i (afterRemove (s.name i)) with
      clients := s.clients.filter (· ≠ i), done := Function.update s.done i true },
      by rw [act, if_pos here], trivial, rfl, ?_⟩
    exact work_remove_lt inside here (afterRemove_gone (s.name i)).1

/-- Readers that all stand before such channels make a ring. -/
theorem ring_of_stands (inv : s.Inv) (live : (s.phase i).serving = true)
    (stands : ∀ j, (s.phase j).serving = true → ∃ d, s.Stands j d) :
    ∃ ring, s.Ring ring := by
  refine ⟨{d | ∃ j, (s.phase j).serving = true ∧ s.Stands j d}, ?_, ?_, ?_, ?_, ?_⟩
  · obtain ⟨d, here⟩ := stands i live
    exact ⟨d, i, live, here⟩
  · rintro d ⟨j, -, here⟩
    exact here.2.2.2
  · rintro d ⟨j, -, here⟩
    exact here.2.2.1
  · rintro d ⟨j, -, ⟨frame, rest, here⟩, full, -⟩
    have owed : s.owes j d := by
      rw [owes, here]
      exact List.mem_cons_self
    have claim : j ∈ s.claims d := mem_claims.mpr ⟨inv.owes_lt owed, owed⟩
    have positive := Finset.card_pos.mpr ⟨j, claim⟩
    omega
  · rintro d ⟨j, -, ⟨frame, rest, here⟩, -, more, -⟩
    have known := (inv.todo j frame _ _ here).2 d List.mem_cons_self
    rw [← inv.done d, more] at known
    have member : (s.phase d).serving = true := by simpa using known
    obtain ⟨e, next⟩ := stands d member
    refine ⟨e, ⟨d, member, next⟩, ?_⟩
    obtain ⟨⟨frame', rest', there⟩, -⟩ := next
    rw [owes, there]
    exact List.mem_cons_self

end Inv

/-- A hub without a ring. -/
def Clear (s : State) : Prop := s.Inv ∧ ∀ ring, ¬ s.Ring ring

theorem Clear.keeps {a : Action} (clear : s.Clear) (near : near s a)
    (taken : hub.step s a = some t) : t.Clear := by
  simp only [hub] at taken
  split_ifs at taken
  exact ⟨clear.1.keeps taken, fun ring closed =>
    clear.2 ring (clear.1.ring_back taken near closed)⟩

theorem hub_step (running : s.exited = false) (a : Action) : hub.step s a = s.act a := by
  simp [hub, running]

/-- Every client can still be removed. -/
theorem Clear.exists_run (clear : s.Clear) (running : s.exited = false) :
    ∃ acts t, hub.runFrom? s acts = some t ∧ t.Clear ∧ ∀ i, (t.phase i).serving = false := by
  have progress : ∀ u : State, u.Clear ∧ u.exited = false → ¬ (∀ i, (u.phase i).serving = false) →
      ∃ a t, hub.step u a = some t ∧ (t.Clear ∧ t.exited = false) ∧ t.work < u.work := by
    rintro u ⟨clear, running⟩ more
    simp only [not_forall, Bool.not_eq_false] at more
    obtain ⟨i, live⟩ := more
    by_contra none
    obtain ⟨ring, closed⟩ := clear.1.ring_of_stands live fun j member => by
      refine (clear.1.drains_or_stands member).resolve_left ?_
      rintro ⟨a, t, taken, close, same, less⟩
      have step : hub.step u a = some t := (hub_step running a).trans taken
      exact none ⟨a, t, step, ⟨clear.keeps close step, same.trans running⟩, less⟩
    exact clear.2 ring closed
  obtain ⟨acts, t, run, kept, spent⟩ := Machine.exists_run work progress ⟨clear, running⟩
  exact ⟨acts, t, run, kept.1, spent⟩

theorem known_update {d j : ℕ} {p : Phase} (new : (p.serving || p.gone) = true)
    (known : ((s.phase d).serving || (s.phase d).gone) = true) :
    ((Function.update s.phase j p d).serving || (Function.update s.phase j p d).gone) = true := by
  rcases eq_or_ne d j with rfl | other
  · rwa [Function.update_self]
  · rwa [Function.update_of_ne other]

/-- A client that has been added stays in the hub until it is removed. -/
theorem Inv.known_keeps (inv : s.Inv) {a : Action} (taken : s.act a = some t) {d : ℕ}
    (known : ((s.phase d).serving || (s.phase d).gone) = true) :
    ((t.phase d).serving || (t.phase d).gone) = true := by
  cases effect_of_act taken with
  | accept =>
    have other : d ≠ s.lastId + 1 := by
      rintro rfl
      have bound := inv.bound (s.lastId + 1) fun absent => by
        rw [absent] at known
        cases known
      omega
    change ((Function.update s.phase _ _ d).serving || (Function.update s.phase _ _ d).gone) = true
    rwa [Function.update_of_ne other]
  | frame here myName =>
    exact known_update (by rw [(onFrame_serving _ _ _).1]; rfl) known
  | remove here => exact known_update (by rw [(afterRemove_gone _).2.1, Bool.or_true]) known
  | @targets i todo frame except last here those =>
    exact known_update (by cases last <;> rfl) known
  | @send i d rest frame last here room => exact known_update (by cases last <;> rfl) known
  | @skip i d rest frame last here gone => exact known_update (by cases last <;> rfl) known
  | @sent i frame last here => exact known_update (by cases last <;> rfl) known
  | add here => exact known_update rfl known
  | readError here => exact known_update rfl known
  | setName here joined name => exact known_update rfl known
  | _ => exact known

theorem Clear.not_wedged (clear : s.Clear) : ¬ s.Wedged := by
  rintro ⟨running, i, d, ⟨frame, rest, last, here, full, more⟩, never⟩
  obtain ⟨acts, t, run, kept, spent⟩ := clear.exists_run running
  have known : ((s.phase d).serving || (s.phase d).gone) = true := by
    simpa using (clear.1.todo i frame _ _ here).2 d List.mem_cons_self
  have later : t.Inv ∧ ((t.phase d).serving || (t.phase d).gone) = true := by
    refine @Machine.runFrom?_keeps _ _ hub (fun u => u.Inv ∧
      ((u.phase d).serving || (u.phase d).gone) = true) ?_ _ _ _ ⟨clear.1, known⟩ run
    rintro u a v ⟨inv, there⟩ taken
    simp only [hub] at taken
    split_ifs at taken
    exact ⟨inv.keeps taken, inv.known_keeps taken there⟩
  have closed := (never acts t run).2
  rw [later.1.done d] at closed
  rw [spent d, closed] at later
  exact absurd later.2 (by decide)

end State

/-- In every run in which no writer that returns, no frame that is read and no farewell that is
queued closes a ring, no broadcaster is ever wedged. -/
theorem hub_never_wedged {acts : List Action} {s : State}
    (met : hub.Meets near hub.init acts) (run : hub.run? acts = some s) : ¬ s.Wedged := by
  have start : hub.init.Clear := by
    refine ⟨State.Inv.init, fun ring closed => ?_⟩
    obtain ⟨d, member⟩ := closed.some
    cases closed.returned d member
  have clear := @Machine.run?_keeps_of_meets _ _ hub State.Clear near start
    (fun s a t clear near taken => clear.keeps near taken) _ _ met run
  exact clear.not_wedged

/-- A JOIN of a client with a one-letter name. -/
def join : Frame := ⟨typeJoin, [0x41]⟩

/-- Nothing waits while the first client connects and joins. -/
theorem met_joined : hub.Meets near hub.init [.accept, .add 1, .frame 1 join] := by
  refine ⟨trivial, fun s first => ⟨trivial, fun t second => ⟨?_, fun _ _ => trivial⟩⟩⟩
  obtain rfl := Option.some.inj first
  obtain rfl := Option.some.inj second
  intro ring closed
  obtain ⟨d, member⟩ := closed.some
  have ended := State.Inv.returned_of_setWriter (s := hub.init) (w := .selecting) (by decide)
    (closed.returned d member)
  cases ended

/-- The first client connects and joins. -/
theorem hub_never_wedged_joined :
    ∃ s, hub.run? [.accept, .add 1, .frame 1 join] = some s ∧ ¬ s.Wedged :=
  ⟨_, rfl, hub_never_wedged met_joined rfl⟩

def joinActs : List Action := [.frame 1 join, .setName 1, .targets 1 [1]]

/-- Only one client has connected; its writer has returned, and `k` frames are queued with it. -/
structure Alone (p : Phase) (k : ℕ) (s : State) : Prop where
  running : s.exited = false
  known : 1 ≤ s.lastId
  phase : s.phase 1 = p
  clients : s.clients = [1]
  out : (s.out 1).length = k
  done : s.done 1 = false
  writer : s.writer 1 = .returned

namespace Alone

variable {p : Phase} {k : ℕ} {s : State}

theorem setPhase (alone : Alone p k s) (q : Phase) : Alone q k (s.setPhase 1 q) :=
  ⟨alone.running, alone.known, by simp, alone.clients, alone.out, alone.done, alone.writer⟩

/-- The client joins, and its reader stands before its own channel. -/
theorem joins (alone : Alone .reading k s) : ∃ frame t, hub.runFrom? s joinActs = some t ∧
    Alone (.sending frame [1] false) k t := by
  let joined := buildDeliver (ascii "server") ([0x41] ++ ascii " joined")
  let named : State := { s.setPhase 1 (.naming [0x41]) with
    myName := Function.update s.myName 1 [0x41] }
  let ready : State := { named.setPhase 1 (.ready joined none false) with
    name := Function.update named.name 1 [0x41] }
  have first : hub.step s (.frame 1 join) = some named := by
    rw [State.hub_step alone.running, State.act, if_pos alone.phase]
    rfl
  have second : hub.step named (.setName 1) = some ready := by
    rw [@State.hub_step named alone.running]
    rfl
  have third : hub.step ready (.targets 1 [1]) =
      some (ready.setPhase 1 (.sending joined [1] false)) := by
    rw [@State.hub_step ready alone.running]
    have those : [1].Perm (ready.clients.filter fun j => none ≠ some j) := by
      change [1].Perm (s.clients.filter fun j => none ≠ some j)
      rw [alone.clients]
      exact List.Perm.refl _
    exact if_pos those
  refine ⟨joined, _, ?_, (?_ : Alone (.ready joined none false) k ready).setPhase _⟩
  · rw [joinActs, Machine.runFrom?_cons first, Machine.runFrom?_cons second,
      Machine.runFrom?_cons third]
    rfl
  · exact ⟨alone.running, alone.known, Function.update_self 1 _ named.phase, alone.clients,
      alone.out, alone.done, alone.writer⟩

/-- There is room, and the reader goes on. -/
theorem sends {frame : Bytes} (alone : Alone (.sending frame [1] false) k s)
    (room : k < capacity) :
    ∃ t, hub.runFrom? s [.send 1, .sent 1] = some t ∧ Alone .reading (k + 1) t := by
  let queued := (s.setPhase 1 (.sending frame [] false)).setOut 1 (s.out 1 ++ [frame])
  have first : hub.step s (.send 1) = some queued := by
    rw [State.hub_step alone.running, State.act, alone.phase]
    exact if_pos (alone.out.trans_lt room)
  have second : hub.step queued (.sent 1) = some (queued.setPhase 1 .reading) := by
    rw [@State.hub_step queued alone.running]
    rfl
  refine ⟨_, ?_, (?_ : Alone (.sending frame [] false) (k + 1) queued).setPhase _⟩
  · rw [Machine.runFrom?_cons first, Machine.runFrom?_cons second]
    rfl
  · refine ⟨alone.running, alone.known, Function.update_self 1 _ s.phase, alone.clients, ?_,
      alone.done, alone.writer⟩
    change (Function.update s.out 1 (s.out 1 ++ [frame]) 1).length = k + 1
    rw [Function.update_self, List.length_append, alone.out, List.length_singleton]

/-- The channel fills up. -/
theorem fills (alone : Alone .reading 0 s) {n : ℕ} (most : n ≤ capacity) :
    ∃ t, hub.runFrom? s (List.replicate n (joinActs ++ [.send 1, .sent 1])).flatten = some t ∧
      Alone .reading n t := by
  induction n with
  | zero => exact ⟨s, rfl, alone⟩
  | succ n ih =>
    obtain ⟨t, run, filled⟩ := ih (by omega)
    obtain ⟨frame, u, joined, stands⟩ := filled.joins
    obtain ⟨v, sent, next⟩ := stands.sends (by omega)
    refine ⟨v, ?_, next⟩
    rw [List.replicate_succ', List.flatten_append, Machine.runFrom?_append_of run,
      List.flatten_singleton, Machine.runFrom?_append_of joined, sent]

end Alone

/-- The reader of the first client stands before its own full channel, whose writer has returned. -/
structure SelfBlocked (s : State) : Prop where
  known : 1 ≤ s.lastId
  phase : ∃ frame, s.phase 1 = .sending frame [1] false
  out : (s.out 1).length = capacity
  done : s.done 1 = false
  writer : s.writer 1 = .returned

namespace SelfBlocked

variable {s t : State}

theorem other {i : ℕ} {p : Phase} (blocked : SelfBlocked s) (here : s.phase i = p)
    (apart : ∀ frame, p ≠ .sending frame [1] false) : i ≠ 1 := by
  rintro rfl
  obtain ⟨frame, stands⟩ := blocked.phase
  exact apart frame (here.symm.trans stands)

theorem setPhase {i : ℕ} (blocked : SelfBlocked s) (apart : i ≠ 1) (p : Phase) :
    SelfBlocked (s.setPhase i p) := by
  refine ⟨blocked.known, ?_, blocked.out, blocked.done, blocked.writer⟩
  rw [State.setPhase_phase, Function.update_of_ne apart.symm]
  exact blocked.phase

theorem setWriter {i : ℕ} (blocked : SelfBlocked s) (apart : s.writer i ≠ .returned) (w : Writer) :
    SelfBlocked (s.setWriter i w) := by
  refine ⟨blocked.known, blocked.phase, blocked.out, blocked.done, ?_⟩
  have different : 1 ≠ i := by
    rintro rfl
    exact apart blocked.writer
  rw [State.setWriter_writer, Function.update_of_ne different]
  exact blocked.writer

theorem setOut {i : ℕ} (blocked : SelfBlocked s) (apart : i ≠ 1) (out : List Bytes) :
    SelfBlocked (s.setOut i out) := by
  refine ⟨blocked.known, blocked.phase, ?_, blocked.done, blocked.writer⟩
  rw [State.setOut_out, Function.update_of_ne apart.symm]
  exact blocked.out

/-- Nothing moves the reader, its channel or its writer. -/
theorem keeps (blocked : SelfBlocked s) {a : Action} (taken : s.act a = some t) :
    SelfBlocked t ∧ a ≠ .receive 1 := by
  have known := blocked.known
  cases effect_of_act taken with
  | accept =>
    have moved := blocked.setPhase (i := s.lastId + 1) (by omega) .starting
    exact ⟨⟨Nat.le_succ_of_le known, moved.phase, moved.out, moved.done, moved.writer⟩, by simp⟩
  | sigint => exact ⟨⟨known, blocked.phase, blocked.out, blocked.done, blocked.writer⟩, by simp⟩
  | exit => exact ⟨⟨known, blocked.phase, blocked.out, blocked.done, blocked.writer⟩, by simp⟩
  | @add i here =>
    have apart := blocked.other here (by simp)
    have moved := blocked.setPhase apart .reading
    refine ⟨⟨known, moved.phase, moved.out, moved.done, ?_⟩, by simp⟩
    exact (Function.update_of_ne apart.symm _ _).trans blocked.writer
  | @frame i f here myName =>
    have moved := blocked.setPhase (blocked.other here (by simp)) (onFrame i (s.myName i) f)
    exact ⟨⟨known, moved.phase, moved.out, moved.done, moved.writer⟩, by simp⟩
  | readError here => exact ⟨blocked.setPhase (blocked.other here (by simp)) _, by simp⟩
  | setName here joined name =>
    have moved := blocked.setPhase (blocked.other here (by simp)) (.ready joined none false)
    exact ⟨⟨known, moved.phase, moved.out, moved.done, moved.writer⟩, by simp⟩
  | targets here those => exact ⟨blocked.setPhase (blocked.other here (by simp)) _, by simp⟩
  | @send i d rest frame last here room =>
    have apart : d ≠ 1 := by
      rintro rfl
      rw [blocked.out] at room
      exact lt_irrefl _ room
    refine ⟨(blocked.setPhase (blocked.other here fun frame same => ?_) _).setOut apart _, by simp⟩
    cases same
    exact apart rfl
  | @skip i d rest frame last here gone =>
    have apart : d ≠ 1 := by
      rintro rfl
      rw [blocked.done] at gone
      cases gone
    refine ⟨blocked.setPhase (blocked.other here fun frame same => ?_) _, by simp⟩
    cases same
    exact apart rfl
  | sent here => exact ⟨blocked.setPhase (blocked.other here (by simp)) _, by simp⟩
  | @remove i here =>
    have apart := blocked.other here (by simp)
    have moved := blocked.setPhase apart (afterRemove (s.name i))
    refine ⟨⟨known, moved.phase, moved.out, ?_, moved.writer⟩, by simp⟩
    exact (Function.update_of_ne apart.symm _ _).trans blocked.done
  | @receive i frame rest here first =>
    have apart : i ≠ 1 := by
      rintro rfl
      rw [blocked.writer] at here
      cases here
    exact ⟨(blocked.setWriter (by rw [here]; decide) _).setOut apart _, by simpa using apart⟩
  | wrote here => exact ⟨blocked.setWriter (by rw [here]; simp) _, by simp⟩
  | writeError here => exact ⟨blocked.setWriter (by rw [here]; simp) _, by simp⟩
  | stopWriter here because => exact ⟨blocked.setWriter (by rw [here]; decide) _, by simp⟩

theorem never (blocked : SelfBlocked s) {acts : List Action} (run : hub.runFrom? s acts = some t) :
    .receive 1 ∉ acts ∧ t.done 1 = false := by
  induction acts generalizing s with
  | nil =>
    cases run
    exact ⟨List.not_mem_nil, blocked.done⟩
  | cons a rest ih =>
    obtain ⟨next, taken, tail⟩ := (Machine.runFrom?_cons_eq_some _).mp run
    simp only [hub] at taken
    split_ifs at taken
    obtain ⟨kept, other⟩ := blocked.keeps taken
    obtain ⟨absent, more⟩ := ih kept tail
    refine ⟨fun member => ?_, more⟩
    rcases List.mem_cons.mp member with here | later
    · exact other here.symm
    · exact absent later

end SelfBlocked

/-- The client's writer returns after a failed write; 65 JOINs later, all of which its reader had
already read from the socket, the reader waits for itself. -/
def selfJoins : List Action :=
  [.accept, .add 1] ++ (joinActs ++ ([.send 1, .sent 1, .receive 1, .writeError 1] ++
    ((List.replicate capacity (joinActs ++ [.send 1, .sent 1])).flatten ++ joinActs)))

theorem hub_wedged : ∃ s, hub.run? selfJoins = some s ∧ s.Wedged := by
  obtain ⟨s, start, alone⟩ : ∃ s, hub.run? ([.accept, .add 1] ++
      (joinActs ++ [.send 1, .sent 1, .receive 1, .writeError 1])) = some s ∧
      Alone .reading 0 s := ⟨_, rfl, ⟨rfl, by decide, rfl, rfl, rfl, rfl, rfl⟩⟩
  obtain ⟨t, full, filled⟩ := alone.fills le_rfl
  obtain ⟨frame, u, joined, stands⟩ := filled.joins
  have blocked : SelfBlocked u :=
    ⟨stands.known, ⟨frame, stands.phase⟩, stands.out, stands.done, stands.writer⟩
  refine ⟨u, ?_, stands.running, 1, 1, ⟨frame, [], false, stands.phase, stands.out, stands.done⟩,
    fun acts v run => blocked.never run⟩
  have split : selfJoins = ([.accept, .add 1] ++
      (joinActs ++ [.send 1, .sent 1, .receive 1, .writeError 1])) ++
      ((List.replicate capacity (joinActs ++ [.send 1, .sent 1])).flatten ++ joinActs) := by
    simp only [selfJoins, List.append_assoc]
  rw [split, Machine.run?, Machine.runFrom?_append_of start, Machine.runFrom?_append_of full,
    joined]

end LinuxSys.Servers.GoHub
