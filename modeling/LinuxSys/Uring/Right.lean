import LinuxSys.Uring.Kernel

/-! # A copy of fwatch ch10

A copy that reports success has copied the file, no wait is for an entry that was not submitted,
and a copy that has returned leaves nothing in the ring.
-/

namespace LinuxSys.Uring

open Lib

variable {impl : Impl} {src : Source}

/-- What `copy_file_uring` promises in every state. -/
structure Right (src : Source) (s : State) : Prop where
  copied : s.phase = .returned true → ∀ i, s.dst i = src.bytes[i]?
  same : s.phase = .returned true → ∀ acts t, (copyRw src).run? acts = some t →
    t.phase = .returned true → ∀ i, s.dst i = t.dst[i]?
  submitted : ∀ idle, s.phase = .waiting idle → s.need ≤ s.cq.length + (s.ops.map Op.owed).sum
  clean : ∀ ok, s.phase = .returned ok → s.ops = [] ∧ s.sq = [] ∧ s.cq = []

/-- The file is not longer than `fstat` says, C++ submits all of a batch in one call and no WRITE is
performed while its READ, split from it, is still under way; the opened ring never fails, in Rust it
is not interrupted before it has submitted, and only the last completion is bad. -/
def near (impl : Impl) (src : Source) (s : State) : Action → Prop
  | .push => s.batch = [] → src.size ≤ s.off → src.bytes.length ≤ src.size
  | .enter count => impl = .cpp → s.phase = .entering count
  | .fail => s.phase = .opening
  | .interrupt => impl = .rust → s.phase = .waiting false
  | .complete (.write c) _ => .read c ∉ s.ops
  | .take => impl = .rust → ∀ cqe ∈ s.cq.head?, s.Bad cqe → s.need = 1
  | _ => True

instance (s : State) : (a : Action) → Decidable (near impl src s a)
  | .push => inferInstanceAs (Decidable
      (s.batch = [] → src.size ≤ s.off → src.bytes.length ≤ src.size))
  | .enter count => inferInstanceAs (Decidable (impl = .cpp → s.phase = .entering count))
  | .fail => inferInstanceAs (Decidable (s.phase = .opening))
  | .interrupt => inferInstanceAs (Decidable (impl = .rust → s.phase = .waiting false))
  | .complete (.write c) _ => inferInstanceAs (Decidable (.read c ∉ s.ops))
  | .take => inferInstanceAs (Decidable
      (impl = .rust → ∀ cqe ∈ s.cq.head?, s.Bad cqe → s.need = 1))
  | .complete (.pair _ _) _ | .complete (.read _) _ | .complete (.cancelled _) _ => isTrue trivial
  | .opened | .wake | .test | .again => isTrue trivial

/-! The plain loop. -/

/-- What has been read is in the destination or about to be written. -/
def RwState.Shape (src : Source) (s : RwState) : RwPhase → Prop
  | .reading => s.dst = src.bytes.take s.pos
  | .writing pending => s.dst ++ pending = src.bytes.take s.pos
  | .returned ok => ok = true → s.dst = src.bytes

theorem RwState.Shape.step {s t : RwState} {a : RwAction} (shape : s.Shape src s.phase)
    (taken : s.step src a = some t) : t.Shape src t.phase := by
  cases a with
  | read n =>
    simp only [RwState.step] at taken
    split at taken
    · rename_i here
      rw [here] at shape
      have dst : s.dst = src.bytes.take s.pos := shape
      obtain ⟨⟨_, room, ended⟩, step⟩ := Option.ite_none_right_eq_some.mp taken
      split at step
      · rename_i none
        cases step
        intro _
        rw [dst, ended none, List.take_length]
      · cases step
        change s.dst ++ (src.bytes.drop s.pos).take n = src.bytes.take (s.pos + n)
        rw [dst, List.take_add]
    · cases taken
  | write n =>
    simp only [RwState.step] at taken
    split at taken
    · rename_i pending here
      rw [here] at shape
      have dst : s.dst ++ pending = src.bytes.take s.pos := shape
      obtain ⟨_, step⟩ := Option.ite_none_right_eq_some.mp taken
      cases step
      split
      · rename_i none
        change s.dst ++ pending.take n = src.bytes.take s.pos
        rw [← dst, ← List.take_append_drop n pending, none, List.append_nil, List.take_take,
          min_self]
      · change s.dst ++ pending.take n ++ pending.drop n = src.bytes.take s.pos
        rw [List.append_assoc, List.take_append_drop, dst]
    · cases taken
  | error =>
    simp only [RwState.step] at taken
    split at taken <;> cases taken
    · nofun
    · nofun

theorem copyRw_copied {acts : List RwAction} {t : RwState} (run : (copyRw src).run? acts = some t)
    (returned : t.phase = .returned true) : t.dst = src.bytes := by
  have shape : t.Shape src t.phase :=
    @Machine.run?_keeps _ _ (copyRw src) (fun s => s.Shape src s.phase) rfl
      (fun _ _ _ shape taken => shape.step taken) _ _ run
  rw [returned] at shape
  exact shape rfl

namespace State

variable {s t : State}

/-- Every entry of the batch is accounted for. -/
def Counted (s : State) : Prop :=
  s.need = s.cq.length + (s.ops.map Op.owed).sum + s.sq.length

theorem eq_nil_of_sum_owed {ops : List Op} (none : (ops.map Op.owed).sum = 0) : ops = [] := by
  cases ops with
  | nil => rfl
  | cons op rest =>
    have positive := op.owed_pos
    rw [List.map_cons, List.sum_cons] at none
    omega

def Shape (impl : Impl) (src : Source) (s : State) : Phase → Prop
  | .opening =>
    s.ops = [] ∧ s.cq = [] ∧ s.shortIo = false ∧ s.sq = [] ∧ s.batch = []
  | .filling =>
    s.ops = [] ∧ s.cq = [] ∧ s.shortIo = false ∧ s.sq.length = 2 * s.batch.length ∧
      ∃ chunks, s.sq = queued chunks
  | .entering n => n = s.sq.length ∧ s.Counted
  | .waiting _ => s.sq = [] ∧ s.Counted
  | .draining view =>
    (impl = .cpp → s.sq = [] ∧ view = none) ∧ view.getD 0 ≤ s.cq.length ∧ s.Counted
  | .returned ok =>
    (s.ops = [] ∧ s.sq = [] ∧ s.cq = []) ∧ (ok = true → ∀ i, s.dst i = src.bytes[i]?)

structure Inv (impl : Impl) (src : Source) (s : State) : Prop where
  linked : Linked s.sq
  batched : s.Batched
  sound : s.phase = .returned false ∨ s.Spoiled ∨ s.Fine src
  shape : s.Shape impl src s.phase

theorem Inv.right (inv : s.Inv impl src) : Right src s := by
  have shape := inv.shape
  have copied : s.phase = .returned true → ∀ i, s.dst i = src.bytes[i]? := by
    intro here
    rw [here] at shape
    exact shape.2 rfl
  refine ⟨copied, ?_, ?_, ?_⟩
  · intro here acts t run returned i
    rw [copyRw_copied run returned]
    exact copied here i
  · intro idle here
    rw [here] at shape
    have counted : s.need = s.cq.length + (s.ops.map Op.owed).sum + s.sq.length := shape.2
    rw [shape.1, List.length_nil] at counted
    omega
  · intro ok here
    rw [here] at shape
    exact shape.1

theorem Inv.init : State.Inv impl src {} where
  linked := linked_queued []
  batched := ⟨by simp, by simp, by simp⟩
  sound := .inr (.inr ⟨by simp, by simp, by simp [Unlinked]⟩)
  shape := ⟨rfl, rfl, rfl, rfl, rfl⟩

/-! Each step. -/

theorem Inv.move (inv : s.Inv impl src) (running : s.phase ≠ .returned false) {phase : Phase}
    {need : ℕ} (shape : State.Shape impl src { s with need } phase) :
    State.Inv impl src { s with phase, need } where
  linked := inv.linked
  batched := ⟨inv.batched.queued, inv.batched.taken, inv.batched.matched⟩
  sound := .inr ((inv.sound.resolve_left running).imp id fun fine =>
    ⟨fine.honest, fine.covered, fine.ready⟩)
  shape := by cases phase <;> exact shape

theorem Inv.fine_of_quiet (inv : s.Inv impl src) (running : s.phase ≠ .returned false)
    (ops : s.ops = []) (cq : s.cq = []) (long : s.shortIo = false) : s.Fine src := by
  rcases inv.sound.resolve_left running with (short | ⟨cqe, member, _⟩ | ⟨c, member⟩) | fine
  · rw [long] at short
    cases short
  · rw [cq] at member
    cases member
  · rw [ops] at member
    cases member
  · exact fine

theorem Live.concat {c : Chunk} (live : s.Live c) (new : Chunk) :
    (s.batch ++ [new])[c.slot]? = some c := by
  have inside := (List.getElem?_eq_some_iff.mp live).1
  rw [List.getElem?_append_left inside]
  exact live

theorem Inv.queue (inv : s.Inv impl src) (here : s.phase = .filling) {c : Chunk}
    (slot : c.slot = s.batch.length) (off : c.off = s.off) : (s.queue c).Inv impl src := by
  have shape := inv.shape
  rw [here] at shape
  obtain ⟨ops, cq, long, length, chunks, sq⟩ := shape
  have fine := inv.fine_of_quiet (by simp [here]) ops cq long
  have after : (s.queue c).sq = queued (chunks ++ [c]) := by
    rw [queued_concat, ← sq]
    rfl
  constructor
  · rw [after]
    exact linked_queued _
  · constructor
    · intro e member
      rcases List.mem_append.mp member with old | new
      · exact (inv.batched.queued e old).concat c
      · have chunk : e.chunk = c := by
          rcases List.mem_pair.mp new with rfl | rfl <;> rfl
        change (s.batch ++ [c])[e.chunk.slot]? = some e.chunk
        rw [chunk, slot, List.getElem?_concat_length]
    · intro op member
      exact (inv.batched.taken op member).concat c
    · exact inv.batched.matched
  · refine .inr (.inr ⟨fine.honest, ?_, ?_⟩)
    · intro i inside
      have within : i < s.off + c.len := inside
      by_cases old : i < s.off
      · rcases fine.covered i old with written | ⟨d, pending, range⟩
        · exact .inl written
        · exact .inr ⟨d, pending.imp_left (List.mem_append_left _), range⟩
      · exact .inr ⟨c, .inl (List.mem_append_right _ (by simp)), by omega, by omega⟩
    · rintro d (write | first)
      · exact fine.ready d (.inl write)
      · rw [after] at first
        exact absurd first head?_queued_ne
  · rw [show (s.queue c).phase = .filling from here]
    refine ⟨ops, cq, long, ?_, chunks ++ [c], after⟩
    simp only [State.queue, List.length_append, List.length_cons, List.length_nil, length]
    omega

theorem Inv.push (inv : s.Inv impl src) (here : s.phase = .filling)
    (guard : near impl src s .push) : (s.push src).Inv impl src := by
  have running : s.phase ≠ .returned false := by simp [here]
  have shape := inv.shape
  rw [here] at shape
  obtain ⟨ops, cq, long, length, _⟩ := shape
  rw [State.push]
  split
  · rename_i more
    have room : s.sq.length + 2 ≤ entries := by
      have few := more.1
      rw [kPairs] at few
      rw [length, entries]
      omega
    rw [if_pos room]
    exact inv.queue here rfl rfl
  · rename_i full
    split
    · rename_i first
      have none : s.sq = [] := by
        rw [← List.length_eq_zero_iff, length, first, List.length_nil]
      have all : src.size ≤ s.off := by
        rw [first, List.length_nil, kPairs] at full
        omega
      have fine := inv.fine_of_quiet running ops cq long
      refine inv.move running ⟨⟨ops, none, cq⟩, fun _ => ?_⟩
      refine fine.copied (fun c pending => ?_) ((guard first all).trans all)
      simp [Pending, none, ops] at pending
    · refine inv.move running ⟨rfl, ?_⟩
      simp [Counted, ops, cq, length]

/-- A call takes up the first entries of the queue. -/
theorem Inv.enter (inv : s.Inv impl src) (running : s.phase ≠ .returned false) {count : ℕ}
    (inside : count ≤ s.sq.length) (counted : s.Counted) {phase : Phase}
    (shape : ∀ t : State, t.sq = s.sq.drop count → t.Counted → t.Shape impl src phase) :
    State.Inv impl src
      { s with
        sq := s.sq.drop count
        ops := s.ops ++ submitted (s.sq.take count)
        phase } := by
  have submission := inv.linked.submission count
  constructor
  · exact submission.linked
  · constructor
    · intro e member
      exact inv.batched.queued e (List.mem_of_mem_drop member)
    · intro op member
      rcases List.mem_append.mp member with old | new
      · exact inv.batched.taken op old
      · obtain ⟨e, within, same⟩ := exists_chunk_of_mem_submitted new
        have live := inv.batched.queued e (List.mem_of_mem_take within)
        rw [same] at live
        exact live
    · intro c next member
      rcases List.mem_append.mp member with old | new
      · exact inv.batched.matched c next old
      · exact submission.matched c next new
  · rcases inv.sound.resolve_left running with (short | bad | ⟨c, member⟩) | fine
    · exact .inr (.inl (.inl short))
    · exact .inr (.inl (.inr (.inl bad)))
    · exact .inr (.inl (.inr (.inr ⟨c, List.mem_append_left _ member⟩)))
    · refine .inr (.inr ⟨fine.honest, ?_, ?_⟩)
      · intro i within
        rcases fine.covered i within with written | ⟨c, pending, range⟩
        · exact .inl written
        · refine .inr ⟨c, ?_, range⟩
          rcases pending with queued | pair | write
          · rcases submission.pending c queued with left | pair | write
            · exact .inl left
            · exact .inr (.inl (List.mem_append_right _ pair))
            · exact .inr (.inr (List.mem_append_right _ write))
          · exact .inr (.inl (List.mem_append_left _ pair))
          · exact .inr (.inr (List.mem_append_left _ write))
      · intro c unlinked
        have old : s.Unlinked c ∨ .read c ∈ submitted (s.sq.take count) := by
          rcases unlinked with write | first
          · rcases List.mem_append.mp write with old | new
            · exact .inl (.inl old)
            · exact .inl (.inr (submission.loose c new))
          · rcases submission.split c first with old | read
            · exact .inl (.inr old)
            · exact .inr read
        rcases old with old | read
        · exact (fine.ready c old).imp (List.mem_append_left _) id
        · exact .inl (List.mem_append_right _ read)
  · apply shape
    · rfl
    · have length : (s.sq.take count).length = count := List.length_take_of_le inside
      simp only [Counted, List.map_append, List.sum_append, sum_owed_submitted, length,
        List.length_drop]
      rw [Counted] at counted
      omega

theorem Counted.complete (counted : s.Counted) {op : Op} {res : ℤ} (member : op ∈ s.ops) :
    (s.complete src op res).Counted := by
  have owed : ((s.complete src op res).ops.map Op.owed).sum + 1 = (s.ops.map Op.owed).sum :=
    sum_owed_complete member
  rw [Counted] at counted ⊢
  rw [complete_need, complete_cq, complete_sq, List.length_append, List.length_singleton]
  omega

theorem Inv.complete (inv : s.Inv impl src) {op : Op} {res : ℤ} (member : op ∈ s.ops)
    (possible : possible src op res) (guard : near impl src s (.complete op res)) :
    (s.complete src op res).Inv impl src := by
  have shape := inv.shape
  have busy : s.ops ≠ [] := List.ne_nil_of_mem member
  have kept : (s.complete src op res).Shape impl src s.phase := by
    cases here : s.phase with
    | opening =>
      rw [here] at shape
      exact absurd shape.1 busy
    | filling =>
      rw [here] at shape
      exact absurd shape.1 busy
    | entering n =>
      rw [here] at shape
      exact ⟨by rw [complete_sq, shape.1], Counted.complete shape.2 member⟩
    | waiting idle =>
      rw [here] at shape
      exact ⟨by rw [complete_sq, shape.1], Counted.complete shape.2 member⟩
    | draining view =>
      rw [here] at shape
      refine ⟨fun language => ?_, ?_, Counted.complete shape.2.2 member⟩
      · rw [complete_sq]
        exact shape.1 language
      · rw [complete_cq, List.length_append]
        exact shape.2.1.trans (Nat.le_add_right _ _)
    | returned ok =>
      rw [here] at shape
      exact absurd shape.1.1 busy
  constructor
  · rw [complete_sq]
    exact inv.linked
  · exact inv.batched.complete member
  · rcases inv.sound with returned | sound
    · exact .inl (by rw [complete_phase, returned])
    · refine .inr (complete_sound inv.batched member possible ?_ sound)
      rintro c rfl
      exact guard
  · rw [complete_phase]
    exact kept

theorem Inv.takeCpp (inv : s.Inv .cpp src) (here : s.phase = .draining none) {cqe : Cqe}
    {rest : List Cqe} (cq : s.cq = cqe :: rest) (more : 0 < s.need) :
    (s.takeCpp cqe rest).Inv .cpp src := by
  have running : s.phase ≠ .returned false := by simp [here]
  have shape := inv.shape
  rw [here] at shape
  obtain ⟨sq, _, counted⟩ := shape
  constructor
  · exact inv.linked
  · exact ⟨inv.batched.queued, inv.batched.taken, inv.batched.matched⟩
  · rcases inv.sound.resolve_left running with (short | ⟨other, member, bad⟩ | cancelled) | fine
    · exact .inr (.inl (.inl (by simp [State.takeCpp, short])))
    · rw [cq, List.mem_cons] at member
      rcases member with rfl | later
      · exact .inr (.inl (.inl (by simp [State.takeCpp, bad])))
      · exact .inr (.inl (.inr (.inl ⟨other, later, bad⟩)))
    · exact .inr (.inl (.inr (.inr cancelled)))
    · exact .inr (.inr ⟨fine.honest, fine.covered, fine.ready⟩)
  · rw [show (s.takeCpp cqe rest).phase = .draining none from here]
    refine ⟨sq, Nat.zero_le _, ?_⟩
    rw [Counted, cq, List.length_cons] at counted
    simp only [Counted, State.takeCpp]
    omega

theorem Inv.takeRust (inv : s.Inv .rust src) {view : ℕ}
    (here : s.phase = .draining (some (view + 1))) {cqe : Cqe} {rest : List Cqe}
    (cq : s.cq = cqe :: rest) (guard : near .rust src s .take) :
    (s.takeRust view cqe rest).Inv .rust src := by
  have running : s.phase ≠ .returned false := by simp [here]
  have shape := inv.shape
  rw [here] at shape
  obtain ⟨_, seen, counted⟩ := shape
  rw [Counted, cq, List.length_cons] at counted
  rw [State.takeRust]
  split
  · rename_i bad
    have last : s.need = 1 := guard rfl cqe (by rw [cq]; rfl) bad
    have ops : s.ops = [] := eq_nil_of_sum_owed (by omega)
    have sq : s.sq = [] := List.length_eq_zero_iff.mp (by omega)
    have none : rest = [] := List.length_eq_zero_iff.mp (by omega)
    constructor
    · exact inv.linked
    · exact ⟨inv.batched.queued, inv.batched.taken, inv.batched.matched⟩
    · exact .inl rfl
    · exact ⟨⟨ops, sq, none⟩, nofun⟩
  · rename_i good
    constructor
    · exact inv.linked
    · exact ⟨inv.batched.queued, inv.batched.taken, inv.batched.matched⟩
    · rcases inv.sound.resolve_left running with (short | ⟨other, member, bad⟩ | cancelled) | fine
      · exact .inr (.inl (.inl short))
      · rw [cq, List.mem_cons] at member
        rcases member with rfl | later
        · exact absurd bad good
        · exact .inr (.inl (.inr (.inl ⟨other, later, bad⟩)))
      · exact .inr (.inl (.inr (.inr cancelled)))
      · exact .inr (.inr ⟨fine.honest, fine.covered, fine.ready⟩)
    · refine ⟨nofun, ?_, ?_⟩
      · rw [cq, List.length_cons] at seen
        exact Nat.le_of_succ_le_succ seen
      · simp only [Counted]
        omega

theorem Inv.finish (inv : s.Inv impl src) {view : Option ℕ} (here : s.phase = .draining view)
    (none : s.need = 0) : s.finish.Inv impl src := by
  have running : s.phase ≠ .returned false := by simp [here]
  have shape := inv.shape
  rw [here] at shape
  obtain ⟨_, _, counted⟩ := shape
  rw [Counted, none] at counted
  have cq : s.cq = [] := List.length_eq_zero_iff.mp (by omega)
  have ops : s.ops = [] := eq_nil_of_sum_owed (by omega)
  have sq : s.sq = [] := List.length_eq_zero_iff.mp (by omega)
  rw [State.finish]
  split
  · exact inv.move running ⟨⟨ops, sq, cq⟩, nofun⟩
  · rename_i long
    have fine := inv.fine_of_quiet running ops cq (by simpa using long)
    constructor
    · exact inv.linked
    · exact ⟨by simp [sq], by simp [ops], by simp [ops]⟩
    · exact .inr (.inr ⟨fine.honest, fine.covered, fine.ready⟩)
    · exact ⟨ops, cq, by simpa using long, by simp [sq], [], sq⟩

/-- A step that is near keeps the invariant. -/
theorem Inv.step (inv : s.Inv impl src) {a : Action} (guard : near impl src s a)
    (taken : s.step impl src a = some t) : t.Inv impl src := by
  have shape := inv.shape
  cases a with
  | opened =>
    obtain ⟨here, step⟩ := Option.ite_none_right_eq_some.mp taken
    cases step
    rw [here] at shape
    obtain ⟨ops, cq, long, sq, batch⟩ := shape
    refine inv.move (by simp [here]) ⟨ops, cq, long, ?_, [], sq⟩
    rw [sq, batch]
    rfl
  | push =>
    obtain ⟨here, step⟩ := Option.ite_none_right_eq_some.mp taken
    cases step
    exact inv.push here guard
  | enter count =>
    simp only [State.step] at taken
    split at taken
    · rename_i n here
      obtain ⟨⟨within, inside⟩, step⟩ := Option.ite_none_right_eq_some.mp taken
      cases step
      rw [here] at shape
      obtain ⟨offered, counted⟩ := shape
      refine inv.enter (by simp [here]) inside counted fun t sq counted => ?_
      split
      · rename_i fewer
        refine ⟨fun language => ?_, Nat.zero_le _, counted⟩
        have all := guard language
        rw [here] at all
        cases all
        omega
      · rename_i all
        exact ⟨by rw [sq, List.drop_eq_nil_iff]; omega, counted⟩
    · cases taken
  | fail =>
    have here : s.phase = .opening := guard
    simp only [State.step, here] at taken
    cases taken
    rw [here] at shape
    obtain ⟨ops, cq, _, sq, _⟩ := shape
    exact inv.move (by simp [here]) ⟨⟨ops, sq, cq⟩, nofun⟩
  | interrupt =>
    simp only [State.step] at taken
    split at taken
    · rename_i n here
      cases taken
      cases impl with
      | cpp =>
        rw [here] at shape
        exact inv.move (by simp [here]) shape
      | rust =>
        have submitted := guard rfl
        rw [here] at submitted
        cases submitted
    · rename_i here
      cases taken
      cases impl with
      | cpp =>
        rw [here] at shape
        exact inv.move (by simp [here]) ⟨by rw [shape.1]; rfl, shape.2⟩
      | rust =>
        have submitted := guard rfl
        rw [here] at submitted
        cases submitted
    · rename_i here
      cases taken
      rw [here] at shape
      exact inv.move (by simp [here]) ⟨fun _ => ⟨shape.1, rfl⟩, Nat.zero_le _, shape.2⟩
    · cases taken
  | wake =>
    simp only [State.step] at taken
    split at taken
    · rename_i idle here
      obtain ⟨_, step⟩ := Option.ite_none_right_eq_some.mp taken
      cases step
      rw [here] at shape
      exact inv.move (by simp [here]) ⟨fun _ => ⟨shape.1, rfl⟩, Nat.zero_le _, shape.2⟩
    · cases taken
  | complete op res =>
    obtain ⟨⟨member, possible⟩, step⟩ := Option.ite_none_right_eq_some.mp taken
    cases step
    exact inv.complete member possible guard
  | test =>
    simp only [State.step] at taken
    split at taken
    · rename_i view here
      split at taken
      · rename_i none
        obtain ⟨_, step⟩ := Option.ite_none_right_eq_some.mp taken
        cases step
        exact inv.finish here none
      · obtain ⟨⟨language, _⟩, step⟩ := Option.ite_none_right_eq_some.mp taken
        cases step
        subst language
        rw [here] at shape
        exact inv.move (by simp [here]) ⟨nofun, le_rfl, shape.2.2⟩
    · cases taken
  | take =>
    simp only [State.step] at taken
    split at taken
    · rename_i cqe rest here cq
      obtain ⟨⟨language, more⟩, step⟩ := Option.ite_none_right_eq_some.mp taken
      cases step
      subst language
      exact inv.takeCpp here cq more
    · rename_i view cqe rest here cq
      cases taken
      cases impl with
      | cpp =>
        rw [here] at shape
        cases (shape.1 rfl).2
      | rust => exact inv.takeRust here cq guard
    · cases taken
  | again =>
    simp only [State.step] at taken
    split at taken
    · rename_i view here
      obtain ⟨_, step⟩ := Option.ite_none_right_eq_some.mp taken
      cases step
      rw [here] at shape
      refine inv.move (by simp [here]) ⟨?_, shape.2.2⟩
      split
      · rename_i language
        rw [(shape.1 language).1]
        rfl
      · rfl
    · cases taken

end State

/-- In every run of near steps every state is right. -/
theorem copyUring_right {acts : List Action} {s : State}
    (met : (copyUring impl src).Meets (near impl src) {} acts)
    (run : (copyUring impl src).run? acts = some s) : Right src s :=
  (@Machine.run?_keeps_of_meets _ _ (copyUring impl src) (State.Inv impl src) (near impl src)
    State.Inv.init (fun _ _ _ inv guard taken => inv.step guard taken) _ _ met run).right

def whole : List Action :=
  [.opened, .push, .push, .enter 2, .complete (.pair ⟨0, 0, 3⟩ ⟨0, 0, 3⟩) 3,
    .complete (.write ⟨0, 0, 3⟩) 3, .wake, .take, .take, .test, .push]

/-- The first call submits the READ alone, the second one its WRITE. -/
def split : List Action :=
  [.opened, .push, .push, .enter 1, .complete (.read ⟨0, 0, 3⟩) 3, .test, .take, .again, .enter 1,
    .complete (.write ⟨0, 0, 3⟩) 3, .wake, .test, .take, .test, .push]

theorem copyUring_right_small :
    (∃ s, (copyUring .cpp ⟨[1, 2, 3], 3⟩).run? whole = some s ∧ Right ⟨[1, 2, 3], 3⟩ s) ∧
      ∃ s, (copyUring .rust ⟨[1, 2, 3], 3⟩).run? split = some s ∧ Right ⟨[1, 2, 3], 3⟩ s :=
  ⟨⟨_, rfl, @copyUring_right .cpp ⟨[1, 2, 3], 3⟩ whole _ (by decide) rfl⟩,
    _, rfl, @copyUring_right .rust ⟨[1, 2, 3], 3⟩ split _ (by decide) rfl⟩

/-- A file whose size is reported as zero is copied as an empty file, in C++ a WRITE that was not
submitted is waited for, and in Rust a short READ is returned with its WRITE still to come. -/
theorem not_right_runs :
    (∀ impl, ∃ s, (copyUring impl ⟨[65], 0⟩).run? [.opened, .push] = some s ∧
        ¬ Right ⟨[65], 0⟩ s) ∧
      (∃ s, (copyUring .cpp ⟨[65], 1⟩).run? [.opened, .push, .push, .enter 1, .again, .enter 0] =
        some s ∧ ¬ Right ⟨[65], 1⟩ s) ∧
      ∃ s, (copyUring .rust ⟨[65], 2⟩).run? [.opened, .push, .push, .enter 2,
        .complete (.pair ⟨0, 0, 2⟩ ⟨0, 0, 2⟩) 1, .interrupt, .test, .take] = some s ∧
        ¬ Right ⟨[65], 2⟩ s := by
  refine ⟨fun impl => ?_, ?_, ?_⟩
  · refine ⟨_, by cases impl <;> rfl, fun right => ?_⟩
    have first := right.copied rfl 0
    cases first
  · refine ⟨_, rfl, fun right => ?_⟩
    have enough := right.submitted true rfl
    revert enough
    decide
  · refine ⟨_, rfl, fun right => ?_⟩
    have empty := (right.clean false rfl).1
    cases empty

end LinuxSys.Uring
