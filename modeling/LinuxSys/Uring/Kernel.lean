import Mathlib.Algebra.BigOperators.Group.List.Basic
import LinuxSys.Uring.Copy

/-! # What the kernel does with the queue of fwatch ch10

A submission splits at most one linked pair. Until a completion is bad, every byte of the
destination is the byte of the source, and what is not there yet has its WRITE still to come.
-/

namespace LinuxSys.Uring

open Lib

def Sqe.chunk : Sqe → Chunk
  | .read c | .write c => c

def Op.chunk : Op → Chunk
  | .pair c _ | .read c | .write c | .cancelled c => c

theorem Op.owed_pos (op : Op) : 0 < op.owed := by
  cases op <;> simp [owed]

/-! The entries of a batch, of which a call takes up the first ones. -/

def queued (chunks : List Chunk) : List Sqe := chunks.flatMap fun c => [.read c, .write c]

/-- The queue holds linked pairs, behind a WRITE that a call has split from its READ. -/
def Linked (sq : List Sqe) : Prop :=
  ∃ (loose : Option Chunk) (chunks : List Chunk), sq = loose.toList.map .write ++ queued chunks

theorem linked_queued (chunks : List Chunk) : Linked (queued chunks) := ⟨none, chunks, rfl⟩

theorem queued_concat (chunks : List Chunk) (c : Chunk) :
    queued (chunks ++ [c]) = queued chunks ++ [.read c, .write c] := by
  rw [queued, List.flatMap_append]
  rfl

theorem sum_owed_submitted (sq : List Sqe) :
    ((submitted sq).map Op.owed).sum = sq.length := by
  induction sq using submitted.induct with
  | case1 c next rest ih =>
    rw [submitted, List.map_cons, List.sum_cons, ih, Op.owed, List.length_cons, List.length_cons]
    omega
  | case2 c rest other ih =>
    rw [submitted, List.map_cons, List.sum_cons, ih, Op.owed, List.length_cons]
    · omega
    · exact other
  | case3 c rest ih =>
    rw [submitted, List.map_cons, List.sum_cons, ih, Op.owed, List.length_cons]
    omega
  | case4 => rfl

theorem exists_chunk_of_mem_submitted {sq : List Sqe} {op : Op} (member : op ∈ submitted sq) :
    ∃ e ∈ sq, e.chunk = op.chunk := by
  induction sq using submitted.induct with
  | case1 c next rest ih =>
    rw [submitted, List.mem_cons] at member
    rcases member with rfl | later
    · exact ⟨.read c, by simp, rfl⟩
    · obtain ⟨e, inside, same⟩ := ih later
      exact ⟨e, by simp [inside], same⟩
  | case2 c rest other ih =>
    rw [submitted, List.mem_cons] at member
    · rcases member with rfl | later
      · exact ⟨.read c, by simp, rfl⟩
      · obtain ⟨e, inside, same⟩ := ih later
        exact ⟨e, by simp [inside], same⟩
    · exact other
  | case3 c rest ih =>
    rw [submitted, List.mem_cons] at member
    rcases member with rfl | later
    · exact ⟨.write c, by simp, rfl⟩
    · obtain ⟨e, inside, same⟩ := ih later
      exact ⟨e, by simp [inside], same⟩
  | case4 => simp [submitted] at member

/-- A call takes up whole pairs, and the READ of the pair that it splits. -/
theorem exists_split (chunks : List Chunk) (count : ℕ) :
    ∃ (done : List Chunk) (split : Option Chunk) (rest : List Chunk),
      chunks = done ++ split.toList ++ rest ∧
      submitted ((queued chunks).take count) =
        done.map (fun c => .pair c c) ++ split.toList.map .read ∧
      (queued chunks).drop count = split.toList.map .write ++ queued rest := by
  induction chunks generalizing count with
  | nil => exact ⟨[], none, [], rfl, by simp [queued, submitted], by simp [queued]⟩
  | cons c chunks ih =>
    match count with
    | 0 => exact ⟨[], none, c :: chunks, rfl, rfl, rfl⟩
    | 1 => exact ⟨[], some c, chunks, rfl, rfl, rfl⟩
    | count + 2 =>
      obtain ⟨done, split, rest, chunks_eq, taken, left⟩ := ih count
      refine ⟨c :: done, split, rest, by rw [chunks_eq]; rfl, ?_, left⟩
      calc submitted ((queued (c :: chunks)).take (count + 2))
          = .pair c c :: submitted ((queued chunks).take count) := rfl
        _ = _ := by rw [taken]; rfl

theorem write_mem_queued {chunks : List Chunk} {c : Chunk} :
    Sqe.write c ∈ queued chunks ↔ c ∈ chunks := by
  simp [queued]

theorem head?_queued_ne {chunks : List Chunk} {c : Chunk} :
    (queued chunks).head? ≠ some (.write c) := by
  cases chunks <;> simp [queued]

namespace Linked

variable {sq : List Sqe}

/-- What a call leaves behind, what it takes up, and that no WRITE is lost between the two. -/
structure Submission (sq : List Sqe) (taken : List Op) (left : List Sqe) : Prop where
  linked : Linked left
  matched : ∀ c next, .pair c next ∈ taken → next = c
  uncancelled : ∀ c, .cancelled c ∉ taken
  loose : ∀ c, .write c ∈ taken → sq.head? = some (.write c)
  pending : ∀ c, .write c ∈ sq → .write c ∈ left ∨ .pair c c ∈ taken ∨ .write c ∈ taken
  split : ∀ c, left.head? = some (.write c) → sq.head? = some (.write c) ∨ .read c ∈ taken

theorem submission_queued (chunks : List Chunk) (count : ℕ) :
    Submission (queued chunks) (submitted ((queued chunks).take count))
      ((queued chunks).drop count) := by
  obtain ⟨done, split, rest, chunks_eq, taken, left⟩ := exists_split chunks count
  rw [taken, left]
  refine ⟨⟨split, rest, rfl⟩, ?_, ?_, ?_, ?_, ?_⟩
  · intro c next member
    obtain ⟨other, _, same⟩ : ∃ other ∈ done, Op.pair other other = .pair c next := by
      simpa using member
    cases same
    rfl
  · simp
  · intro c member
    simp at member
  · intro c member
    rw [write_mem_queued, chunks_eq, List.mem_append, List.mem_append] at member
    rcases member with (member | member) | member
    · exact .inr (.inl (List.mem_append_left _ (List.mem_map_of_mem member)))
    · exact .inl (List.mem_append_left _ (List.mem_map_of_mem member))
    · exact .inl (List.mem_append_right _ (write_mem_queued.mpr member))
  · intro c first
    cases split with
    | none => exact absurd first head?_queued_ne
    | some split =>
      obtain rfl : split = c := by simpa using first
      exact .inr (by simp)

theorem submission (linked : Linked sq) (count : ℕ) :
    Submission sq (submitted (sq.take count)) (sq.drop count) := by
  obtain ⟨loose, chunks, rfl⟩ := linked
  cases loose with
  | none => exact submission_queued chunks count
  | some w =>
    cases count with
    | zero => exact ⟨⟨some w, chunks, rfl⟩, by simp [submitted], by simp [submitted],
        by simp [submitted], fun c member => .inl member, fun c first => .inl first⟩
    | succ count =>
      have rest := submission_queued chunks count
      constructor
      · exact rest.linked
      · intro c next member
        rcases List.mem_cons.mp member with absurd | member
        · cases absurd
        · exact rest.matched c next member
      · intro c member
        rcases List.mem_cons.mp member with absurd | member
        · cases absurd
        · exact rest.uncancelled c member
      · intro c member
        rcases List.mem_cons.mp member with same | member
        · cases same
          rfl
        · exact absurd (rest.loose c member) head?_queued_ne
      · intro c member
        rcases List.mem_cons.mp member with same | member
        · cases same
          exact .inr (.inr (List.mem_cons_self ..))
        · rcases rest.pending c member with left | pair | write
          · exact .inl left
          · exact .inr (.inl (List.mem_cons_of_mem _ pair))
          · exact .inr (.inr (List.mem_cons_of_mem _ write))
      · intro c first
        rcases rest.split c first with absurd' | read
        · exact absurd absurd' head?_queued_ne
        · exact .inr (List.mem_cons_of_mem _ read)

end Linked

namespace State

variable {src : Source} {s : State}

/-- The chunk of the slot in this batch. -/
def Live (s : State) (c : Chunk) : Prop := s.batch[c.slot]? = some c

theorem lens_of_live {c : Chunk} (live : s.Live c) : s.lens c.slot = c.len := by
  rw [lens, live]
  rfl

/-- A completion is bad, or is going to be. -/
def Spoiled (s : State) : Prop :=
  s.shortIo = true ∨ (∃ cqe ∈ s.cq, s.Bad cqe) ∨ ∃ c, .cancelled c ∈ s.ops

/-- The WRITE of the chunk is still to come. -/
def Pending (s : State) (c : Chunk) : Prop :=
  .write c ∈ s.sq ∨ .pair c c ∈ s.ops ∨ .write c ∈ s.ops

/-- The WRITE of the chunk does not wait for its READ. -/
def Unlinked (s : State) (c : Chunk) : Prop :=
  .write c ∈ s.ops ∨ s.sq.head? = some (.write c)

/-- The buffer of the slot holds the chunk. -/
def Ready (src : Source) (s : State) (c : Chunk) : Prop :=
  ∀ i < c.len, src.bytes[c.off + i]? = some (s.bufs c.slot i)

/-- What has been written is right, and the rest of what has been read is still to be written. -/
structure Fine (src : Source) (s : State) : Prop where
  honest : ∀ i b, s.dst i = some b → src.bytes[i]? = some b
  covered : ∀ i < s.off, (s.dst i).isSome ∨ ∃ c, s.Pending c ∧ c.off ≤ i ∧ i < c.off + c.len
  ready : ∀ c, s.Unlinked c → .read c ∈ s.ops ∨ s.Ready src c

theorem Fine.copied (fine : s.Fine src) (done : ∀ c, ¬ s.Pending c)
    (all : src.bytes.length ≤ s.off) (i : ℕ) : s.dst i = src.bytes[i]? := by
  by_cases inside : i < s.off
  · rcases fine.covered i inside with written | ⟨c, pending, _⟩
    · obtain ⟨b, value⟩ := Option.isSome_iff_exists.mp written
      rw [value, fine.honest i b value]
    · exact absurd pending (done c)
  · rw [List.getElem?_eq_none (by omega)]
    apply Option.eq_none_iff_forall_ne_some.mpr
    intro b value
    have within := (List.getElem?_eq_some_iff.mp (fine.honest i b value)).1
    omega

/-! A completion. -/

/-- What follows a completed operation. -/
def follow (op : Op) (res : ℤ) : List Op :=
  match op with
  | .pair c next => [if res = c.len then .write next else .cancelled next]
  | .read _ | .write _ | .cancelled _ => []

section complete

variable (src s) (op : Op) (res : ℤ)

theorem complete_ops : (s.complete src op res).ops = s.ops.erase op ++ follow op res := by
  cases op <;> simp [complete, follow, drop, load, store, post, spawn]

@[simp] theorem complete_cq :
    (s.complete src op res).cq = s.cq ++ [⟨op.chunk.slot, res⟩] := by
  cases op <;> rfl

@[simp] theorem complete_sq : (s.complete src op res).sq = s.sq := by cases op <;> rfl

@[simp] theorem complete_off : (s.complete src op res).off = s.off := by cases op <;> rfl

@[simp] theorem complete_batch : (s.complete src op res).batch = s.batch := by cases op <;> rfl

@[simp] theorem complete_need : (s.complete src op res).need = s.need := by cases op <;> rfl

@[simp] theorem complete_phase : (s.complete src op res).phase = s.phase := by cases op <;> rfl

@[simp] theorem complete_shortIo : (s.complete src op res).shortIo = s.shortIo := by
  cases op <;> rfl

end complete

variable {op : Op} {res : ℤ}

theorem sum_owed_complete (member : op ∈ s.ops) :
    ((s.complete src op res).ops.map Op.owed).sum + 1 = (s.ops.map Op.owed).sum := by
  have erased := List.sum_map_erase Op.owed member
  rw [complete_ops, List.map_append, List.sum_append, ← erased]
  cases op with
  | pair c next =>
    by_cases full : res = c.len
    · simp [follow, full, Op.owed]
      omega
    · simp [follow, full, Op.owed]
      omega
  | read c =>
    simp [follow, Op.owed]
    omega
  | write c =>
    simp [follow, Op.owed]
    omega
  | cancelled c =>
    simp [follow, Op.owed]
    omega

theorem bad_complete {cqe : Cqe} : (s.complete src op res).Bad cqe ↔ s.Bad cqe := by
  rw [Bad, Bad, lens, lens, complete_batch]

/-- A result that is not the length of the chunk spoils the batch. -/
theorem spoiled_of_ne (live : s.Live op.chunk) (short : res ≠ op.chunk.len) :
    (s.complete src op res).Spoiled := by
  refine .inr (.inl ⟨⟨op.chunk.slot, res⟩, by simp, ?_⟩)
  rw [bad_complete, Bad, lens_of_live live]
  exact short

theorem Spoiled.complete (spoiled : s.Spoiled) (live : s.Live op.chunk)
    (possible : possible src op res) : (s.complete src op res).Spoiled := by
  rcases spoiled with short | ⟨cqe, member, bad⟩ | ⟨c, member⟩
  · exact .inl (by rw [complete_shortIo, short])
  · exact .inr (.inl ⟨cqe, by simp [member], bad_complete.mpr bad⟩)
  · by_cases same : op = .cancelled c
    · subst same
      apply spoiled_of_ne live
      have : res = -125 := possible
      omega
    · refine .inr (.inr ⟨c, ?_⟩)
      rw [complete_ops]
      exact List.mem_append_left _ ((List.mem_erase_of_ne (Ne.symm same)).mpr member)

/-! A READ that fills its buffer. -/

theorem Live.eq {c d : Chunk} (first : s.Live c) (second : s.Live d) (same : c.slot = d.slot) :
    c = d := by
  rw [Live, same] at first
  exact Option.some.inj (first.symm.trans second)

/-- As much as a READ of the chunk may give. -/
def Within (src : Source) (c : Chunk) : Prop := ∀ i < c.len, c.off + i < src.bytes.length

theorem within_of_possible {c : Chunk}
    (possible : (c.len : ℤ) ≤ 0 ∨ (c.len : ℤ) ≤ c.len ∧ c.off + (c.len : ℤ) ≤ src.bytes.length) :
    Within src c := by
  intro i inside
  omega

theorem ready_load_self {c : Chunk} (within : Within src c) :
    (s.load src c c.len).Ready src c := by
  intro i inside
  have position := within i inside
  simp only [load, Function.update_self, if_pos inside]
  rw [List.getElem?_eq_getElem position, List.getD_eq_getElem _ _ position]

theorem Ready.load {c d : Chunk} (ready : s.Ready src d) (first : s.Live c) (second : s.Live d)
    (within : Within src c) : (s.load src c c.len).Ready src d := by
  by_cases same : d = c
  · subst same
    exact ready_load_self within
  · intro i inside
    have apart : d.slot ≠ c.slot := fun slot => same (second.eq first slot)
    simp only [State.load, Function.update_of_ne apart]
    exact ready i inside

/-- Every queued or submitted entry is about a chunk of this batch. -/
structure Batched (s : State) : Prop where
  queued : ∀ e ∈ s.sq, s.Live e.chunk
  taken : ∀ op ∈ s.ops, s.Live op.chunk
  matched : ∀ c next, .pair c next ∈ s.ops → next = c

theorem Unlinked.live (batched : s.Batched) {c : Chunk} (unlinked : s.Unlinked c) : s.Live c := by
  rcases unlinked with taken | first
  · exact batched.taken _ taken
  · exact batched.queued _ (List.mem_of_mem_head? first)

/-- A linked READ has filled the buffer of its WRITE. -/
theorem Fine.pair (fine : s.Fine src) (batched : s.Batched) {c : Chunk}
    (member : .pair c c ∈ s.ops) (within : Within src c) :
    (s.complete src (.pair c c) c.len).Fine src := by
  have live : s.Live c := batched.taken _ member
  have ops : (s.complete src (.pair c c) c.len).ops = s.ops.erase (.pair c c) ++ [.write c] := by
    rw [complete_ops, follow, if_pos rfl]
  constructor
  · exact fine.honest
  · intro i inside
    rcases fine.covered i inside with written | ⟨d, pending, range⟩
    · exact .inl written
    · refine .inr ⟨d, ?_, range⟩
      rw [Pending, ops]
      rcases pending with queued | pair | write
      · exact .inl queued
      · by_cases same : d = c
        · subst same
          exact .inr (.inr (by simp))
        · have other : Op.pair d d ≠ .pair c c := by simpa using same
          exact .inr (.inl (List.mem_append_left _ ((List.mem_erase_of_ne other).mpr pair)))
      · have other : Op.write d ≠ .pair c c := by simp
        exact .inr (.inr (List.mem_append_left _ ((List.mem_erase_of_ne other).mpr write)))
  · intro d unlinked
    by_cases same : d = c
    · subst same
      exact .inr (ready_load_self within)
    · have before : s.Unlinked d := by
        rcases unlinked with write | first
        · rw [ops, List.mem_append] at write
          rcases write with write | new
          · exact .inl (List.mem_of_mem_erase write)
          · simp [same] at new
        · exact .inr first
      rcases fine.ready d before with read | ready
      · refine .inl ?_
        have other : Op.read d ≠ .pair c c := by simp
        rw [ops]
        exact List.mem_append_left _ ((List.mem_erase_of_ne other).mpr read)
      · exact .inr (ready.load live (before.live batched) within)

/-- A READ that a call has split from its WRITE has filled the buffer. -/
theorem Fine.read (fine : s.Fine src) (batched : s.Batched) {c : Chunk}
    (member : .read c ∈ s.ops) (within : Within src c) :
    (s.complete src (.read c) c.len).Fine src := by
  have live : s.Live c := batched.taken _ member
  have ops : (s.complete src (.read c) c.len).ops = s.ops.erase (.read c) := by
    rw [complete_ops, follow, List.append_nil]
  constructor
  · exact fine.honest
  · intro i inside
    rcases fine.covered i inside with written | ⟨d, pending, range⟩
    · exact .inl written
    · refine .inr ⟨d, ?_, range⟩
      rw [Pending, ops]
      rcases pending with queued | pair | write
      · exact .inl queued
      · exact .inr (.inl ((List.mem_erase_of_ne (by simp)).mpr pair))
      · exact .inr (.inr ((List.mem_erase_of_ne (by simp)).mpr write))
  · intro d unlinked
    have before : s.Unlinked d := by
      rcases unlinked with write | first
      · rw [ops] at write
        exact .inl (List.mem_of_mem_erase write)
      · exact .inr first
    by_cases same : d = c
    · subst same
      exact .inr (ready_load_self within)
    · rcases fine.ready d before with read | ready
      · rw [ops]
        have other : Op.read d ≠ .read c := by simpa using same
        exact .inl ((List.mem_erase_of_ne other).mpr read)
      · exact .inr (ready.load live (before.live batched) within)

/-- A WRITE whose READ is over has put the whole buffer into the destination. -/
theorem Fine.write (fine : s.Fine src) {c : Chunk} (member : .write c ∈ s.ops)
    (alone : .read c ∉ s.ops) : (s.complete src (.write c) c.len).Fine src := by
  have ready : s.Ready src c := (fine.ready c (.inl member)).resolve_left alone
  have ops : (s.complete src (.write c) c.len).ops = s.ops.erase (.write c) := by
    rw [complete_ops, follow, List.append_nil]
  have dst (i : ℕ) : (s.complete src (.write c) c.len).dst i =
      if c.off ≤ i ∧ i < c.off + c.len then some (s.bufs c.slot (i - c.off)) else s.dst i := rfl
  constructor
  · intro i b written
    rw [dst] at written
    split at written
    · rename_i range
      have value := ready (i - c.off) (by omega)
      rw [Nat.add_sub_cancel' range.1] at value
      rw [value, written]
    · exact fine.honest i b written
  · intro i inside
    by_cases range : c.off ≤ i ∧ i < c.off + c.len
    · refine .inl ?_
      rw [dst, if_pos range]
      rfl
    · rw [dst, if_neg range]
      rcases fine.covered i inside with written | ⟨d, pending, within⟩
      · exact .inl written
      · refine .inr ⟨d, ?_, within⟩
        rw [Pending, ops]
        rcases pending with queued | pair | write
        · exact .inl queued
        · exact .inr (.inl ((List.mem_erase_of_ne (by simp)).mpr pair))
        · have other : Op.write d ≠ .write c := by
            intro same
            cases same
            exact range within
          exact .inr (.inr ((List.mem_erase_of_ne other).mpr write))
  · intro d unlinked
    have before : s.Unlinked d := by
      rcases unlinked with write | first
      · rw [ops] at write
        exact .inl (List.mem_of_mem_erase write)
      · exact .inr first
    rw [ops]
    rcases fine.ready d before with read | ready
    · exact .inl ((List.mem_erase_of_ne (by simp)).mpr read)
    · exact .inr ready

/-- A completion keeps what is right, or spoils the batch. -/
theorem complete_sound (batched : s.Batched) (member : op ∈ s.ops)
    (possible : possible src op res) (split : ∀ c, op = .write c → .read c ∉ s.ops)
    (sound : s.Spoiled ∨ s.Fine src) :
    (s.complete src op res).Spoiled ∨ (s.complete src op res).Fine src := by
  have live := batched.taken op member
  rcases sound with spoiled | fine
  · exact .inl (spoiled.complete live possible)
  · by_cases full : res = op.chunk.len
    · subst full
      cases op with
      | pair c next =>
        obtain rfl := batched.matched c next member
        exact .inr (fine.pair batched member (within_of_possible possible))
      | read c => exact .inr (fine.read batched member (within_of_possible possible))
      | write c => exact .inr (fine.write member (split c rfl))
      | cancelled c =>
        have : ((Op.cancelled c).chunk.len : ℤ) = -125 := possible
        omega
    · exact .inl (spoiled_of_ne live full)

theorem Batched.complete (batched : s.Batched) (member : op ∈ s.ops) :
    (s.complete src op res).Batched := by
  have kept {c : Chunk} (live : s.Live c) : (s.complete src op res).Live c := by
    rw [Live, complete_batch]
    exact live
  have new {other : Op} (inside : other ∈ (s.complete src op res).ops) :
      other ∈ s.ops ∨ other ∈ follow op res := by
    rw [complete_ops, List.mem_append] at inside
    exact inside.imp_left List.mem_of_mem_erase
  constructor
  · intro e inside
    rw [complete_sq] at inside
    exact kept (batched.queued e inside)
  · intro other inside
    rcases new inside with old | later
    · exact kept (batched.taken other old)
    · cases op with
      | pair c next =>
        obtain rfl := batched.matched c next member
        have live : s.Live next := batched.taken _ member
        rw [follow, List.mem_singleton] at later
        subst later
        split <;> exact kept live
      | read c => simp [follow] at later
      | write c => simp [follow] at later
      | cancelled c => simp [follow] at later
  · intro c next inside
    rcases new inside with old | later
    · exact batched.matched c next old
    · cases op with
      | pair d other =>
        rw [follow, List.mem_singleton] at later
        split at later <;> cases later
      | read d => simp [follow] at later
      | write d => simp [follow] at later
      | cancelled d => simp [follow] at later

end State

end LinuxSys.Uring
