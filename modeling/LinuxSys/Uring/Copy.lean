import LinuxSys.Lib.Bytes
import LinuxSys.Lib.Machine

/-! # The copy engines of fwatch ch10

`copy_file_uring` reads and writes a file through an io_uring: a batch of up to eight linked pairs
is queued, submitted with one `io_uring_enter`, and waited for. The kernel may submit fewer entries
than it is offered, interrupt a wait, answer with an error, and complete what it has taken in any
order with any result. `copy_file_rw` is the plain loop of `read` and `write`.
-/

namespace LinuxSys.Uring

open Lib

inductive Impl where
  | cpp
  | rust
deriving DecidableEq, Repr

def kChunk : ℕ := 128 * 1024

def kPairs : ℕ := 8

/-- The entries of the submission queue. -/
def entries : ℕ := 64

/-- A regular file, and the size that `fstat` reports. -/
structure Source where
  bytes : Bytes
  size : ℕ

/-- The piece of the file that a slot of the batch copies. -/
structure Chunk where
  slot : ℕ
  off : ℕ
  len : ℕ
deriving DecidableEq, Repr

/-- An entry of the submission queue. A READ is linked to the entry after it. -/
inductive Sqe where
  | read (c : Chunk)
  | write (c : Chunk)
deriving DecidableEq, Repr

/-- What the kernel has taken: a READ with the WRITE that waits for it, a READ or a WRITE by itself,
or a WRITE whose READ came to nothing. -/
inductive Op where
  | pair (c : Chunk) (next : Chunk)
  | read (c : Chunk)
  | write (c : Chunk)
  | cancelled (c : Chunk)
deriving DecidableEq, Repr

/-- The completions that are still to come. -/
def Op.owed : Op → ℕ
  | .pair _ _ => 2
  | .read _ | .write _ | .cancelled _ => 1

/-- A completion. The `user_data` names the slot. -/
structure Cqe where
  slot : ℕ
  res : ℤ
deriving DecidableEq, Repr

/-- The operations of the entries that one call submits: a link ends with the call. -/
def submitted : List Sqe → List Op
  | .read c :: .write next :: rest => .pair c next :: submitted rest
  | .read c :: rest => .read c :: submitted rest
  | .write c :: rest => .write c :: submitted rest
  | [] => []

/-- Where the copy stands: opening the files, building a batch, before `io_uring_enter` with the
number of entries to submit, in its wait (`idle` if the call has submitted nothing), or taking
completions, of which the Rust program has so many in view. -/
inductive Phase where
  | opening
  | filling
  | entering (toSubmit : ℕ)
  | waiting (idle : Bool)
  | draining (view : Option ℕ)
  | returned (ok : Bool)
deriving DecidableEq, Repr

structure State where
  phase : Phase := .opening
  off : ℕ := 0
  batch : List Chunk := []
  need : ℕ := 0
  shortIo : Bool := false
  bufs : ℕ → ℕ → UInt8 := fun _ _ => 0
  /-- What has been written to the destination, which is empty at first. -/
  dst : ℕ → Option UInt8 := fun _ => none
  sq : List Sqe := []
  ops : List Op := []
  cq : List Cqe := []

/-- `enter` takes up so many entries and then waits for `need` completions; `test` is the condition
of the loop that takes them. -/
inductive Action where
  | opened
  | push
  | enter (count : ℕ)
  | fail
  | interrupt
  | wake
  | complete (op : Op) (res : ℤ)
  | test
  | take
  | again
deriving DecidableEq, Repr

namespace State

variable (impl : Impl) (src : Source)

/-- A READ puts so many bytes of the file into the buffer of its slot. -/
def load (s : State) (c : Chunk) (n : ℕ) : State :=
  { s with bufs := Function.update s.bufs c.slot fun i =>
      if i < n then src.bytes.getD (c.off + i) 0 else s.bufs c.slot i }

/-- A WRITE puts so many bytes of the buffer into the destination. -/
def store (s : State) (c : Chunk) (n : ℕ) : State :=
  { s with dst := fun i =>
      if c.off ≤ i ∧ i < c.off + n then some (s.bufs c.slot (i - c.off)) else s.dst i }

def post (s : State) (c : Chunk) (res : ℤ) : State := { s with cq := s.cq ++ [⟨c.slot, res⟩] }

def drop (s : State) (op : Op) : State := { s with ops := s.ops.erase op }

def spawn (s : State) (op : Op) : State := { s with ops := s.ops ++ [op] }

/-- A READ cannot give more than the file has, nor a WRITE take more than it is given. -/
def possible (op : Op) (res : ℤ) : Prop :=
  match op with
  | .pair c _ | .read c => res ≤ 0 ∨ res ≤ c.len ∧ c.off + res ≤ src.bytes.length
  | .write c => res ≤ c.len
  | .cancelled _ => res = -125

instance (op : Op) (res : ℤ) : Decidable (possible src op res) :=
  match op with
  | .pair c _ | .read c =>
    inferInstanceAs (Decidable (res ≤ 0 ∨ res ≤ c.len ∧ c.off + res ≤ src.bytes.length))
  | .write c => inferInstanceAs (Decidable (res ≤ c.len))
  | .cancelled _ => inferInstanceAs (Decidable (res = -125))

/-- The kernel completes an operation. A linked WRITE begins once its READ has filled the buffer. -/
def complete (s : State) (op : Op) (res : ℤ) : State :=
  match op with
  | .pair c next =>
    (((s.drop op).load src c res.toNat).post c res).spawn
      (if res = c.len then .write next else .cancelled next)
  | .read c => ((s.drop op).load src c res.toNat).post c res
  | .write c => ((s.drop op).store c res.toNat).post c res
  | .cancelled c => (s.drop op).post c res

/-- The READ of a chunk is queued with the WRITE that it is linked to. -/
def queue (s : State) (c : Chunk) : State :=
  { s with off := s.off + c.len, batch := s.batch ++ [c], sq := s.sq ++ [.read c, .write c] }

/-- The next piece of the file is queued, or the batch is complete. -/
def push (s : State) : State :=
  if s.batch.length < kPairs ∧ s.off < src.size then
    let c : Chunk := ⟨s.batch.length, s.off, min kChunk (src.size - s.off)⟩
    if s.sq.length + 2 ≤ entries then s.queue c
    else { s with phase := .returned false, sq := (s.sq ++ [Sqe.read c]).take entries }
  else if s.batch = [] then { s with phase := .returned true }
  else { s with phase := .entering s.sq.length, need := 2 * s.batch.length }

def lens (s : State) (slot : ℕ) : ℕ := (s.batch[slot]?.map Chunk.len).getD 0

/-- The operation failed, or did not do all that it was asked. -/
def Bad (s : State) (cqe : Cqe) : Prop := cqe.res ≠ s.lens cqe.slot

instance (s : State) (cqe : Cqe) : Decidable (s.Bad cqe) :=
  inferInstanceAs (Decidable (cqe.res ≠ s.lens cqe.slot))

/-- C++ remembers a bad completion. -/
def takeCpp (s : State) (cqe : Cqe) (rest : List Cqe) : State :=
  { s with cq := rest, need := s.need - 1, shortIo := s.shortIo || s.Bad cqe }

/-- Rust returns at a bad completion. -/
def takeRust (s : State) (view : ℕ) (cqe : Cqe) (rest : List Cqe) : State :=
  if s.Bad cqe then { s with cq := rest, phase := .returned false }
  else { s with cq := rest, need := s.need - 1, phase := .draining (some view) }

/-- All completions of the batch have been taken. -/
def finish (s : State) : State :=
  if s.shortIo then { s with phase := .returned false }
  else { s with phase := .filling, batch := [] }

def step (s : State) : Action → Option State
  | .opened => if s.phase = .opening then some { s with phase := .filling } else none
  | .push => if s.phase = .filling then some (s.push src) else none
  | .enter count =>
    match s.phase with
    | .entering n =>
      if count ≤ n ∧ count ≤ s.sq.length then
        some { s with
          sq := s.sq.drop count
          ops := s.ops ++ submitted (s.sq.take count)
          phase := if count < n then .draining none else .waiting (count = 0) }
      else none
    | _ => none
  | .fail =>
    match s.phase with
    | .opening | .entering _ | .waiting true => some { s with phase := .returned false }
    | _ => none
  | .interrupt =>
    -- a call that has submitted entries returns their number, not `EINTR`
    match s.phase with
    | .entering n =>
      some { s with phase := if impl = .cpp then .entering n else .returned false }
    | .waiting true =>
      some { s with phase := if impl = .cpp then .entering 0 else .returned false }
    | .waiting false => some { s with phase := .draining none }
    | _ => none
  | .wake =>
    match s.phase with
    | .waiting _ => if s.need ≤ s.cq.length then some { s with phase := .draining none } else none
    | _ => none
  | .complete op res =>
    if op ∈ s.ops ∧ possible src op res then some (s.complete src op res) else none
  | .test =>
    match s.phase with
    | .draining view =>
      if s.need = 0 then if view.getD 0 = 0 then some s.finish else none
      else if impl = .rust ∧ view = none then
        some { s with phase := .draining (some s.cq.length) }
      else none
    | _ => none
  | .take =>
    match s.phase, s.cq with
    | .draining none, cqe :: rest =>
      if impl = .cpp ∧ 0 < s.need then some (s.takeCpp cqe rest) else none
    | .draining (some (view + 1)), cqe :: rest => some (s.takeRust view cqe rest)
    | _, _ => none
  | .again =>
    match s.phase with
    | .draining view =>
      if 0 < s.need ∧ (if impl = .cpp then s.cq = [] else view = some 0) then
        some { s with phase := .entering (if impl = .cpp then 0 else s.sq.length) }
      else none
    | _ => none

end State

def copyUring (impl : Impl) (src : Source) : Machine State Action where
  init := {}
  step := State.step impl src

/-- Where the plain loop stands, with what it has read and not yet written. -/
inductive RwPhase where
  | reading
  | writing (pending : Bytes)
  | returned (ok : Bool)
deriving DecidableEq, Repr

structure RwState where
  phase : RwPhase := .reading
  pos : ℕ := 0
  dst : Bytes := []

inductive RwAction where
  | read (n : ℕ)
  | write (n : ℕ)
  | error
deriving DecidableEq, Repr

/-- A `read` gives nothing at the end of the file only. -/
def RwState.step (src : Source) (s : RwState) : RwAction → Option RwState
  | .read n =>
    match s.phase with
    | .reading =>
      if n ≤ kChunk ∧ s.pos + n ≤ src.bytes.length ∧ (n = 0 → s.pos = src.bytes.length) then
        if n = 0 then some { s with phase := .returned true }
        else some { s with
          phase := .writing ((src.bytes.drop s.pos).take n), pos := s.pos + n }
      else none
    | _ => none
  | .write n =>
    match s.phase with
    | .writing pending =>
      if n ≤ pending.length then
        some { s with
          dst := s.dst ++ pending.take n
          phase := if pending.drop n = [] then .reading else .writing (pending.drop n) }
      else none
    | _ => none
  | .error =>
    match s.phase with
    | .reading | .writing _ => some { s with phase := .returned false }
    | .returned _ => none

def copyRw (src : Source) : Machine RwState RwAction where
  init := {}
  step := RwState.step src

end LinuxSys.Uring
