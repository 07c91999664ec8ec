import LinuxSys.Lib.Machine
import LinuxSys.Lib.Slots

/-! # The rings of fwatch ch10

`Ring` shares its four counters with the kernel, each stored by one side. The caller loads the other
side's counter before it claims a slot or takes a completion; the kernel takes published entries and
posts completions between any two of its steps. What was handed out, filled, taken and posted is
history.
-/

namespace LinuxSys.Uring.Ring

open Lib Slots

variable {Sqe Cqe : Type}

/-- What the setup left: the sizes, as powers of two, where the counters start, and what the memory
of the rings holds. -/
structure Setup (Sqe Cqe : Type) where
  sqBits : ℕ
  cqBits : ℕ
  sqSmall : sqBits < 32
  cqSmall : cqBits < 32
  sqStart : BitVec 32
  cqStart : BitVec 32
  zero : Sqe
  sqArray : ℕ → ℕ
  sqes : ℕ → Sqe
  cqes : ℕ → Cqe

namespace Setup

variable (c : Setup Sqe Cqe)

def sqMask : BitVec 32 := mask 32 c.sqBits

def cqMask : BitVec 32 := mask 32 c.cqBits

def entries : ℕ := 2 ^ c.sqBits

def cqEntries : ℕ := 2 ^ c.cqBits

end Setup

/-- The submission side. The first four are words of the ring and of the caller. -/
structure Submissions (Sqe : Type) where
  sqHead : BitVec 32
  sqTail : BitVec 32
  localTail : BitVec 32
  toSubmit : BitVec 32
  sqArray : ℕ → ℕ
  sqes : ℕ → Sqe
  /-- The slots handed out, what was written to them, how many were published and what the kernel
  has taken. -/
  handed : List ℕ
  filled : List Sqe
  published : ℕ
  consumed : List Sqe

/-- The completion side. -/
structure Completions (Cqe : Type) where
  cqHead : BitVec 32
  cqTail : BitVec 32
  cqes : ℕ → Cqe
  posted : List Cqe
  popped : List Cqe

/-- Where the caller stands: between two calls, in `try_get_sqe` with the head it has loaded, in
`pop` with what it has loaded, or with the completion it has read. -/
inductive Phase (Cqe : Type) where
  | idle
  | claiming (head : BitVec 32)
  | popping (head tail : BitVec 32)
  | storing (head : BitVec 32) (out : Cqe)

structure State (Sqe Cqe : Type) where
  phase : Phase Cqe
  sq : Submissions Sqe
  cq : Completions Cqe

/-- `fill` writes through the pointer of the so-many-th claim; `consume` and `post` are the
kernel's. -/
inductive Action (Sqe Cqe : Type) where
  | loadHead
  | claim
  | fill (i : ℕ) (sqe : Sqe)
  | submit
  | load
  | read
  | store
  | consume
  | post (cqe : Cqe)

/-- The caller fills what it has not published yet. -/
def Submissions.fill (sq : Submissions Sqe) (i : ℕ) (sqe : Sqe) : Option (Submissions Sqe) :=
  if sq.published ≤ i then
    sq.handed[i]?.map fun idx =>
      { sq with sqes := Function.update sq.sqes idx sqe, filled := sq.filled.set i sqe }
  else none

/-- The tail is stored and the count of new entries passed on. -/
def Submissions.submitAndWait (sq : Submissions Sqe) : Submissions Sqe :=
  { sq with sqTail := sq.localTail, toSubmit := 0, published := sq.handed.length }

namespace Setup

variable (c : Setup Sqe Cqe)

/-- The slot that `try_get_sqe` hands out, `none` for a null pointer. -/
def tryGetSqe (sq : Submissions Sqe) (head : BitVec 32) : Option ℕ :=
  if sq.localTail - head > c.sqMask then none else some (sq.localTail &&& c.sqMask).toNat

/-- What `pop` reads, `none` for false. -/
def pop (cq : Completions Cqe) (head tail : BitVec 32) : Option Cqe :=
  if head = tail then none else some (cq.cqes (head &&& c.cqMask).toNat)

/-- The slot is cleared and entered in the index array. -/
def claimed (sq : Submissions Sqe) (idx : ℕ) : Submissions Sqe :=
  { sq with
    sqes := Function.update sq.sqes idx c.zero
    sqArray := Function.update sq.sqArray idx idx
    localTail := sq.localTail + 1
    toSubmit := sq.toSubmit + 1
    handed := sq.handed ++ [idx]
    filled := sq.filled ++ [c.zero] }

/-- The kernel takes the next published entry. -/
def consume (sq : Submissions Sqe) : Option (Submissions Sqe) :=
  if sq.sqHead = sq.sqTail then none
  else some { sq with
    sqHead := sq.sqHead + 1
    consumed := sq.consumed ++ [sq.sqes (sq.sqArray (sq.sqHead &&& c.sqMask).toNat)] }

/-- The kernel posts where the completion ring has room. -/
def post (cq : Completions Cqe) (cqe : Cqe) : Option (Completions Cqe) :=
  if (cq.cqTail - cq.cqHead).toNat < c.cqEntries then
    some { cq with
      cqes := Function.update cq.cqes (cq.cqTail &&& c.cqMask).toNat cqe
      cqTail := cq.cqTail + 1
      posted := cq.posted ++ [cqe] }
  else none

def step (s : State Sqe Cqe) : Action Sqe Cqe → Option (State Sqe Cqe)
  | .loadHead =>
    match s.phase with
    | .idle => some { s with phase := .claiming s.sq.sqHead }
    | _ => none
  | .claim =>
    match s.phase with
    | .claiming head =>
      match c.tryGetSqe s.sq head with
      | none => some { s with phase := .idle }
      | some idx => some { s with phase := .idle, sq := c.claimed s.sq idx }
    | _ => none
  | .fill i sqe =>
    match s.phase with
    | .idle => (s.sq.fill i sqe).map fun sq => { s with sq := sq }
    | _ => none
  | .submit =>
    match s.phase with
    | .idle => some { s with sq := s.sq.submitAndWait }
    | _ => none
  | .load =>
    match s.phase with
    | .idle => some { s with phase := .popping s.cq.cqHead s.cq.cqTail }
    | _ => none
  | .read =>
    match s.phase with
    | .popping head tail =>
      match c.pop s.cq head tail with
      | none => some { s with phase := .idle }
      | some out => some { s with phase := .storing head out }
    | _ => none
  | .store =>
    match s.phase with
    | .storing head out => some { s with
        phase := .idle
        cq := { s.cq with cqHead := head + 1, popped := s.cq.popped ++ [out] } }
    | _ => none
  | .consume => (c.consume s.sq).map fun sq => { s with sq := sq }
  | .post cqe => (c.post s.cq cqe).map fun cq => { s with cq := cq }

def init : State Sqe Cqe where
  phase := .idle
  sq := ⟨c.sqStart, c.sqStart, c.sqStart, 0, c.sqArray, c.sqes, [], [], 0, []⟩
  cq := ⟨c.cqStart, c.cqStart, c.cqes, [], []⟩

def ring : Machine (State Sqe Cqe) (Action Sqe Cqe) where
  init := c.init
  step := c.step

end Setup

end LinuxSys.Uring.Ring
