import LinuxSys.Lib.Bytes
import LinuxSys.Lib.Machine

/-! # The write side of a connection of chatterd ch22

`queue` appends a frame to the connection's `outbuf` and calls `flush`; `flush` sends from the front
of `outbuf` until it is empty or the socket is full, then registers or clears the EPOLLOUT interest
if that has changed. A connection that is marked dead is still queued to until it is reaped. `sent`
and `queued` are history: the bytes that the kernel has taken and the frames of all calls.
-/

namespace LinuxSys.Chatterd.Outbuf

open Lib

/-- What `send` returns. -/
inductive Send where
  | sent (n : ℕ)
  | again
  | intr
  | error
deriving DecidableEq, Repr

structure EConn where
  outbuf : Bytes := []
  wantWrite : Bool := false
  dead : Bool := false
  /-- `flush` is in its loop. -/
  flushing : Bool := false
  /-- epoll has EPOLLOUT for the socket. -/
  registered : Bool := false
  sent : Bytes := []
  queued : List Bytes := []
deriving DecidableEq, Repr

/-- `mark` is what else kills the connection: EPOLLHUP or EPOLLERR, or the end of its input. -/
inductive Action where
  | queue (frame : Bytes)
  | flush
  | send (r : Send)
  | leave
  | mark
deriving DecidableEq, Repr

def Action.queued : Action → List Bytes
  | .queue frame => [frame]
  | _ => []

namespace EConn

/-- The end of `flush`: the interest follows the backlog. -/
def settle (c : EConn) : EConn :=
  let need := decide (c.outbuf ≠ [])
  if need ≠ c.wantWrite then { c with flushing := false, wantWrite := need, registered := need }
  else { c with flushing := false }

/-- A hard error ends `flush` at once. -/
def kill (c : EConn) : EConn := { c with dead := true, flushing := false }

def step (c : EConn) : Action → Option EConn
  | .queue frame =>
    if c.flushing then none
    else some { c with
      outbuf := c.outbuf ++ frame, queued := c.queued ++ [frame], flushing := true }
  | .flush => if c.flushing then none else some { c with flushing := true }
  | .send r =>
    if c.flushing ∧ c.outbuf ≠ [] then
      match r with
      | .sent n =>
        if n = 0 then some c.kill
        else if n ≤ c.outbuf.length then
          some { c with outbuf := c.outbuf.drop n, sent := c.sent ++ c.outbuf.take n }
        else none
      | .again => some c.settle
      | .intr => some c
      | .error => some c.kill
    else none
  | .leave => if c.flushing ∧ c.outbuf = [] then some c.settle else none
  | .mark => if c.flushing then none else some { c with dead := true }

/-- No byte is lost, and the interest is registered exactly while there is a backlog. -/
structure Right (c : EConn) : Prop where
  bytes : c.sent ++ c.outbuf = c.queued.flatten
  registered : c.registered = c.wantWrite
  interest : c.flushing = false → c.dead = false → (c.wantWrite = true ↔ c.outbuf ≠ [])

variable {c d : EConn}

theorem Right.settle (right : c.Right) : c.settle.Right := by
  rw [EConn.settle]
  split
  · exact ⟨right.bytes, rfl, fun _ _ => decide_eq_true_iff⟩
  · rename_i same
    refine ⟨right.bytes, right.registered, fun _ _ => ?_⟩
    rw [← not_not.mp same]
    exact decide_eq_true_iff

theorem Right.kill (right : c.Right) : c.kill.Right :=
  ⟨right.bytes, right.registered, fun _ alive => by cases alive⟩

theorem Right.step (right : c.Right) {a : Action} (taken : c.step a = some d) : d.Right := by
  cases a with
  | queue frame =>
    obtain ⟨_, step⟩ := Option.ite_none_left_eq_some.mp taken
    cases step
    refine ⟨?_, right.registered, nofun⟩
    rw [← List.append_assoc, right.bytes, List.flatten_append, List.flatten_singleton]
  | flush =>
    obtain ⟨_, step⟩ := Option.ite_none_left_eq_some.mp taken
    cases step
    exact ⟨right.bytes, right.registered, nofun⟩
  | send r =>
    obtain ⟨⟨flushing, _⟩, step⟩ := Option.ite_none_right_eq_some.mp taken
    cases r with
    | sent n =>
      simp only at step
      by_cases none : n = 0
      · rw [if_pos none] at step
        cases step
        exact right.kill
      · rw [if_neg none] at step
        obtain ⟨_, step⟩ := Option.ite_none_right_eq_some.mp step
        cases step
        refine ⟨?_, right.registered, fun idle => ?_⟩
        · rw [List.append_assoc, List.take_append_drop, right.bytes]
        · rw [flushing] at idle
          cases idle
    | again =>
      cases step
      exact right.settle
    | intr =>
      cases step
      exact right
    | error =>
      cases step
      exact right.kill
  | leave =>
    obtain ⟨_, step⟩ := Option.ite_none_right_eq_some.mp taken
    cases step
    exact right.settle
  | mark =>
    obtain ⟨_, step⟩ := Option.ite_none_left_eq_some.mp taken
    cases step
    exact ⟨right.bytes, right.registered, fun _ alive => by cases alive⟩

/-- A dead connection stays dead. -/
theorem dead_of_step {a : Action} (dead : c.dead = true) (taken : c.step a = some d) :
    d.dead = true := by
  have settled : c.settle.dead = true := by
    rw [EConn.settle]
    split <;> exact dead
  cases a with
  | queue frame | flush =>
    obtain ⟨-, step⟩ := Option.ite_none_left_eq_some.mp taken
    exact Option.some.inj step ▸ dead
  | send r =>
    obtain ⟨-, step⟩ := Option.ite_none_right_eq_some.mp taken
    cases r with
    | sent n =>
      simp only at step
      split_ifs at step
      · exact Option.some.inj step ▸ rfl
      · exact Option.some.inj step ▸ dead
    | again => exact Option.some.inj step ▸ settled
    | intr => exact Option.some.inj step ▸ dead
    | error => exact Option.some.inj step ▸ rfl
  | leave =>
    obtain ⟨-, step⟩ := Option.ite_none_right_eq_some.mp taken
    exact Option.some.inj step ▸ settled
  | mark =>
    obtain ⟨-, step⟩ := Option.ite_none_left_eq_some.mp taken
    exact Option.some.inj step ▸ rfl

/-- Only `queue` queues. -/
theorem queued_of_step {a : Action} (taken : c.step a = some d) :
    d.queued = c.queued ++ a.queued := by
  have settled : c.settle.queued = c.queued := by
    rw [EConn.settle]
    split <;> rfl
  cases a with
  | queue frame =>
    obtain ⟨-, step⟩ := Option.ite_none_left_eq_some.mp taken
    exact Option.some.inj step ▸ rfl
  | flush | mark =>
    obtain ⟨-, step⟩ := Option.ite_none_left_eq_some.mp taken
    exact Option.some.inj step ▸ (List.append_nil _).symm
  | send r =>
    refine Eq.trans ?_ (List.append_nil c.queued).symm
    obtain ⟨-, step⟩ := Option.ite_none_right_eq_some.mp taken
    cases r with
    | sent n =>
      simp only at step
      split_ifs at step
      · exact Option.some.inj step ▸ rfl
      · exact Option.some.inj step ▸ rfl
    | again => exact Option.some.inj step ▸ settled
    | intr => exact Option.some.inj step ▸ rfl
    | error => exact Option.some.inj step ▸ rfl
  | leave =>
    refine Eq.trans ?_ (List.append_nil c.queued).symm
    obtain ⟨-, step⟩ := Option.ite_none_right_eq_some.mp taken
    exact Option.some.inj step ▸ settled

end EConn

def outbuf : Machine EConn Action where
  init := {}
  step := EConn.step

end LinuxSys.Chatterd.Outbuf
