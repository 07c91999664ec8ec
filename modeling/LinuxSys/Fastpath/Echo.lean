import LinuxSys.Language
import LinuxSys.Lib.Bytes
import LinuxSys.Lib.Machine

/-! # The echo loops of fastpath

A connection of ch40 is served by one loop: read a frame of 64 bytes, write it back. The blocking
and the naive servers read and write a blocking socket, the busy-poll server spins on a non-blocking
one. In C++ and Rust `write_all` gives up on every error but EINTR, and the loop goes on with the
next frame. Go's `net.Conn` retries by itself, and its loop ends at an error; its busy-poll server
retries EAGAIN too.
-/

namespace LinuxSys.Fastpath

open Lib

def kFrameSize : ℕ := 64

inductive Server where
  | blocking
  | busyPoll
  | naive
deriving DecidableEq, Repr

/-- What `read` or `recv` returns; no bytes is the end of the stream. -/
inductive Got where
  | data (bytes : Bytes)
  | again
  | intr
  | error
deriving DecidableEq, Repr

/-- What `write` returns. -/
inductive Put where
  | count (n : ℕ)
  | again
  | intr
  | pipe
  | error
deriving DecidableEq, Repr

/-- Where the loop stands: with the part of a frame it has read, or the part it has yet to write. -/
inductive Phase where
  | reading (frame : Bytes)
  | writing (left : Bytes)
  | closed
deriving DecidableEq, Repr

structure State where
  stop : Bool := false
  phase : Phase := .reading []
  /-- The bytes read from the client and written back to it. -/
  input : Bytes := []
  output : Bytes := []
  /-- History: the rest of some frame was dropped. -/
  cut : Bool := false
deriving DecidableEq, Repr

inductive Action where
  | signal
  | read (got : Got)
  | write (put : Put)
deriving DecidableEq, Repr

/-- A read that returned no bytes and is made again: in Go's `io.ReadFull` the poller waits. -/
def retriesRead (lang : Language) (server : Server) (stop : Bool) : Got → Bool
  | .data _ | .error => false
  | .again => if server = .busyPoll then !stop else lang = .go
  | .intr => lang = .go

/-- A write that took nothing and is made again. -/
def retriesWrite (lang : Language) : Put → Bool
  | .intr => true
  | .again => lang = .go
  | _ => false

/-- After a write that failed: C++ dies of SIGPIPE, Go's `conn.Write` reports the error, the other
loops read the next frame. -/
def afterFailure (lang : Language) (server : Server) (put : Put) : Phase :=
  if lang = .cpp ∧ put = .pipe then .closed
  else if lang = .go ∧ server ≠ .busyPoll then .closed
  else .reading []

def State.step (lang : Language) (server : Server) (s : State) : Action → Option State
  | .signal => some { s with stop := true }
  | .read got =>
    match s.phase with
    | .reading frame =>
      match got with
      | .data bytes =>
        if bytes = [] then some { s with phase := .closed }
        else if frame.length + bytes.length < kFrameSize then
          some { s with phase := .reading (frame ++ bytes), input := s.input ++ bytes }
        else if frame.length + bytes.length = kFrameSize then
          some { s with phase := .writing (frame ++ bytes), input := s.input ++ bytes }
        else none
      | got =>
        if retriesRead lang server s.stop got then some s else some { s with phase := .closed }
    | _ => none
  | .write put =>
    match s.phase with
    | .writing left =>
      match put with
      | .count n =>
        if n < left.length then
          some { s with phase := .writing (left.drop n), output := s.output ++ left.take n }
        else if n = left.length then
          some { s with phase := .reading [], output := s.output ++ left }
        else none
      | put =>
        if retriesWrite lang put then some s
        else some { s with phase := afterFailure lang server put, cut := true }
    | _ => none

/-- A connection, whatever its calls return. -/
def echo (lang : Language) (server : Server) : Machine State Action where
  init := {}
  step := State.step lang server

/-- Once the rest of a frame was dropped, no write takes bytes. -/
def near (s : State) : Action → Prop
  | .write (.count n) => s.cut = true → n = 0
  | _ => True

instance (s : State) : (a : Action) → Decidable (near s a)
  | .write (.count n) => inferInstanceAs (Decidable (s.cut = true → n = 0))
  | .write .again | .write .intr | .write .pipe | .write .error => isTrue trivial
  | .signal | .read _ => isTrue trivial

/-- What the loop has read but not yet written back. -/
def Phase.pending : Phase → Bytes
  | .reading frame => frame
  | .writing left => left
  | .closed => []

/-- Until a frame is cut, the client's bytes are those written back and those pending. -/
structure Inv (s : State) : Prop where
  echo : s.output <+: s.input
  whole : s.cut = false → s.phase ≠ .closed → s.input = s.output ++ s.phase.pending

variable {lang : Language} {server : Server} {s t : State}

theorem Inv.keeps {a : Action} (inv : Inv s) (near : near s a)
    (taken : s.step lang server a = some t) : Inv t := by
  cases a with
  | signal =>
    cases taken
    exact ⟨inv.echo, inv.whole⟩
  | read got =>
    simp only [State.step] at taken
    split at taken
    · next frame here =>
      have whole := inv.whole
      rw [here] at whole
      cases got with
      | data bytes =>
        simp only at taken
        split_ifs at taken with empty short full
        · cases taken
          exact ⟨inv.echo, fun _ no => absurd rfl no⟩
        · cases taken
          refine ⟨inv.echo.trans (List.prefix_append _ _), fun uncut _ => ?_⟩
          simp only [whole uncut (by simp), Phase.pending, List.append_assoc]
        · cases taken
          refine ⟨inv.echo.trans (List.prefix_append _ _), fun uncut _ => ?_⟩
          simp only [whole uncut (by simp), Phase.pending, List.append_assoc]
      | _ =>
        simp only at taken
        split_ifs at taken with again
        · cases taken
          exact inv
        · cases taken
          exact ⟨inv.echo, fun _ no => absurd rfl no⟩
    · cases taken
  | write put =>
    simp only [State.step] at taken
    split at taken
    · next left here =>
      have whole := inv.whole
      rw [here] at whole
      cases put with
      | count n =>
        have kept : n ≤ left.length → s.output ++ left.take n <+: s.input := by
          intro _
          cases cut : s.cut with
          | false =>
            rw [whole cut (by simp)]
            exact (List.prefix_append_right_inj _).mpr (List.take_prefix n left)
          | true =>
            rw [near cut, List.take_zero, List.append_nil]
            exact inv.echo
        simp only at taken
        split_ifs at taken with short full
        · cases taken
          refine ⟨kept short.le, fun uncut _ => ?_⟩
          simp only [whole uncut (by simp), Phase.pending, List.append_assoc,
            List.take_append_drop]
        · cases taken
          have all := kept full.le
          rw [full, List.take_length] at all
          refine ⟨all, fun uncut _ => ?_⟩
          simp only [whole uncut (by simp), Phase.pending, List.append_nil]
      | _ =>
        simp only at taken
        split_ifs at taken with again
        · cases taken
          exact inv
        · cases taken
          exact ⟨inv.echo, fun uncut => by cases uncut⟩
    · cases taken

/-- In every run in which no write takes bytes once the rest of a frame was dropped, the bytes
written back are at all times a prefix of those read. -/
theorem echo_prefix (lang : Language) (server : Server) {acts : List Action} {s : State}
    (met : (echo lang server).Meets near (echo lang server).init acts)
    (run : (echo lang server).run? acts = some s) : s.output <+: s.input := by
  have inv := @Machine.run?_keeps_of_meets _ _ (echo lang server) Inv near
    ⟨List.nil_prefix, fun _ _ => rfl⟩ (fun _ _ _ inv near taken => inv.keeps near taken) _ _ met run
  exact inv.echo

def frameOf (b : UInt8) : Bytes := List.replicate kFrameSize b

/-- A frame that is written back in two pieces. -/
def splitActs : List Action :=
  [.read (.data (frameOf 1)), .write (.count 10), .write .intr, .write (.count 54), .read .again]

theorem echo_prefix_split : ∃ s, (echo .cpp .busyPoll).run? splitActs = some s ∧
    s.output.length = 64 ∧ s.output <+: s.input := by
  have met : (echo .cpp .busyPoll).Meets near (echo .cpp .busyPoll).init splitActs := by decide
  obtain ⟨s, run, length⟩ : ∃ s, (echo .cpp .busyPoll).run? splitActs = some s ∧
    s.output.length = 64 := ⟨_, rfl, rfl⟩
  exact ⟨s, run, length, echo_prefix .cpp .busyPoll met run⟩

/-- The send buffer is full after ten bytes of the first frame and has room for the second. -/
def fullActs : List Action :=
  [.read (.data (frameOf 1)), .write (.count 10), .write .again, .read (.data (frameOf 2)),
    .write (.count 64)]

/-- The busy-poll servers in C++ and Rust drop the rest of a frame at EAGAIN and go on. -/
theorem not_echo_prefix :
    (∃ s, (echo .cpp .busyPoll).run? fullActs = some s ∧ ¬ s.output <+: s.input) ∧
      ∃ s, (echo .rust .busyPoll).run? fullActs = some s ∧ ¬ s.output <+: s.input :=
  ⟨⟨_, rfl, by decide⟩, ⟨_, rfl, by decide⟩⟩

end LinuxSys.Fastpath
