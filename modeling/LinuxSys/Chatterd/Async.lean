import LinuxSys.Chatterd.Wire
import LinuxSys.Lib.Machine

/-! # One connection of chatterd ch27 in C++

The thread engine reads frames in a blocking loop. The async engine runs a coroutine for each
connection: it waits for a header, then for the body, parks in the reactor when `recv` has nothing,
and is resumed by a one-shot epoll event. Neither looks at the magic or the type of a frame. `got`
is history: the bytes received so far.
-/

namespace LinuxSys.Chatterd.Async

open Lib

def kHeaderLen : ℕ := 6

/-- What `recv` returns; no bytes is the end of the stream. -/
inductive Recv where
  | data (bytes : Bytes)
  | again
  | intr
  | error
deriving DecidableEq, Repr

/-- What a connection has been told of its client: the bytes in order, and whether they ended. -/
structure Stream where
  bytes : Bytes := []
  ended : Bool := false
deriving DecidableEq, Repr

/-- A socket that blocks has no data for the moment only where it gives up. -/
def Stream.add (blocking : Bool) (s : Stream) : Recv → Stream
  | .data bytes =>
    if bytes = [] then { s with ended := true } else { s with bytes := s.bytes ++ bytes }
  | .again => if blocking then { s with ended := true } else s
  | .intr => s
  | .error => { s with ended := true }

def streamOf (blocking : Bool) (results : List Recv) : Stream :=
  results.foldl (Stream.add blocking) {}

/-- The calls on `Server` that a connection makes. -/
inductive Call where
  | add (nick : Bytes)
  | broadcast (nick text : Bytes)
  | remove
deriving DecidableEq, Repr

/-- A connection's `nick` and `have_nick`, and its calls so far. -/
structure Client where
  nick : Bytes := []
  haveNick : Bool := false
  calls : List Call := []
deriving DecidableEq, Repr

namespace Client

/-- The first frame's body is the nick, every later one's a text. -/
def onFrame (c : Client) (body : Bytes) : Client :=
  if c.haveNick then { c with calls := c.calls ++ [.broadcast c.nick body] }
  else { nick := body, haveNick := true, calls := c.calls ++ [.add body] }

def leave (c : Client) : Client :=
  if c.haveNick then { c with calls := c.calls ++ [.remove] } else c

end Client

def bodyLen (buf : Bytes) : ℕ := be16 (buf.getD 4 0) (buf.getD 5 0)

/-- The whole frame that `read_frame_blocking` finds in its buffer. -/
def takeFrame? (buf : Bytes) : Option (Bytes × Bytes) :=
  if kHeaderLen ≤ buf.length ∧ kHeaderLen + bodyLen buf ≤ buf.length then
    some ((buf.drop kHeaderLen).take (bodyLen buf), buf.drop (kHeaderLen + bodyLen buf))
  else none

theorem length_of_takeFrame? {buf body rest : Bytes} (found : takeFrame? buf = some (body, rest)) :
    rest.length < buf.length := by
  rw [takeFrame?] at found
  split_ifs at found with whole
  cases found
  rw [List.length_drop]
  have positive : 0 < kHeaderLen := by decide
  omega

/-- What `serve_client_blocking` does between two calls of `recv`. -/
def serveFrames (c : Client) (buf : Bytes) : Client × Bytes :=
  match _found : takeFrame? buf with
  | some (body, rest) => serveFrames (c.onFrame body) rest
  | none => (c, buf)
termination_by buf.length
decreasing_by exact length_of_takeFrame? _found

/-- A client's thread. -/
structure Thread where
  client : Client := {}
  buf : Bytes := []
  returned : Bool := false
  got : Bytes := []
deriving DecidableEq, Repr

def Thread.step (t : Thread) (r : Recv) : Option Thread :=
  if t.returned then none
  else
    match r with
    | .data bytes =>
      if bytes = [] then some { t with client := t.client.leave, returned := true }
      else
        let (client, buf) := serveFrames t.client (t.buf ++ bytes)
        some { t with client, buf, got := t.got ++ bytes }
    | .intr => some t
    | .again | .error => some { t with client := t.client.leave, returned := true }

/-- `serve_client_blocking`. -/
def thread : Machine Thread Recv where
  init := {}
  step := Thread.step

/-- What the coroutine has yet to fill its buffer for. -/
inductive Point where
  | header
  | body (len : ℕ)
deriving DecidableEq, Repr

/-- What `connection` does between two calls of `fill`. -/
def advance (c : Client) (buf : Bytes) : Point → Client × Bytes × Point
  | .header =>
    if buf.length < kHeaderLen then (c, buf, .header) else advance c buf (.body (bodyLen buf))
  | .body len =>
    if _short : buf.length < kHeaderLen + len then (c, buf, .body len)
    else advance (c.onFrame ((buf.drop kHeaderLen).take len)) (buf.drop (kHeaderLen + len)) .header
termination_by point => (buf.length, if point = .header then 1 else 0)
decreasing_by
  · exact Prod.Lex.right _ (by simp)
  · apply Prod.Lex.left
    have positive : 0 < kHeaderLen := by decide
    rw [List.length_drop]
    omega

/-- Where the coroutine stands. -/
inductive Phase where
  | running (point : Point)
  | parked (point : Point)
  | finished
deriving DecidableEq, Repr

/-- A coroutine with what the reactor holds of its socket: it is in `armed_`, epoll still has its
one-shot interest, and its handle is in `waiters_`. -/
structure Coroutine where
  client : Client := {}
  buf : Bytes := []
  phase : Phase := .running .header
  armed : Bool := false
  interest : Bool := false
  waiter : Bool := false
  got : Bytes := []
deriving DecidableEq, Repr

inductive Action where
  | recv (r : Recv)
  | event
deriving DecidableEq, Repr

def Action.recv? : Action → Option Recv
  | .recv r => some r
  | .event => none

/-- The end of `connection`: `forget`, then `remove`. -/
def Coroutine.finish (s : Coroutine) : Coroutine :=
  { s with
    client := s.client.leave
    phase := .finished
    armed := false
    interest := if s.armed then false else s.interest
    waiter := false }

def Coroutine.step (s : Coroutine) : Action → Option Coroutine
  | .recv r =>
    match s.phase with
    | .running point =>
      match r with
      | .data bytes =>
        if bytes = [] then some s.finish
        else
          let (client, buf, point) := advance s.client (s.buf ++ bytes) point
          some { s with client, buf, phase := .running point, got := s.got ++ bytes }
      | .again =>
        some { s with phase := .parked point, waiter := true, armed := true, interest := true }
      | .intr => some s
      | .error => some s.finish
    | _ => none
  | .event =>
    if s.interest then
      match s.phase with
      | .parked point =>
        if s.waiter then
          some { s with phase := .running point, interest := false, waiter := false }
        else some { s with interest := false }
      | _ => some { s with interest := false }
    else none

/-- `connection` over the reactor. -/
def coroutine : Machine Coroutine Action where
  init := {}
  step := Coroutine.step

/-! The frames in a stream do not depend on how it arrives. -/

theorem serveFrames_of_some {c : Client} {buf body rest : Bytes}
    (found : takeFrame? buf = some (body, rest)) :
    serveFrames c buf = serveFrames (c.onFrame body) rest := by
  conv_lhs => rw [serveFrames]
  split
  · next other =>
    rw [found] at other
    cases other
    rfl
  · next other =>
    rw [found] at other
    cases other

theorem serveFrames_of_none {c : Client} {buf : Bytes} (found : takeFrame? buf = none) :
    serveFrames c buf = (c, buf) := by
  rw [serveFrames]
  split
  · next other =>
    rw [found] at other
    cases other
  · rfl

theorem serveFrames_nil : serveFrames {} [] = ({}, []) := serveFrames_of_none rfl

theorem bodyLen_append {buf : Bytes} (header : kHeaderLen ≤ buf.length) (later : Bytes) :
    bodyLen (buf ++ later) = bodyLen buf := by
  have six : kHeaderLen = 6 := rfl
  rw [bodyLen, bodyLen, List.getD_append _ _ _ _ (by omega), List.getD_append _ _ _ _ (by omega)]

theorem takeFrame?_append {buf body rest : Bytes} (found : takeFrame? buf = some (body, rest))
    (later : Bytes) : takeFrame? (buf ++ later) = some (body, rest ++ later) := by
  rw [takeFrame?] at found
  split_ifs at found with whole
  cases found
  have whole' : kHeaderLen ≤ (buf ++ later).length ∧
      kHeaderLen + bodyLen (buf ++ later) ≤ (buf ++ later).length := by
    rw [bodyLen_append whole.1, List.length_append]
    omega
  rw [takeFrame?, if_pos whole', bodyLen_append whole.1, List.drop_append_of_le_length whole.1,
    List.drop_append_of_le_length whole.2, List.take_append_of_le_length]
  rw [List.length_drop]
  omega

theorem serveFrames_append (c : Client) (buf later : Bytes) : serveFrames c (buf ++ later) =
    serveFrames (serveFrames c buf).1 ((serveFrames c buf).2 ++ later) := by
  induction c, buf using serveFrames.induct with
  | case1 c buf body rest found ih =>
    rw [serveFrames_of_some found, serveFrames_of_some (takeFrame?_append found later)]
    exact ih
  | case2 c buf found => rw [serveFrames_of_none found]

/-- The length that the coroutine waits for is that of the header in its buffer. -/
def Fits (buf : Bytes) : Point → Prop
  | .header => True
  | .body len => kHeaderLen ≤ buf.length ∧ len = bodyLen buf

theorem Fits.append {buf : Bytes} {point : Point} (fits : Fits buf point) (later : Bytes) :
    Fits (buf ++ later) point := by
  cases point with
  | header => trivial
  | body len =>
    obtain ⟨header, same⟩ := fits
    exact ⟨header.trans (by simp), by rw [bodyLen_append header]; exact same⟩

theorem advance_eq {c : Client} {buf : Bytes} {point : Point} (fits : Fits buf point) :
    ∃ next, advance c buf point = ((serveFrames c buf).1, (serveFrames c buf).2, next) ∧
      Fits (serveFrames c buf).2 next := by
  induction c, buf, point using advance.induct with
  | case1 c buf short =>
    have none : takeFrame? buf = none := if_neg fun whole => absurd whole.1 (not_le.mpr short)
    rw [serveFrames_of_none none, advance, if_pos short]
    exact ⟨.header, rfl, trivial⟩
  | case2 c buf long ih =>
    rw [advance, if_neg long]
    exact ih ⟨not_lt.mp long, rfl⟩
  | case3 c buf len short =>
    obtain ⟨header, rfl⟩ := fits
    have none : takeFrame? buf = none := if_neg fun whole => absurd whole.2 (not_le.mpr short)
    rw [serveFrames_of_none none, advance, dif_pos short]
    exact ⟨.body (bodyLen buf), rfl, header, rfl⟩
  | case4 c buf len long ih =>
    obtain ⟨header, rfl⟩ := fits
    have found : takeFrame? buf = some ((buf.drop kHeaderLen).take (bodyLen buf),
      buf.drop (kHeaderLen + bodyLen buf)) := if_pos ⟨header, not_lt.mp long⟩
    rw [serveFrames_of_some found, advance, dif_neg long]
    exact ih trivial

/-- A connection has handled the whole frames of its stream, and left when the stream ended. -/
def served (got : Bytes) (ended : Bool) : Client :=
  if ended then (serveFrames {} got).1.leave else (serveFrames {} got).1

structure Thread.Inv (t : Thread) : Prop where
  client : t.client = served t.got t.returned
  buf : t.buf = (serveFrames {} t.got).2

theorem Thread.Inv.leave {t : Thread} (inv : t.Inv) (more : t.returned = false) :
    ({ t with client := t.client.leave, returned := true } : Thread).Inv := by
  refine ⟨?_, inv.buf⟩
  rw [inv.client, more]
  rfl

theorem Thread.Inv.keeps {s t : Thread} {r : Recv} (inv : s.Inv) (taken : s.step r = some t) :
    t.Inv := by
  unfold Thread.step at taken
  split_ifs at taken with returned
  have more : s.returned = false := by simpa using returned
  cases r with
  | data bytes =>
    simp only at taken
    split_ifs at taken with empty
    · cases taken
      exact inv.leave more
    · cases taken
      have client := inv.client
      rw [more] at client
      refine ⟨?_, ?_⟩
      · rw [client, inv.buf, more]
        exact congrArg Prod.fst (serveFrames_append {} s.got bytes).symm
      · rw [client, inv.buf]
        exact congrArg Prod.snd (serveFrames_append {} s.got bytes).symm
  | intr =>
    cases taken
    exact inv
  | again =>
    cases taken
    exact inv.leave more
  | error =>
    cases taken
    exact inv.leave more

/-- What the result adds to the stream is what the thread's history gains. -/
theorem Thread.stream_step {s t : Thread} {r : Recv} (taken : s.step r = some t) :
    (⟨t.got, t.returned⟩ : Stream) = Stream.add true ⟨s.got, s.returned⟩ r := by
  unfold Thread.step at taken
  split_ifs at taken with returned
  have more : s.returned = false := by simpa using returned
  cases r with
  | data bytes =>
    simp only at taken
    split_ifs at taken with empty <;> cases taken <;> simp [Stream.add, empty, more]
  | intr =>
    cases taken
    rfl
  | again =>
    cases taken
    rfl
  | error =>
    cases taken
    rfl

theorem Thread.streamOf_eq {t : Thread} {results : List Recv}
    (run : thread.run? results = some t) : streamOf true results = ⟨t.got, t.returned⟩ := by
  have view := @Machine.runFrom?_view _ _ thread _ (fun t => (⟨t.got, t.returned⟩ : Stream))
    (Stream.add true) (fun _ _ _ => stream_step) _ _ _ run
  exact view.symm

/-- A coroutine that has not ended stands where the thread does; parked, it is in `waiters_` and
epoll has its interest, so the next readiness resumes it. -/
structure Coroutine.Inv (s : Coroutine) : Prop where
  client : s.client = served s.got (decide (s.phase = .finished))
  buf : s.phase ≠ .finished → s.buf = (serveFrames {} s.got).2
  running : ∀ point, s.phase = .running point → Fits s.buf point
  parked : ∀ point, s.phase = .parked point →
    Fits s.buf point ∧ s.waiter = true ∧ s.interest = true ∧ s.armed = true

theorem Coroutine.Inv.finish {s : Coroutine} {point : Point} (inv : s.Inv)
    (here : s.phase = .running point) : s.finish.Inv := by
  refine ⟨?_, by simp [Coroutine.finish], by simp [Coroutine.finish], by simp [Coroutine.finish]⟩
  have client := inv.client
  rw [here] at client
  simp [Coroutine.finish, client, served]

/-- What `advance` does with more bytes is what the thread does with them. -/
theorem Coroutine.Inv.data {s : Coroutine} {point : Point} (inv : s.Inv)
    (here : s.phase = .running point) (bytes : Bytes) :
    ∃ next, advance s.client (s.buf ++ bytes) point =
      ((serveFrames {} (s.got ++ bytes)).1, (serveFrames {} (s.got ++ bytes)).2, next) ∧
      Fits (serveFrames {} (s.got ++ bytes)).2 next := by
  have client : s.client = (serveFrames {} s.got).1 := by
    have client := inv.client
    rw [here] at client
    exact client
  have buf : s.buf = (serveFrames {} s.got).2 := inv.buf (by rw [here]; simp)
  obtain ⟨next, same, fits⟩ := advance_eq (c := s.client) ((inv.running point here).append bytes)
  rw [client, buf, ← serveFrames_append] at same fits
  rw [client, buf]
  exact ⟨next, same, fits⟩

theorem Coroutine.Inv.keeps {s t : Coroutine} {a : Action} (inv : s.Inv)
    (taken : s.step a = some t) : t.Inv := by
  cases a with
  | recv r =>
    unfold Coroutine.step at taken
    cases here : s.phase with
    | running point =>
      simp only [here] at taken
      cases r with
      | data bytes =>
        simp only at taken
        split_ifs at taken with empty
        · cases taken
          exact inv.finish here
        · obtain ⟨next, same, fits⟩ := inv.data here bytes
          cases taken
          simp only [same]
          refine ⟨rfl, fun _ => rfl, fun point at' => ?_, by simp⟩
          cases at'
          exact fits
      | again =>
        cases taken
        have client := inv.client
        rw [here] at client
        refine ⟨client, fun _ => inv.buf (by rw [here]; simp), by simp, fun point at' => ?_⟩
        cases at'
        exact ⟨inv.running point here, rfl, rfl, rfl⟩
      | intr =>
        cases taken
        exact inv
      | error =>
        cases taken
        exact inv.finish here
    | parked point =>
      simp only [here] at taken
      cases taken
    | finished =>
      simp only [here] at taken
      cases taken
  | event =>
    by_cases interest : s.interest = true
    swap
    · simp only [Coroutine.step, interest] at taken
      cases taken
    have client := inv.client
    cases here : s.phase with
    | running point =>
      simp only [Coroutine.step, interest, here, if_true] at taken
      cases taken
      rw [here] at client
      refine ⟨client, fun _ => inv.buf (by rw [here]; simp), fun point at' => ?_, by simp⟩
      cases at'
      exact inv.running point here
    | parked point =>
      obtain ⟨fits, waiter, -, -⟩ := inv.parked point here
      simp only [Coroutine.step, interest, here, waiter, if_true] at taken
      cases taken
      rw [here] at client
      refine ⟨client, fun _ => inv.buf (by rw [here]; simp), fun point at' => ?_, by simp⟩
      cases at'
      exact fits
    | finished =>
      simp only [Coroutine.step, interest, here, if_true] at taken
      cases taken
      rw [here] at client
      exact ⟨client, by simp, by simp, by simp⟩

theorem Coroutine.inv_of_run {s : Coroutine} {acts : List Action}
    (run : coroutine.run? acts = some s) : s.Inv := by
  have start : (coroutine.init).Inv := by
    refine ⟨?_, fun _ => ?_, ?_, by simp [coroutine]⟩
    · exact congrArg Prod.fst serveFrames_nil.symm
    · exact congrArg Prod.snd serveFrames_nil.symm
    · rintro point at'
      cases at'
      trivial
  exact @Machine.run?_keeps _ _ _ Coroutine.Inv start (fun _ _ _ => Coroutine.Inv.keeps) _ _ run

theorem Thread.inv_of_run {t : Thread} {results : List Recv}
    (run : thread.run? results = some t) : t.Inv := by
  have start : (thread.init).Inv :=
    ⟨congrArg Prod.fst serveFrames_nil.symm,
      congrArg Prod.snd serveFrames_nil.symm⟩
  exact @Machine.run?_keeps _ _ _ Thread.Inv start (fun _ _ _ => Thread.Inv.keeps) _ _ run

theorem Coroutine.stream_step {s t : Coroutine} {a : Action} (taken : s.step a = some t) :
    (⟨t.got, decide (t.phase = .finished)⟩ : Stream) =
      (a.recv?.toList).foldl (Stream.add false) ⟨s.got, decide (s.phase = .finished)⟩ := by
  unfold Coroutine.step at taken
  cases a with
  | recv r =>
    cases here : s.phase with
    | running point =>
      simp only [here] at taken
      cases r with
      | data bytes =>
        simp only at taken
        split_ifs at taken with empty <;> cases taken <;>
          simp [Stream.add, empty, Action.recv?, Coroutine.finish]
      | again =>
        cases taken
        simp [Action.recv?, Stream.add]
      | intr =>
        cases taken
        simp [Action.recv?, Stream.add, here]
      | error =>
        cases taken
        simp [Action.recv?, Stream.add, Coroutine.finish]
    | parked point =>
      simp only [here] at taken
      cases taken
    | finished =>
      simp only [here] at taken
      cases taken
  | event =>
    by_cases interest : s.interest = true
    swap
    · simp only [interest] at taken
      cases taken
    cases here : s.phase with
    | running point =>
      simp only [interest, here, if_true] at taken
      cases taken
      simp [Action.recv?]
    | parked point =>
      simp only [interest, here, if_true] at taken
      split_ifs at taken <;> cases taken <;> simp [Action.recv?]
    | finished =>
      simp only [interest, here, if_true] at taken
      cases taken
      simp [Action.recv?]

theorem Coroutine.streamOf_eq {s : Coroutine} {acts : List Action}
    (run : coroutine.run? acts = some s) :
    streamOf false (acts.filterMap Action.recv?) = ⟨s.got, decide (s.phase = .finished)⟩ := by
  have view := @Machine.runFrom?_view _ _ coroutine _
    (fun s => (⟨s.got, decide (s.phase = .finished)⟩ : Stream))
    (fun stream a => (a.recv?.toList).foldl (Stream.add false) stream)
    (fun _ _ _ => stream_step) _ _ _ run
  rw [view, streamOf, List.filterMap_eq_flatMap_toList, List.foldl_flatMap]
  rfl

/-- On one stream the two engines make the same calls, however each has been given it: its bytes
may be cut at other places, and with `EAGAIN` and `EINTR` in between. A coroutine that waits can be
resumed. -/
theorem engines_agree {acts : List Action} {results : List Recv} {s : Coroutine} {t : Thread}
    (async : coroutine.run? acts = some s) (threaded : thread.run? results = some t)
    (same : streamOf false (acts.filterMap Action.recv?) = streamOf true results) :
    s.client.calls = t.client.calls ∧ ∀ point, s.phase = .parked point →
      s.waiter = true ∧ s.interest = true ∧ ∃ next, coroutine.step s .event = some next ∧
        next.phase = .running point := by
  have inv := Coroutine.inv_of_run async
  refine ⟨?_, fun point here => ?_⟩
  · rw [Coroutine.streamOf_eq async, Thread.streamOf_eq threaded] at same
    have got : s.got = t.got := congrArg Stream.bytes same
    have ended : decide (s.phase = .finished) = t.returned := congrArg Stream.ended same
    rw [inv.client, (Thread.inv_of_run threaded).client, got, ended]
  · obtain ⟨-, waiter, interest, -⟩ := inv.parked point here
    refine ⟨waiter, interest, ?_⟩
    simp only [coroutine, Coroutine.step, interest, here, waiter, if_true]
    exact ⟨_, rfl, rfl⟩

/-- The coroutine gets the nick's frame in two parts, the thread at once; a text's header is cut off
by the end of the stream. -/
theorem engines_agree_cut : ∃ s t,
    coroutine.run? [.recv (.data [196, 39]), .recv .again, .event,
      .recv (.data [1, 1, 0, 1, 97, 196]), .recv .intr, .recv (.data [])] = some s ∧
    thread.run? [.data [196, 39, 1, 1, 0, 1, 97, 196], .data []] = some t ∧
    s.client.calls = t.client.calls := by
  obtain ⟨s, async⟩ : ∃ s, coroutine.run? [.recv (.data [196, 39]), .recv .again, .event,
      .recv (.data [1, 1, 0, 1, 97, 196]), .recv .intr, .recv (.data [])] = some s := ⟨_, rfl⟩
  obtain ⟨t, threaded⟩ : ∃ t,
      thread.run? [.data [196, 39, 1, 1, 0, 1, 97, 196], .data []] = some t := ⟨_, rfl⟩
  exact ⟨s, t, async, threaded, (engines_agree async threaded (by decide)).1⟩

end LinuxSys.Chatterd.Async
