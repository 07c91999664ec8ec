import LinuxSys.Chatterd.Async
import LinuxSys.Lib.Deframe
import LinuxSys.Lib.Utf8

/-! # The five readers of chatterd ch27

The Rust thread engine reads frames from a buffer as the C++ engines do; tokio and Go read a header
and then a body exactly. None of the five looks at the magic, the version or the type. A stream is
cut into frames by the length fields alone; the documented format says which of them may be obeyed.
-/

namespace LinuxSys.Chatterd.Async

open Lib

def kMagic0 : UInt8 := 0x43
def kMagic1 : UInt8 := 0x48
def kVersion : UInt8 := 0x01
def kTypeJoin : UInt8 := 1
def kTypeMsg : UInt8 := 2

/-- A whole frame of a stream: its six header bytes and its body. -/
structure Frame where
  header : Bytes
  body : Bytes
deriving DecidableEq, Repr

theorem bodyLen_take {buf : Bytes} {n : ℕ} (whole : kHeaderLen ≤ buf.length)
    (long : kHeaderLen ≤ n) : bodyLen (buf.take n) = bodyLen buf := by
  have header : kHeaderLen ≤ (buf.take n).length := by
    rw [List.length_take]
    exact le_min long whole
  rw [← bodyLen_append header (buf.drop n), List.take_append_drop]

/-- The stream is cut where the length fields say. -/
def cut : Deframer UInt8 Frame where
  look buf :=
    if kHeaderLen ≤ buf.length ∧ kHeaderLen + bodyLen buf ≤ buf.length then
      .frame ⟨buf.take kHeaderLen, (buf.drop kHeaderLen).take (bodyLen buf)⟩
        (kHeaderLen + bodyLen buf)
    else .more
  used_pos := by
    intro buf f n seen
    split_ifs at seen with whole
    cases seen
    exact Nat.add_pos_left (by decide) _
  used_le := by
    intro buf f n seen
    split_ifs at seen with whole
    cases seen
    exact whole.2
  frame_take := by
    intro buf f n seen
    split_ifs at seen with whole
    cases seen
    have length : (buf.take (kHeaderLen + bodyLen buf)).length = kHeaderLen + bodyLen buf :=
      List.length_take_of_le whole.2
    rw [bodyLen_take whole.1 (Nat.le_add_right _ _), length,
      if_pos ⟨Nat.le_add_right _ _, le_rfl⟩, List.take_take, min_eq_left (Nat.le_add_right _ _),
      List.drop_take, Nat.add_sub_cancel_left, List.take_take, min_self]
  frame_append := by
    intro buf f n later seen
    split_ifs at seen with whole
    cases seen
    have long := whole.2.trans (Nat.le_add_right _ later.length)
    rw [bodyLen_append whole.1, List.length_append, if_pos ⟨whole.1.trans (by omega), long⟩,
      List.take_append_of_le_length whole.1, List.drop_append_of_le_length whole.1,
      List.take_append_of_le_length]
    rw [List.length_drop]
    omega
  desync_append := by
    intro buf later seen
    split_ifs at seen

/-- The first loop of `serve_client` in Rust, between two reads. -/
def serveText (text : Bytes → Bytes) (c : Client) (buf : Bytes) : Client × Bytes :=
  match _found : takeFrame? buf with
  | some (body, rest) => serveText text (c.onFrame (text body)) rest
  | none => (c, buf)
termination_by buf.length
decreasing_by exact length_of_takeFrame? _found

/-- A client's thread in Rust; a read that times out only looks at the stop flag. -/
def Thread.stepRust (t : Thread) (r : Recv) : Option Thread :=
  if t.returned then none
  else
    match r with
    | .data bytes =>
      if bytes = [] then some { t with client := t.client.leave, returned := true }
      else
        let (client, buf) := serveText Utf8.lossy t.client (t.buf ++ bytes)
        some { t with client, buf, got := t.got ++ bytes }
    | .intr | .again => some t
    | .error => some { t with client := t.client.leave, returned := true }

def rustThread : Machine Thread Recv where
  init := {}
  step := Thread.stepRust

/-- What `read_exact` and `io.ReadFull` are to fill: the header, or a body of that length. -/
inductive Want where
  | header
  | body (len : ℕ)
deriving DecidableEq, Repr

/-- What `handle_conn` does between two reads; bytes that it has not asked for stay buffered. -/
def exact (text : Bytes → Bytes) (c : Client) (buf : Bytes) : Want → Client × Bytes × Want
  | .header =>
    if _short : buf.length < kHeaderLen then (c, buf, .header)
    else exact text c (buf.drop kHeaderLen) (.body (bodyLen buf))
  | .body len =>
    if buf.length < len then (c, buf, .body len)
    else exact text (c.onFrame (text (buf.take len))) (buf.drop len) .header
termination_by want => (buf.length, if want = .header then 0 else 1)
decreasing_by
  · apply Prod.Lex.left
    have six : kHeaderLen = 6 := rfl
    rw [List.length_drop]
    omega
  · rw [List.length_drop]
    cases len with
    | zero => exact Prod.Lex.right _ (by simp)
    | succ len =>
      apply Prod.Lex.left
      omega

/-- A connection whose reader fills a header and a body. -/
structure Conn where
  client : Client := {}
  buf : Bytes := []
  want : Want := .header
  returned : Bool := false
  got : Bytes := []
deriving DecidableEq, Repr

def Conn.step (text : Bytes → Bytes) (s : Conn) (r : Recv) : Option Conn :=
  if s.returned then none
  else
    match r with
    | .data bytes =>
      if bytes = [] then some { s with client := s.client.leave, returned := true }
      else
        let (client, buf, want) := exact text s.client (s.buf ++ bytes) s.want
        some { s with client, buf, want, got := s.got ++ bytes }
    | .intr | .again => some s
    | .error => some { s with client := s.client.leave, returned := true }

/-- `handle_conn` of tokio with its lossy text, `handleConn` of Go with the bytes. -/
def conn (text : Bytes → Bytes) : Machine Conn Recv where
  init := {}
  step := Conn.step text

/-! What the readers make of a stream. -/

theorem look_of_takeFrame? {buf body rest : Bytes} (found : takeFrame? buf = some (body, rest)) :
    ∃ n, cut.look buf = .frame ⟨buf.take kHeaderLen, body⟩ n ∧ buf.drop n = rest := by
  rw [takeFrame?] at found
  obtain ⟨whole, same⟩ := Option.ite_none_right_eq_some.mp found
  obtain ⟨rfl, rfl⟩ := Prod.mk.inj (Option.some.inj same)
  exact ⟨_, if_pos whole, rfl⟩

theorem stalled_of_takeFrame? {buf : Bytes} (none : takeFrame? buf = none) : cut.Stalled buf := by
  apply cut.stalled_of_more
  rw [takeFrame?] at none
  exact if_neg fun whole => by
    rw [if_pos whole] at none
    cases none

/-- A connection that has read the frames. -/
def onFrames (text : Bytes → Bytes) (c : Client) (frames : List Frame) : Client :=
  frames.foldl (fun c f => c.onFrame (text f.body)) c

theorem serveText_eq (text : Bytes → Bytes) (c : Client) (buf : Bytes) :
    serveText text c buf = (onFrames text c (cut.parse buf).1, (cut.parse buf).2) := by
  induction c, buf using serveText.induct text with
  | case1 c buf body rest found ih =>
    obtain ⟨n, seen, rfl⟩ := look_of_takeFrame? found
    rw [cut.parse_of_frame seen, serveText]
    split
    · rename_i other
      rw [found] at other
      cases other
      exact ih
    · rename_i other
      rw [found] at other
      cases other
  | case2 c buf found =>
    rw [cut.parse_of_stalled (stalled_of_takeFrame? found), serveText]
    split
    · rename_i other
      rw [found] at other
      cases other
    · rfl

theorem serveFrames_eq (c : Client) (buf : Bytes) :
    serveFrames c buf = (onFrames id c (cut.parse buf).1, (cut.parse buf).2) := by
  rw [← serveText_eq]
  induction c, buf using serveFrames.induct with
  | case1 c buf body rest found ih =>
    rw [serveFrames_of_some found, ih]
    conv_rhs => rw [serveText]
    split
    · rename_i other
      rw [found] at other
      cases other
      rfl
    · rename_i other
      rw [found] at other
      cases other
  | case2 c buf found =>
    rw [serveFrames_of_none found, serveText]
    split
    · rename_i other
      rw [found] at other
      cases other
    · rfl

/-- What a reader that fills a body has already taken of the bytes behind the last frame. -/
def Holds (rest buf : Bytes) : Want → Prop
  | .header => buf = rest
  | .body len => kHeaderLen ≤ rest.length ∧ len = bodyLen rest ∧ buf = rest.drop kHeaderLen

theorem Holds.append {rest buf : Bytes} {want : Want} (holds : Holds rest buf want)
    (later : Bytes) : Holds (rest ++ later) (buf ++ later) want := by
  cases want with
  | header => exact congrArg (· ++ later) holds
  | body len =>
    obtain ⟨header, rfl, rfl⟩ := holds
    exact ⟨header.trans (by simp), (bodyLen_append header later).symm,
      (List.drop_append_of_le_length header).symm⟩

theorem exact_eq (text : Bytes → Bytes) {c : Client} {rest buf : Bytes} {want : Want}
    (holds : Holds rest buf want) :
    ∃ buf' want', exact text c buf want = (onFrames text c (cut.parse rest).1, buf', want') ∧
      Holds (cut.parse rest).2 buf' want' := by
  induction c, buf, want using exact.induct text generalizing rest with
  | case1 c buf short =>
    have same : buf = rest := holds
    subst same
    have stalled : cut.Stalled buf := cut.stalled_of_more (if_neg fun whole => by omega)
    rw [cut.parse_of_stalled stalled, exact, dif_pos short]
    exact ⟨buf, .header, rfl, rfl⟩
  | case2 c buf long ih =>
    have same : buf = rest := holds
    subst same
    rw [exact, dif_neg long]
    exact ih ⟨not_lt.mp long, rfl, rfl⟩
  | case3 c buf len short =>
    obtain ⟨header, rfl, rfl⟩ := holds
    rw [List.length_drop] at short
    have stalled : cut.Stalled rest := cut.stalled_of_more (if_neg fun whole => by omega)
    rw [cut.parse_of_stalled stalled, exact, if_pos (by rw [List.length_drop]; exact short)]
    exact ⟨_, .body (bodyLen rest), rfl, header, rfl, rfl⟩
  | case4 c buf len long ih =>
    obtain ⟨header, rfl, rfl⟩ := holds
    rw [List.length_drop] at long
    have seen : cut.look rest = .frame ⟨rest.take kHeaderLen,
        (rest.drop kHeaderLen).take (bodyLen rest)⟩ (kHeaderLen + bodyLen rest) :=
      if_pos ⟨header, by omega⟩
    rw [cut.parse_of_frame seen, exact, if_neg (by rw [List.length_drop]; exact long)]
    apply ih
    rw [List.drop_drop]
    rfl

/-! The calls that frames lead to. -/

/-- The call that a frame with this body leads to. -/
def Client.call (c : Client) (body : Bytes) : Call :=
  if c.haveNick then .broadcast c.nick body else .add body

theorem Client.onFrame_calls (c : Client) (body : Bytes) :
    (c.onFrame body).calls = c.calls ++ [c.call body] := by
  rw [onFrame, call]
  split <;> rfl

theorem Client.onFrame_haveNick (c : Client) (body : Bytes) :
    (c.onFrame body).haveNick = true := by
  rw [onFrame]
  split
  · assumption
  · rfl

/-- What the readers do with the frames, one call for each. -/
def made (text : Bytes → Bytes) : Client → List Frame → List Call
  | _, [] => []
  | c, f :: rest => c.call (text f.body) :: made text (c.onFrame (text f.body)) rest

theorem onFrames_calls (text : Bytes → Bytes) (c : Client) (frames : List Frame) :
    (onFrames text c frames).calls = c.calls ++ made text c frames := by
  induction frames generalizing c with
  | nil => exact (List.append_nil _).symm
  | cons f rest ih =>
    change (onFrames text (c.onFrame (text f.body)) rest).calls = _
    rw [ih, Client.onFrame_calls, made, List.append_assoc, List.singleton_append]

theorem length_made (text : Bytes → Bytes) (c : Client) (frames : List Frame) :
    (made text c frames).length = frames.length := by
  induction frames generalizing c with
  | nil => rfl
  | cons f rest ih => rw [made, List.length_cons, List.length_cons, ih]

theorem remove_not_mem_made (text : Bytes → Bytes) (c : Client) (frames : List Frame) :
    .remove ∉ made text c frames := by
  induction frames generalizing c with
  | nil => exact List.not_mem_nil
  | cons f rest ih =>
    rw [made, List.mem_cons, not_or]
    refine ⟨?_, ih _⟩
    rw [Client.call]
    split <;> exact nofun

/-! The documented format. -/

namespace Frame

/-- The header begins with the magic and the version. -/
def Known (f : Frame) : Prop := f.header.take 3 = [kMagic0, kMagic1, kVersion]

instance (f : Frame) : Decidable f.Known := inferInstanceAs (Decidable (_ = _))

def type (f : Frame) : UInt8 := f.header.getD 3 0

end Frame

/-- The type of a client's next frame: first a JOIN, then MSGs. -/
def dueType (haveNick : Bool) : UInt8 := if haveNick then kTypeMsg else kTypeJoin

/-- What may be done for a stream: nothing behind a foreign header, where no length can be trusted,
and nothing for a frame of another type. -/
def allowed (text : Bytes → Bytes) : Client → List Frame → List Call
  | _, [] => []
  | c, f :: rest =>
    if ¬ f.Known then []
    else if f.type = dueType c.haveNick then
      c.call (text f.body) :: allowed text (c.onFrame (text f.body)) rest
    else allowed text c rest

/-- Every frame is of the documented format. -/
def Documented : Bool → List Frame → Prop
  | _, [] => True
  | haveNick, f :: rest => f.Known ∧ f.type = dueType haveNick ∧ Documented true rest

theorem allowed_of_documented {text : Bytes → Bytes} {c : Client} {frames : List Frame}
    (documented : Documented c.haveNick frames) :
    allowed text c frames = made text c frames := by
  induction frames generalizing c with
  | nil => rfl
  | cons f rest ih =>
    obtain ⟨known, due, later⟩ := documented
    rw [← c.onFrame_haveNick (text f.body)] at later
    rw [allowed, if_neg (not_not.mpr known), if_pos due, ih later, made]

theorem length_allowed_le (text : Bytes → Bytes) (c : Client) (frames : List Frame) :
    (allowed text c frames).length ≤ frames.length := by
  induction frames generalizing c with
  | nil => exact le_rfl
  | cons f rest ih =>
    rw [allowed]
    by_cases known : f.Known
    · rw [if_neg (not_not.mpr known)]
      split
      · exact Nat.succ_le_succ (ih _)
      · exact (ih _).trans (Nat.le_succ _)
    · rw [if_pos known]
      exact Nat.zero_le _

/-- Fewer calls are allowed than frames are there, unless all are of the documented format. -/
theorem documented_of_length {text : Bytes → Bytes} {c : Client} {frames : List Frame}
    (all : frames.length ≤ (allowed text c frames).length) : Documented c.haveNick frames := by
  induction frames generalizing c with
  | nil => trivial
  | cons f rest ih =>
    rw [allowed] at all
    by_cases known : f.Known
    · rw [if_neg (not_not.mpr known)] at all
      by_cases due : f.type = dueType c.haveNick
      · rw [if_pos due] at all
        have later := ih (Nat.le_of_succ_le_succ all)
        rw [Client.onFrame_haveNick] at later
        exact ⟨known, due, later⟩
      · rw [if_neg due] at all
        have few := length_allowed_le text c rest
        rw [List.length_cons] at all
        omega
    · rw [if_pos known] at all
      exact absurd all (Nat.not_succ_le_zero _)

/-! The five engines. -/

inductive Engine where
  | cppThread
  | cppAsync
  | rustThread
  | rustAsync
  | go
deriving DecidableEq, Repr

/-- Rust makes texts of the bodies. -/
def Engine.text : Engine → Bytes → Bytes
  | .rustThread | .rustAsync => Utf8.lossy
  | .cppThread | .cppAsync | .go => id

/-- A connection of the engine that has been sent these bytes, however they were cut, has made these
calls. -/
def Serves (e : Engine) (got : Bytes) (calls : List Call) : Prop :=
  match e with
  | .cppThread => ∃ results t, thread.run? results = some t ∧ t.got = got ∧ t.client.calls = calls
  | .cppAsync => ∃ acts s, coroutine.run? acts = some s ∧ s.got = got ∧ s.client.calls = calls
  | .rustThread =>
    ∃ results t, Async.rustThread.run? results = some t ∧ t.got = got ∧ t.client.calls = calls
  | .rustAsync =>
    ∃ results s, (conn Utf8.lossy).run? results = some s ∧ s.got = got ∧ s.client.calls = calls
  | .go => ∃ results s, (conn id).run? results = some s ∧ s.got = got ∧ s.client.calls = calls

/-- The server registers and broadcasts for documented frames only. -/
def OnlyDocumented (e : Engine) (got : Bytes) (calls : List Call) : Prop :=
  (calls.filter (· ≠ .remove)).Sublist (allowed e.text {} (cut.parse got).1)

/-- A connection has handled the whole frames of its stream, and may have left. -/
def Handled (text : Bytes → Bytes) (got : Bytes) (client : Client) : Prop :=
  client = onFrames text {} (cut.parse got).1 ∨ client = (onFrames text {} (cut.parse got).1).leave

theorem Handled.filter_calls {text : Bytes → Bytes} {got : Bytes} {client : Client}
    (handled : Handled text got client) :
    client.calls.filter (· ≠ .remove) = made text {} (cut.parse got).1 := by
  have kept : (made text {} (cut.parse got).1).filter (· ≠ .remove) =
      made text {} (cut.parse got).1 := by
    apply List.filter_eq_self.mpr
    intro call member
    have other := ne_of_mem_of_not_mem member (remove_not_mem_made text {} (cut.parse got).1)
    exact decide_eq_true other
  have calls := onFrames_calls text {} (cut.parse got).1
  rw [show ({} : Client).calls = [] from rfl, List.nil_append] at calls
  rcases handled with rfl | rfl
  · rw [calls, kept]
  · rw [Client.leave]
    split
    · simp only [List.filter_append, calls, kept]
      simp
    · rw [calls, kept]

theorem onFrames_append (text : Bytes → Bytes) (c : Client) (frames later : List Frame) :
    onFrames text c (frames ++ later) = onFrames text (onFrames text c frames) later :=
  List.foldl_append

theorem parse_nil : cut.parse [] = ([], []) :=
  cut.parse_of_stalled (cut.stalled_of_more rfl)

/-- What a thread in Rust has handled, and what it holds of the bytes behind the last frame. -/
structure Thread.InvRust (t : Thread) : Prop where
  handled : Handled Utf8.lossy t.got t.client
  client : t.returned = false → t.client = onFrames Utf8.lossy {} (cut.parse t.got).1
  buf : t.buf = (cut.parse t.got).2

theorem Thread.InvRust.leave {t : Thread} (inv : t.InvRust) (more : t.returned = false) :
    ({ t with client := t.client.leave, returned := true } : Thread).InvRust :=
  ⟨.inr (by rw [inv.client more]), nofun, inv.buf⟩

theorem Thread.InvRust.keeps {s t : Thread} {r : Recv} (inv : s.InvRust)
    (taken : s.stepRust r = some t) : t.InvRust := by
  unfold Thread.stepRust at taken
  split_ifs at taken with returned
  have more : s.returned = false := by simpa using returned
  cases r with
  | data bytes =>
    simp only at taken
    split_ifs at taken with empty
    · cases taken
      exact inv.leave more
    · cases taken
      rw [inv.client more, inv.buf, serveText_eq, ← onFrames_append]
      have parsed := cut.parse_append s.got bytes
      have frames := congrArg Prod.fst parsed
      have rest := congrArg Prod.snd parsed
      simp only at frames rest
      rw [← frames, ← rest]
      exact ⟨.inl rfl, fun _ => rfl, rfl⟩
  | intr =>
    cases taken
    exact inv
  | again =>
    cases taken
    exact inv
  | error =>
    cases taken
    exact inv.leave more

/-- The same of a reader that fills a header and a body. -/
structure Conn.Inv (text : Bytes → Bytes) (s : Conn) : Prop where
  handled : Handled text s.got s.client
  client : s.returned = false → s.client = onFrames text {} (cut.parse s.got).1
  holds : Holds (cut.parse s.got).2 s.buf s.want

theorem Conn.Inv.leave {text : Bytes → Bytes} {s : Conn} (inv : s.Inv text)
    (more : s.returned = false) :
    ({ s with client := s.client.leave, returned := true } : Conn).Inv text :=
  ⟨.inr (by rw [inv.client more]), nofun, inv.holds⟩

theorem Conn.Inv.keeps {text : Bytes → Bytes} {s t : Conn} {r : Recv} (inv : s.Inv text)
    (taken : s.step text r = some t) : t.Inv text := by
  unfold Conn.step at taken
  split_ifs at taken with returned
  have more : s.returned = false := by simpa using returned
  cases r with
  | data bytes =>
    simp only at taken
    split_ifs at taken with empty
    · cases taken
      exact inv.leave more
    · obtain ⟨buf, want, same, holds⟩ := exact_eq text (c := s.client) (inv.holds.append bytes)
      cases taken
      simp only [same]
      rw [inv.client more, ← onFrames_append]
      have parsed := cut.parse_append s.got bytes
      have frames := congrArg Prod.fst parsed
      have rest := congrArg Prod.snd parsed
      simp only at frames rest
      rw [← rest] at holds
      rw [← frames]
      exact ⟨.inl rfl, fun _ => rfl, holds⟩
  | intr =>
    cases taken
    exact inv
  | again =>
    cases taken
    exact inv
  | error =>
    cases taken
    exact inv.leave more

theorem handled_rustThread {t : Thread} {results : List Recv}
    (run : rustThread.run? results = some t) : Handled Utf8.lossy t.got t.client := by
  have start : (rustThread.init).InvRust := by
    refine ⟨.inl ?_, fun _ => ?_, ?_⟩
    · change ({} : Client) = onFrames Utf8.lossy {} (cut.parse []).1
      rw [parse_nil]
      rfl
    · change ({} : Client) = onFrames Utf8.lossy {} (cut.parse []).1
      rw [parse_nil]
      rfl
    · exact (congrArg Prod.snd parse_nil).symm
  exact (@Machine.run?_keeps _ _ _ Thread.InvRust start (fun _ _ _ => Thread.InvRust.keeps) _ _
    run).handled

theorem handled_conn {text : Bytes → Bytes} {s : Conn} {results : List Recv}
    (run : (conn text).run? results = some s) : Handled text s.got s.client := by
  have start : ((conn text).init).Inv text := by
    refine ⟨.inl ?_, fun _ => ?_, ?_⟩
    · change ({} : Client) = onFrames text {} (cut.parse []).1
      rw [parse_nil]
      rfl
    · change ({} : Client) = onFrames text {} (cut.parse []).1
      rw [parse_nil]
      rfl
    · exact (congrArg Prod.snd parse_nil).symm
  exact (@Machine.run?_keeps _ _ _ (Conn.Inv text) start (fun _ _ _ => Conn.Inv.keeps) _ _
    run).handled

theorem handled_of_served {got : Bytes} {ended : Bool} {client : Client}
    (same : client = served got ended) : Handled id got client := by
  rw [same, served, serveFrames_eq]
  split
  · exact .inr rfl
  · exact .inl rfl

theorem Serves.handled {e : Engine} {got : Bytes} {calls : List Call}
    (run : Serves e got calls) : ∃ client : Client, client.calls = calls ∧
      Handled e.text got client := by
  cases e with
  | cppThread =>
    obtain ⟨results, t, run, rfl, rfl⟩ := run
    exact ⟨t.client, rfl, handled_of_served (Thread.inv_of_run run).client⟩
  | cppAsync =>
    obtain ⟨acts, s, run, rfl, rfl⟩ := run
    exact ⟨s.client, rfl, handled_of_served (Coroutine.inv_of_run run).client⟩
  | rustThread =>
    obtain ⟨results, t, run, rfl, rfl⟩ := run
    exact ⟨t.client, rfl, handled_rustThread run⟩
  | rustAsync =>
    obtain ⟨results, s, run, rfl, rfl⟩ := run
    exact ⟨s.client, rfl, handled_conn run⟩
  | go =>
    obtain ⟨results, s, run, rfl, rfl⟩ := run
    exact ⟨s.client, rfl, handled_conn run⟩

theorem Serves.only_documented {e : Engine} {got : Bytes} {calls : List Call}
    (run : Serves e got calls) :
    OnlyDocumented e got calls ↔ Documented false (cut.parse got).1 := by
  obtain ⟨client, rfl, handled⟩ := run.handled
  rw [OnlyDocumented, handled.filter_calls]
  constructor
  · intro sublist
    have few := sublist.length_le
    rw [length_made] at few
    exact documented_of_length few
  · intro documented
    rw [allowed_of_documented (c := {}) documented]

/-- A server does only what the documented format allows exactly when every whole frame it has been
sent is of that format. -/
theorem only_documented_iff {e : Engine} {got : Bytes} {calls : List Call}
    (run : Serves e got calls) :
    OnlyDocumented e got calls ↔ Documented false (cut.parse got).1 :=
  run.only_documented

/-- A nick sent in two parts, by the Go server. -/
theorem only_documented_iff_nick : ∃ calls, Serves .go [67, 72, 1, 1, 0, 1, 97] calls ∧
    (OnlyDocumented .go [67, 72, 1, 1, 0, 1, 97] calls ↔
      Documented false (cut.parse [67, 72, 1, 1, 0, 1, 97]).1) := by
  have run : ∃ calls, Serves .go [67, 72, 1, 1, 0, 1, 97] calls :=
    ⟨_, [.data [67, 72, 1], .data [1, 0, 1, 97]], _, rfl, rfl, rfl⟩
  obtain ⟨calls, run⟩ := run
  exact ⟨calls, run, only_documented_iff run⟩

/-- A frame with no magic, of type 9, and a PING behind it. -/
def foreign : Bytes := [0, 0, 0, 9, 0, 1, 65, 67, 72, 1, 4, 0, 1, 66]

/-- No engine refuses a client for them. -/
theorem serves_foreign (e : Engine) : ∃ calls,
    Serves e foreign calls ∧ ¬ OnlyDocumented e foreign calls := by
  have run : ∃ calls, Serves e foreign calls := by
    cases e with
    | cppThread => exact ⟨_, [.data foreign], _, rfl, rfl, rfl⟩
    | cppAsync => exact ⟨_, [.recv (.data foreign)], _, rfl, rfl, rfl⟩
    | rustThread => exact ⟨_, [.data foreign], _, rfl, rfl, rfl⟩
    | rustAsync => exact ⟨_, [.data foreign], _, rfl, rfl, rfl⟩
    | go => exact ⟨_, [.data foreign], _, rfl, rfl, rfl⟩
  obtain ⟨calls, run⟩ := run
  refine ⟨calls, run, fun only => ?_⟩
  have documented := run.only_documented.mp only
  have seen : cut.look foreign = .frame ⟨[0, 0, 0, 9, 0, 1], [65]⟩ 7 := rfl
  rw [cut.parse_of_frame seen] at documented
  exact absurd documented.1 (by decide)

theorem not_only_documented_foreign :
    (∃ calls, Serves .cppThread foreign calls ∧ ¬ OnlyDocumented .cppThread foreign calls) ∧
    (∃ calls, Serves .cppAsync foreign calls ∧ ¬ OnlyDocumented .cppAsync foreign calls) ∧
    (∃ calls, Serves .rustThread foreign calls ∧ ¬ OnlyDocumented .rustThread foreign calls) ∧
    (∃ calls, Serves .rustAsync foreign calls ∧ ¬ OnlyDocumented .rustAsync foreign calls) ∧
    ∃ calls, Serves .go foreign calls ∧ ¬ OnlyDocumented .go foreign calls :=
  ⟨serves_foreign _, serves_foreign _, serves_foreign _, serves_foreign _, serves_foreign _⟩

end LinuxSys.Chatterd.Async
