import LinuxSys.Servers.ThreadsInv

/-! # Frames on the sockets of the threaded engines

What the workers of ch22 hand to a client's socket is WELCOME and then whole DELIVER frames, cut
short only where the socket is broken, as long as no broadcast writes to a client before its WELCOME
is out and no nick and text together outgrow the length field.
-/

namespace LinuxSys.Servers.Threads

open Lib Chatterd

/-- The worker's WELCOME is written, or was given up. -/
def Phase.welcomed : Phase → Bool
  | .absent | .starting | .adding | .welcoming _ => false
  | _ => true

/-- The frame of a broadcast. -/
def Phase.frame? : Phase → Option Bytes
  | .ready frame _ _ | .sending frame _ _ | .writing frame _ _ _ _ => some frame
  | _ => none

/-- WELCOME and the DELIVER frames after it. -/
def stream (payloads : List Bytes) : Bytes := welcome ++ payloads.flatMap (encode typeDeliver)

def Short (payloads : List Bytes) : Prop := ∀ payload ∈ payloads, payload.length < 65536

/-- The bytes handed to the socket of a client are whole frames, the first of them WELCOME, but for
the frame that is being written or was cut short by a broken socket. -/
structure State.Framed (s : State) (c : ℕ) : Prop where
  frames : ∃ payloads, Short payloads ∧ (s.conn c).sent <+: stream payloads
  whole : (s.phase c).welcomed = true → (s.conn c).broken = false →
    (∀ i left, (s.phase i).target i ≠ some (c, left)) →
    ∃ payloads, Short payloads ∧ (s.conn c).sent = stream payloads
  inStep : wire.InStep (s.conn c).sent

/-- A broadcast writes to a client only after its WELCOME, and a payload fits the length field. -/
def inFrame (s : State) : Action → Bool
  | .ask i =>
    match s.phase i with
    | .asking text => (deliverPayload (s.conn i).nick text).length < 65536
    | _ => true
  | .write i (.count _) =>
    match s.phase i with
    | .writing _ c _ _ _ => (s.phase c).welcomed
    | _ => true
  | _ => true

/-- The frame can be read back. -/
def Sound (frame : Bytes) : Prop :=
  ∃ payload : Bytes, payload.length < 65536 ∧ frame = encode typeDeliver payload

/-- What a client that has been welcomed has been sent. -/
def State.Lane (s : State) (c : ℕ) : Prop :=
  ∃ payloads, Short payloads ∧ (s.conn c).sent <+: stream payloads ∧
    ((s.conn c).broken = false →
      (∀ i left, (s.phase i).target i = some (c, left) →
        (s.conn c).sent ++ left = stream payloads) ∧
      ((∀ i left, (s.phase i).target i ≠ some (c, left)) → (s.conn c).sent = stream payloads))

structure State.Lanes (d : Design) (s : State) : Prop where
  inv : s.Inv d
  sound : ∀ i frame, (s.phase i).frame? = some frame → Sound frame
  fresh : ∀ i c left, (s.phase i).target i = some (c, left) → i ≠ c →
    (s.phase c).welcomed = false → (s.phase i).frame? = some left
  early : ∀ c, s.phase c = .absent ∨ s.phase c = .starting → (s.conn c).sent = []
  welcoming : ∀ c left, s.phase c = .welcoming left → (s.conn c).sent ++ left = welcome
  lane : ∀ c, (s.phase c).welcomed = true → s.Lane c

theorem stream_append_one (payloads : List Bytes) (payload : Bytes) :
    stream (payloads ++ [payload]) = stream payloads ++ encode typeDeliver payload := by
  simp only [stream, List.flatMap_append, List.flatMap_singleton, List.append_assoc]

theorem parse_delivers {payloads : List Bytes} (short : Short payloads) :
    wire.parse (payloads.flatMap (encode typeDeliver)) =
      (payloads.map fun payload => ⟨typeDeliver, payload⟩, []) := by
  induction payloads with
  | nil => exact parse_nil
  | cons payload rest ih =>
    rw [List.flatMap_cons, parse_encode (short payload List.mem_cons_self),
      ih fun p member => short p (List.mem_cons_of_mem payload member)]
    rfl

theorem parse_stream {payloads : List Bytes} (short : Short payloads) :
    wire.parse (stream payloads) = (⟨typeWelcome, []⟩ ::
      payloads.map fun payload => ⟨typeDeliver, payload⟩, []) := by
  rw [stream, welcome, parse_encode (by decide), parse_delivers short]

/-- A receiver is in step after any part of whole frames. -/
theorem inStep_of_prefix {bytes whole : Bytes} (part : bytes <+: whole)
    (left : (wire.parse whole).2 = []) : wire.InStep bytes := by
  obtain ⟨later, rfl⟩ := part
  intro desync
  have onward := wire.desync_append later desync
  rw [wire.parse_append, wire.parse_of_stalled (wire.stalled_of_desync onward)] at left
  rw [(List.append_eq_nil_iff.mp left).1, wire_look_nil] at desync
  cases desync

theorem State.wrote_phase (s : State) (i c : ℕ) (left : Bytes) (w : Wrote) :
    (s.wrote i c left w).phase = Function.update s.phase i ((s.phase i).wrote (w.rest left)) := rfl

theorem State.wrote_sent (s : State) (i c : ℕ) (left : Bytes) (w : Wrote) (e : ℕ) :
    ((s.wrote i c left w).conn e).sent =
      (s.conn e).sent ++ if e = c then taken left w else [] := by
  simp only [State.wrote, State.setConn_conn]
  rcases eq_or_ne e c with rfl | other
  · rw [Function.update_self, if_pos rfl]
    split <;> rfl
  · rw [Function.update_of_ne other, if_neg other, List.append_nil]
    rfl

theorem State.wrote_broken (s : State) (i c : ℕ) (left : Bytes) (w : Wrote) (e : ℕ) :
    ((s.wrote i c left w).conn e).broken = (s.conn e).broken := by
  simp only [State.wrote, State.setConn_conn]
  rcases eq_or_ne e c with rfl | other
  · rw [Function.update_self]
    split <;> rfl
  · rw [Function.update_of_ne other]
    rfl

/-- A call of the write loop took the front of what was left, or failed on a broken socket. -/
theorem rest_of_allowed {c : Conn} {left : Bytes} {w : Wrote} (allowed : c.allows left w = true) :
    (∃ rest, w.rest left = some rest ∧ taken left w ++ rest = left) ∨
      w.rest left = none ∧ taken left w = [] ∧ c.broken = true := by
  cases w with
  | count n => exact .inl ⟨left.drop n, rfl, List.take_append_drop n left⟩
  | intr => exact .inl ⟨left, rfl, rfl⟩
  | pipe => exact .inr ⟨rfl, rfl, allowed⟩
  | error =>
    have reset : c.reset = true := allowed
    exact .inr ⟨rfl, rfl, by rw [Conn.broken, reset, Bool.true_or]⟩

theorem taken_eq_nil {left : Bytes} {w : Wrote} (other : ∀ n, w ≠ .count n) :
    taken left w = [] := by
  cases w with
  | count n => exact absurd rfl (other n)
  | _ => rfl

namespace State.Lane

variable {s t : State} {c : ℕ}

/-- Whole frames have been sent, and the one worker that writes to the client has sent nothing of
its frame yet. -/
theorem of_whole (payloads : List Bytes) (short : Short payloads)
    (sent : (s.conn c).sent = stream payloads)
    (sound : ∀ i left, (s.phase i).target i = some (c, left) → Sound left)
    (alone : ∀ i j left more, (s.phase i).target i = some (c, left) →
      (s.phase j).target j = some (c, more) → left = more) : s.Lane c := by
  by_cases busy : ∃ i left, (s.phase i).target i = some (c, left)
  · obtain ⟨i, left, target⟩ := busy
    obtain ⟨payload, small, frame⟩ := sound i left target
    refine ⟨payloads ++ [payload], ?_, ?_, fun _ => ⟨fun j more other => ?_, fun nobody =>
      absurd target (nobody i left)⟩⟩
    · intro p member
      rcases List.mem_append.mp member with old | new
      · exact short p old
      · rw [List.mem_singleton.mp new]
        exact small
    · rw [sent, stream_append_one]
      exact List.prefix_append _ _
    · rw [← alone i j left more target other, sent, stream_append_one, frame]
  · refine ⟨payloads, short, by rw [sent], fun _ => ⟨fun i left target => ?_, fun _ => sent⟩⟩
    exact absurd ⟨i, left, target⟩ busy

theorem of_broken (payloads : List Bytes) (short : Short payloads)
    (part : (s.conn c).sent <+: stream payloads) (broken : (s.conn c).broken = true) :
    s.Lane c := by
  refine ⟨payloads, short, part, fun sound => ?_⟩
  rw [broken] at sound
  cases sound

theorem transfer (lane : s.Lane c) (sent : (t.conn c).sent = (s.conn c).sent)
    (broken : (s.conn c).broken = true → (t.conn c).broken = true)
    (target : ∀ i left, (t.phase i).target i = some (c, left) ↔
      (s.phase i).target i = some (c, left)) : t.Lane c := by
  obtain ⟨payloads, short, part, exact'⟩ := lane
  refine ⟨payloads, short, sent ▸ part, fun sound => ?_⟩
  have before : (s.conn c).broken = false := by
    cases here : (s.conn c).broken with
    | false => rfl
    | true => rw [broken here] at sound; cases sound
  simp only [target, ne_eq, sent]
  exact exact' before

end State.Lane

namespace State.Lanes

variable {d : Design} {s t : State}

/-- A worker's step between its writes. -/
structure Between (i : ℕ) (p q : Phase) : Prop where
  before : p.target i = none
  after : q.target i = none
  welcomed : q.welcomed = p.welcomed
  early : q = .absent ∨ q = .starting → p = .absent ∨ p = .starting
  sound : ∀ frame, q.frame? = some frame → Sound frame

theorem between (lanes : s.Lanes d) (inv : t.Inv d)
    (sent : ∀ c, (t.conn c).sent = (s.conn c).sent)
    (broken : ∀ c, (s.conn c).broken = true → (t.conn c).broken = true)
    (phases : ∀ i, t.phase i = s.phase i ∨ Between i (s.phase i) (t.phase i)) : t.Lanes d := by
  have target : ∀ i, (t.phase i).target i = (s.phase i).target i := by
    intro i
    rcases phases i with same | between
    · rw [same]
    · rw [between.before, between.after]
  have welcomed : ∀ c, (t.phase c).welcomed = (s.phase c).welcomed := by
    intro c
    rcases phases c with same | between
    · rw [same]
    · exact between.welcomed
  refine ⟨inv, fun i frame here => ?_, fun i c left here apart unwelcomed => ?_, fun c here => ?_,
    fun c left here => ?_, fun c here => ?_⟩
  · rcases phases i with same | between
    · rw [same] at here
      exact lanes.sound i frame here
    · exact between.sound frame here
  · rcases phases i with same | between
    · rw [same] at here ⊢
      rw [welcomed] at unwelcomed
      exact lanes.fresh i c left here apart unwelcomed
    · rw [between.after] at here
      cases here
  · rw [sent]
    rcases phases c with same | between
    · rw [same] at here
      exact lanes.early c here
    · exact lanes.early c (between.early here)
  · rw [sent]
    rcases phases c with same | between
    · rw [same] at here
      exact lanes.welcoming c left here
    · have after := between.after
      rw [here] at after
      cases after
  · rw [welcomed] at here
    exact (lanes.lane c here).transfer (sent c) (broken c) fun i left => by rw [target]

/-- Two broadcasts that write to one client are one broadcast. -/
theorem alone (lanes : s.Lanes d) (threaded : d.threaded = true) {i j c : ℕ}
    (first : (s.phase i).current = some c) (second : (s.phase j).current = some c) : i = j := by
  have mine := lanes.inv.owned i c threaded first
  rw [lanes.inv.owned j c threaded second] at mine
  exact (Option.some.inj mine).symm

end State.Lanes

/-- Only a broadcast writes to another client, or to one that has been welcomed. -/
theorem current_of_target {s : State} {i c : ℕ} {left : Bytes}
    (target : (s.phase i).target i = some (c, left))
    (other : i ≠ c ∨ (s.phase c).welcomed = true) : (s.phase i).current = some c := by
  rcases Phase.target_eq_some target with ⟨here, rfl⟩ | ⟨frame, targets, last, here⟩
  · rw [here] at other
    rcases other with apart | welcomed
    · exact absurd rfl apart
    · cases welcomed
  · rw [here]
    rfl

namespace State.Lanes

variable {d : Design} {s t : State}

theorem welcome_write (lanes : s.Lanes d) (threaded : d.threaded = true) {i : ℕ} {left : Bytes}
    {w : Wrote} (here : s.phase i = .welcoming left) (allowed : (s.conn i).allows left w = true) :
    (s.wrote i i left w).Lanes d := by
  have inv := lanes.inv.write (by rw [here]; rfl : (s.phase i).target i = some (i, left)) w
  have spec : Phase.wrote (w.rest left) (s.phase i) = _ :=
    (congrArg _ here).trans (Phase.wrote_welcoming left (w.rest left))
  have elsewhere : ∀ j, j ≠ i → (s.wrote i i left w).phase j = s.phase j := fun j other => by
    rw [State.wrote_phase, Function.update_of_ne other]
  have own : (s.wrote i i left w).phase i = (s.phase i).wrote (w.rest left) := by
    rw [State.wrote_phase, Function.update_self]
  have sent : ∀ e, e ≠ i → ((s.wrote i i left w).conn e).sent = (s.conn e).sent := fun e other => by
    rw [State.wrote_sent, if_neg other, List.append_nil]
  have before := lanes.welcoming i left here
  rw [spec] at own
  have unwelcomed : ∀ e, ((s.wrote i i left w).phase e).welcomed = false →
      (s.phase e).welcomed = false := by
    intro e no
    rcases eq_or_ne e i with rfl | other
    · rw [here]
      rfl
    · rwa [elsewhere e other] at no
  have targets : ∀ j e more, j ≠ i ∨ e ≠ i →
      (((s.wrote i i left w).phase j).target j = some (e, more) ↔
        (s.phase j).target j = some (e, more)) := by
    intro j e more apart
    rcases eq_or_ne j i with rfl | other
    · rw [own, here]
      refine iff_of_false (fun target => ?_) fun target => ?_
      · split at target
        · cases target
          rcases apart with no | no <;> exact no rfl
        · cases target
      · cases target
        rcases apart with no | no <;> exact no rfl
    · rw [elsewhere j other]
  refine ⟨inv, fun j frame frames => ?_, fun j e more target apart no => ?_, fun e starting => ?_,
    fun e more welcoming => ?_, fun e welcomed => ?_⟩
  · rcases eq_or_ne j i with rfl | other
    · rw [own] at frames
      split at frames <;> cases frames
    · rw [elsewhere j other] at frames
      exact lanes.sound j frame frames
  · have other : j ≠ i := by
      rintro rfl
      rw [targets j e more (.inr (Ne.symm apart)), here] at target
      cases target
      exact apart rfl
    rw [targets j e more (.inl other)] at target
    rw [elsewhere j other]
    exact lanes.fresh j e more target apart (unwelcomed e no)
  · have other : e ≠ i := by
      rintro rfl
      rw [own] at starting
      split at starting <;> rcases starting with ⟨⟨⟩⟩ | ⟨⟨⟩⟩
    rw [elsewhere e other] at starting
    rw [sent e other]
    exact lanes.early e starting
  · rcases eq_or_ne e i with rfl | other
    · rw [own] at welcoming
      rw [State.wrote_sent, if_pos rfl]
      rcases rest_of_allowed allowed with ⟨rest, remains, all⟩ | ⟨failed, -, -⟩
      · rw [remains] at welcoming
        cases rest with
        | nil => cases welcoming
        | cons b tail =>
          cases welcoming
          rw [List.append_assoc, all, before]
      · rw [failed] at welcoming
        cases welcoming
    · rw [elsewhere e other] at welcoming
      rw [sent e other]
      exact lanes.welcoming e more welcoming
  · rcases eq_or_ne e i with rfl | other
    · have nobody : ∀ more, ((s.wrote e e left w).phase e).target e ≠ some (e, more) := by
        intro more target
        rw [own] at welcomed target
        split at welcomed
        · cases welcomed
        · next finished =>
          rw [finished] at target
          cases target
      have other : ∀ j more, ((s.wrote e e left w).phase j).target j = some (e, more) → j ≠ e ∧
          (s.phase j).target j = some (e, more) := by
        intro j more target
        have apart : j ≠ e := by
          rintro rfl
          exact nobody more target
        exact ⟨apart, (targets j e more (.inl apart)).mp target⟩
      rcases rest_of_allowed allowed with ⟨rest, remains, all⟩ | ⟨-, nothing, broken⟩
      · have whole : rest = [] := by
          rw [own, remains] at welcomed
          cases rest with
          | nil => rfl
          | cons b tail => cases welcomed
        refine .of_whole [] (by simp [Short]) ?_ (fun j more target => ?_)
          fun j k more extra first second => ?_
        · rw [State.wrote_sent, if_pos rfl]
          rw [whole, List.append_nil] at all
          rw [all, before]
          rfl
        · obtain ⟨apart, target⟩ := other j more target
          exact lanes.sound j more (lanes.fresh j e more target apart (by rw [here]; rfl))
        · obtain ⟨jApart, first⟩ := other j more first
          obtain ⟨kApart, second⟩ := other k extra second
          obtain rfl := lanes.alone threaded (current_of_target first (.inl jApart))
            (current_of_target second (.inl kApart))
          rw [first] at second
          cases second
          rfl
      · refine .of_broken [] (by simp [Short]) ?_ (by rwa [State.wrote_broken])
        rw [State.wrote_sent, if_pos rfl, nothing, List.append_nil]
        exact ⟨left, before.trans (by simp [stream])⟩
    · rw [elsewhere e other] at welcomed
      refine (lanes.lane e welcomed).transfer (sent e other) (fun broken => ?_)
        fun j more => targets j e more (.inr other)
      rwa [State.wrote_broken]

theorem deliver_write (lanes : s.Lanes d) (threaded : d.threaded = true) {i c : ℕ} {left : Bytes}
    {w : Wrote} {frame : Bytes} {targets : List ℕ} {last : Bool}
    (here : s.phase i = .writing frame c left targets last)
    (allowed : (s.conn c).allows left w = true) (near : inFrame s (.write i w) = true) :
    (s.wrote i c left w).Lanes d := by
  have inv := lanes.inv.write (by rw [here]; rfl : (s.phase i).target i = some (c, left)) w
  have spec : Phase.wrote (w.rest left) (s.phase i) = _ :=
    (congrArg _ here).trans (Phase.wrote_writing frame c left targets last (w.rest left))
  have elsewhere : ∀ j, j ≠ i → (s.wrote i c left w).phase j = s.phase j := fun j other => by
    rw [State.wrote_phase, Function.update_of_ne other]
  have own : (s.wrote i c left w).phase i = (s.phase i).wrote (w.rest left) := by
    rw [State.wrote_phase, Function.update_self]
  rw [spec] at own
  have welcomed : ∀ e, ((s.wrote i c left w).phase e).welcomed = (s.phase e).welcomed := by
    intro e
    rcases eq_or_ne e i with rfl | other
    · rw [own, here]
      split <;> rfl
    · rw [elsewhere e other]
  have nothing : (s.phase c).welcomed = false → taken left w = [] := by
    intro no
    refine taken_eq_nil fun n count => ?_
    simp [count, inFrame, here, no] at near
  have sent : ∀ e, e ≠ c ∨ (s.phase e).welcomed = false →
      ((s.wrote i c left w).conn e).sent = (s.conn e).sent := by
    intro e apart
    rw [State.wrote_sent]
    split
    · next same =>
      rcases apart with other | no
      · exact absurd same other
      · rw [nothing (same ▸ no), List.append_nil]
    · exact List.append_nil _
  have mine : ∀ e more, ((s.wrote i c left w).phase i).target i = some (e, more) →
      e = c ∧ w.rest left = some more := by
    intro e more target
    rw [own] at target
    split at target
    · next new going =>
      cases target
      refine ⟨rfl, ?_⟩
      rcases left' : w.rest left with - | - | ⟨b, rest⟩
      · rw [left'] at going
        cases going
      · rw [left'] at going
        cases going
      · rw [left'] at going
        cases going
        rfl
    · cases target
  have cast : ∀ f, ((s.wrote i c left w).phase i).frame? = some f ↔ frame = f := by
    intro f
    rw [own]
    split <;> simp [Phase.frame?]
  refine ⟨inv, fun j f frames => ?_, fun j e more target apart no => ?_, fun e starting => ?_,
    fun e more welcoming => ?_, fun e now => ?_⟩
  · rcases eq_or_ne j i with rfl | other
    · rw [cast] at frames
      exact lanes.sound j f (by rw [here, ← frames]; rfl)
    · rw [elsewhere j other] at frames
      exact lanes.sound j f frames
  · rw [welcomed] at no
    rcases eq_or_ne j i with rfl | other
    · obtain ⟨rfl, remains⟩ := mine e more target
      have before := lanes.fresh j e left (by rw [here]; rfl) apart no
      rw [here] at before
      rw [cast, Option.some.inj before]
      rcases rest_of_allowed allowed with ⟨rest, same, all⟩ | ⟨failed, -, -⟩
      · rw [nothing no, List.nil_append] at all
        rw [same] at remains
        exact all.symm.trans (Option.some.inj remains)
      · rw [failed] at remains
        cases remains
    · rw [elsewhere j other] at target ⊢
      exact lanes.fresh j e more target apart no
  · have other : e ≠ i := by
      rintro rfl
      rw [own] at starting
      split at starting <;> rcases starting with ⟨⟨⟩⟩ | ⟨⟨⟩⟩
    rw [elsewhere e other] at starting
    rw [sent e (.inr (by rcases starting with same | same <;> rw [same] <;> rfl))]
    exact lanes.early e starting
  · have other : e ≠ i := by
      rintro rfl
      rw [own] at welcoming
      split at welcoming <;> cases welcoming
    rw [elsewhere e other] at welcoming
    rw [sent e (.inr (by rw [welcoming]; rfl))]
    exact lanes.welcoming e more welcoming
  · rw [welcomed] at now
    rcases eq_or_ne e c with rfl | other
    · obtain ⟨payloads, short, part, exact'⟩ := lanes.lane e now
      rcases rest_of_allowed allowed with ⟨rest, remains, all⟩ | ⟨-, took, broken⟩
      · cases broken : (s.conn e).broken with
        | true =>
          have took : taken left w = [] := by
            refine taken_eq_nil fun n count => ?_
            rw [count] at allowed
            simp [Conn.allows, broken] at allowed
          refine .of_broken payloads short ?_ (by rwa [State.wrote_broken])
          rw [State.wrote_sent, if_pos rfl, took, List.append_nil]
          exact part
        | false =>
          have whole := (exact' broken).1 i left (by rw [here]; rfl)
          rw [← all, ← List.append_assoc] at whole
          have now' : ((s.wrote i e left w).conn e).sent = (s.conn e).sent ++ taken left w := by
            rw [State.wrote_sent, if_pos rfl]
          refine ⟨payloads, short, ?_, fun _ => ⟨fun j more target => ?_, fun nobody => ?_⟩⟩
          · rw [now', ← whole]
            exact List.prefix_append _ _
          · rw [now']
            rcases eq_or_ne j i with rfl | apart
            · rw [remains] at mine
              rw [← Option.some.inj (mine e more target).2, whole]
            · rw [elsewhere j apart] at target
              refine absurd (lanes.alone threaded (current_of_target target (.inr now)) ?_) apart
              rw [here]
              rfl
          · rw [now', ← whole]
            cases rest with
            | nil => rw [List.append_nil]
            | cons b tail =>
              refine absurd ?_ (nobody i (b :: tail))
              rw [own, remains]
              rfl
      · refine .of_broken payloads short ?_ (by rwa [State.wrote_broken])
        rw [State.wrote_sent, if_pos rfl, took, List.append_nil]
        exact part
    · refine (lanes.lane e now).transfer (sent e (.inl other)) (fun broken => ?_) fun j more => ?_
      · rwa [State.wrote_broken]
      · rcases eq_or_ne j i with rfl | apart
        · refine iff_of_false (fun target => other (mine e more target).1) fun target => ?_
          rw [here] at target
          cases target
          exact other rfl
        · rw [elsewhere j apart]

/-- A worker starts to send WELCOME. -/
theorem start (lanes : s.Lanes d) {i : ℕ} (here : s.phase i = .starting) (inv : t.Inv d)
    (phase : t.phase = Function.update s.phase i (.welcoming welcome))
    (sent : ∀ c, (t.conn c).sent = (s.conn c).sent)
    (broken : ∀ c, (s.conn c).broken = true → (t.conn c).broken = true) : t.Lanes d := by
  have elsewhere : ∀ j, j ≠ i → t.phase j = s.phase j := fun j other => by
    rw [phase, Function.update_of_ne other]
  have own : t.phase i = .welcoming welcome := by rw [phase, Function.update_self]
  have welcomed : ∀ e, (t.phase e).welcomed = (s.phase e).welcomed := by
    intro e
    rcases eq_or_ne e i with rfl | other
    · rw [own, here]
      rfl
    · rw [elsewhere e other]
  refine ⟨inv, fun j frame frames => ?_, fun j e more target apart no => ?_, fun e starting => ?_,
    fun e more welcoming => ?_, fun e now => ?_⟩
  · rcases eq_or_ne j i with rfl | other
    · rw [own] at frames
      cases frames
    · rw [elsewhere j other] at frames
      exact lanes.sound j frame frames
  · have other : j ≠ i := by
      rintro rfl
      rw [own] at target
      cases target
      exact apart rfl
    rw [elsewhere j other] at target ⊢
    rw [welcomed] at no
    exact lanes.fresh j e more target apart no
  · rw [sent]
    rcases eq_or_ne e i with rfl | other
    · exact lanes.early e (.inr here)
    · rw [elsewhere e other] at starting
      exact lanes.early e starting
  · rw [sent]
    rcases eq_or_ne e i with rfl | other
    · rw [own] at welcoming
      cases welcoming
      rw [lanes.early e (.inr here), List.nil_append]
    · rw [elsewhere e other] at welcoming
      exact lanes.welcoming e more welcoming
  · rw [welcomed] at now
    have other : e ≠ i := by
      rintro rfl
      rw [here] at now
      cases now
    refine (lanes.lane e now).transfer (sent e) (broken e) fun j more => ?_
    rcases eq_or_ne j i with rfl | apart
    · rw [own, here]
      refine iff_of_false (fun target => ?_) fun target => by cases target
      cases target
      exact other rfl
    · rw [elsewhere j apart]

/-- A broadcast takes the lock of its next client. -/
theorem next (lanes : s.Lanes d) (threaded : d.threaded = true) {i c : ℕ} {frame : Bytes}
    {rest : List ℕ} {last : Bool} (here : s.phase i = .sending frame (c :: rest) last)
    (free : (s.conn c).writer = none) :
    ((s.setPhase i (.writing frame c frame rest last)).setConn c
      { s.conn c with writer := some i }).Lanes d := by
  have inv := lanes.inv.next here threaded free
  generalize final : (s.setPhase i (.writing frame c frame rest last)).setConn c
      { s.conn c with writer := some i } = t at inv
  have elsewhere : ∀ j, j ≠ i → t.phase j = s.phase j := fun j other => by
    rw [← final]
    exact Function.update_of_ne other ..
  have own : t.phase i = .writing frame c frame rest last := by
    rw [← final]
    exact Function.update_self ..
  have sent : ∀ e, (t.conn e).sent = (s.conn e).sent ∧ (t.conn e).broken = (s.conn e).broken := by
    intro e
    rw [← final, State.setConn_conn]
    rcases eq_or_ne e c with rfl | other
    · rw [Function.update_self]
      exact ⟨rfl, rfl⟩
    · rw [Function.update_of_ne other]
      exact ⟨rfl, rfl⟩
  have welcomed : ∀ e, (t.phase e).welcomed = (s.phase e).welcomed := by
    intro e
    rcases eq_or_ne e i with rfl | other
    · rw [own, here]
      rfl
    · rw [elsewhere e other]
  have sound : Sound frame := lanes.sound i frame (by rw [here]; rfl)
  refine ⟨inv, fun j f frames => ?_, fun j e more target apart no => ?_, fun e starting => ?_,
    fun e more welcoming => ?_, fun e now => ?_⟩
  · rcases eq_or_ne j i with rfl | other
    · rw [own] at frames
      cases frames
      exact sound
    · rw [elsewhere j other] at frames
      exact lanes.sound j f frames
  · rcases eq_or_ne j i with rfl | other
    · rw [own] at target ⊢
      cases target
      rfl
    · rw [elsewhere j other] at target ⊢
      rw [welcomed] at no
      exact lanes.fresh j e more target apart no
  · have other : e ≠ i := by
      rintro rfl
      rw [own] at starting
      rcases starting with ⟨⟨⟩⟩ | ⟨⟨⟩⟩
    rw [elsewhere e other] at starting
    rw [(sent e).1]
    exact lanes.early e starting
  · have other : e ≠ i := by
      rintro rfl
      rw [own] at welcoming
      cases welcoming
    rw [elsewhere e other] at welcoming
    rw [(sent e).1]
    exact lanes.welcoming e more welcoming
  · rw [welcomed] at now
    rcases eq_or_ne e c with rfl | apart
    · obtain ⟨payloads, short, part, exact'⟩ := lanes.lane e now
      have nobody : ∀ j more, (s.phase j).target j ≠ some (e, more) := by
        intro j more target
        have held := lanes.inv.owned j e threaded (current_of_target target (.inr now))
        rw [free] at held
        cases held
      have only : ∀ j more, (t.phase j).target j = some (e, more) → more = frame := by
        intro j more target
        rcases eq_or_ne j i with rfl | other
        · rw [own] at target
          cases target
          rfl
        · rw [elsewhere j other] at target
          exact absurd target (nobody j more)
      cases gone : (s.conn e).broken with
      | true =>
        exact .of_broken payloads short (by rwa [(sent e).1]) (by rw [(sent e).2, gone])
      | false =>
        refine .of_whole payloads short (by rw [(sent e).1, (exact' gone).2 nobody])
          (fun j more target => ?_) fun j k more extra first second => ?_
        · rw [only j more target]
          exact sound
        · rw [only j more first, only k extra second]
    · refine (lanes.lane e now).transfer (sent e).1 (fun gone => by rwa [(sent e).2])
        fun j more => ?_
      rcases eq_or_ne j i with rfl | other
      · rw [own, here]
        refine iff_of_false (fun target => ?_) fun target => by cases target
        cases target
        exact apart rfl
      · rw [elsewhere j other]

/-- A client is accepted. -/
theorem accept (lanes : s.Lanes d) (main : s.main = .polling) :
    ({ s.setConn s.count { nick := d.noNick } with
      count := s.count + 1
      main := if d.threaded then .adding s.count else .spawning s.count } : State).Lanes d := by
  have inv := lanes.inv.accept main
  have absent : s.phase s.count = .absent := by
    by_contra other
    exact lt_irrefl _ (lanes.inv.counted _ other)
  have there : ∀ e, s.phase e ≠ .absent → Function.update s.conn s.count { nick := d.noNick } e =
      s.conn e := by
    intro e present
    refine Function.update_of_ne ?_ ..
    rintro rfl
    exact present absent
  refine ⟨inv, lanes.sound, lanes.fresh, fun e starting => ?_, fun e more welcoming => ?_,
    fun e now => ?_⟩
  · change (Function.update s.conn s.count _ e).sent = []
    rcases eq_or_ne e s.count with rfl | other
    · rw [Function.update_self]
    · rw [Function.update_of_ne other]
      exact lanes.early e starting
  · change s.phase e = _ at welcoming
    change (Function.update s.conn s.count _ e).sent ++ more = welcome
    rw [there e (by rw [welcoming]; simp)]
    exact lanes.welcoming e more welcoming
  · change (s.phase e).welcomed = true at now
    have same := there e fun gone => by rw [gone] at now; cases now
    exact (lanes.lane e now).transfer (congrArg Conn.sent same)
      (fun broken => by rwa [← congrArg Conn.broken same] at broken) fun _ _ => Iff.rfl

theorem sound_buildDeliver {nick text : Bytes}
    (small : (deliverPayload nick text).length < 65536) : Sound (buildDeliver nick text) :=
  ⟨deliverPayload nick text, small, rfl⟩

/-- A connection changes, but not in what it has been sent. -/
theorem update_conn {c : ℕ} {v : Conn} (sent : v.sent = (s.conn c).sent)
    (broken : (s.conn c).broken = true → v.broken = true) :
    (∀ e, (Function.update s.conn c v e).sent = (s.conn e).sent) ∧
      ∀ e, (s.conn e).broken = true → (Function.update s.conn c v e).broken = true := by
  refine ⟨fun e => ?_, fun e gone => ?_⟩
  · rcases eq_or_ne e c with rfl | other
    · rw [Function.update_self, sent]
    · rw [Function.update_of_ne other]
  · rcases eq_or_ne e c with rfl | other
    · rw [Function.update_self, broken gone]
    · rwa [Function.update_of_ne other]

theorem update_phase {i : ℕ} {p q : Phase} (here : s.phase i = p) (between : Between i p q)
    (j : ℕ) :
    Function.update s.phase i q j = s.phase j ∨
      Between j (s.phase j) (Function.update s.phase i q j) := by
  rcases eq_or_ne j i with rfl | other
  · rw [Function.update_self, here]
    exact .inr between
  · exact .inl (Function.update_of_ne other ..)

theorem keeps (lanes : s.Lanes d) (threaded : d.threaded = true) {a : Action}
    (near : inFrame s a = true) (effect : Effect d s a t) : t.Lanes d := by
  have inv := lanes.inv.keeps effect
  have same : ∀ i, s.phase i = s.phase i ∨ Between i (s.phase i) (s.phase i) := fun _ => .inl rfl
  have calm : ∀ c, (s.conn c).broken = true → (s.conn c).broken = true := fun _ broken => broken
  have tcp : ∀ {p : Prop}, d.threaded = false → p := fun no => by
    rw [threaded] at no
    cases no
  cases effect with
  | sigint => exact lanes.between inv (fun _ => rfl) calm same
  | @client _ c stalled closed reset stalls resets =>
    have conn := update_conn (s := s) (c := c) (v := { s.conn c with stalled, closed, reset }) rfl
      fun broken => by
        simp only [Conn.broken, Bool.or_eq_true] at broken ⊢
        exact broken.imp_left resets
    exact lanes.between inv conn.1 conn.2 same
  | ended ended => exact lanes.between inv (fun _ => rfl) calm same
  | refused => exact lanes
  | accept main => exact lanes.accept main
  | register main free => exact lanes.between inv (fun _ => rfl) calm same
  | @spawn i main =>
    have absent := (lanes.inv.fresh i (.inr main)).2
    refine lanes.between inv (fun _ => rfl) calm (update_phase absent ?_)
    exact ⟨rfl, rfl, rfl, fun _ => .inl rfl, by rintro frame ⟨⟩⟩
  | sawStop main stop => exact lanes.between inv (fun _ => rfl) calm same
  | lockAll main free perm => exact lanes.between inv (fun _ => rfl) calm same
  | request main cpp =>
    rw [cpp] at threaded
    cases threaded
  | @shut c rest main other free =>
    have conn := update_conn (s := s) (c := c) (v := { s.conn c with shut := true }) rfl
      fun broken => by simp [Conn.broken]
    exact lanes.between inv conn.1 conn.2 same
  | release main => exact lanes.between inv (fun _ => rfl) calm same
  | joined main done => exact lanes.between inv (fun _ => rfl) calm same
  | @leave _ i rest because =>
    have conn := update_conn (s := s) (c := i) (v := { s.conn i with
      asked := true
      shut := (s.conn i).shut || (d = .tcpCpp && s.phase i ≠ .starting && s.phase i ≠ .done) }) rfl
      fun broken => by
        simp only [Conn.broken, Bool.or_eq_true] at broken ⊢
        exact broken.imp_right .inl
    exact lanes.between inv conn.1 conn.2 same
  | @move _ i p here after =>
    refine lanes.between inv (fun _ => rfl) calm (update_phase here ?_)
    cases after with
    | reading => exact ⟨rfl, rfl, rfl, by rintro (⟨⟨⟩⟩ | ⟨⟨⟩⟩), by rintro frame ⟨⟩⟩
    | naming name => exact ⟨rfl, rfl, rfl, by rintro (⟨⟨⟩⟩ | ⟨⟨⟩⟩), by rintro frame ⟨⟩⟩
    | asking text _ => exact ⟨rfl, rfl, rfl, by rintro (⟨⟨⟩⟩ | ⟨⟨⟩⟩), by rintro frame ⟨⟩⟩
    | ready frame except no => exact tcp no
    | removing => exact ⟨rfl, rfl, rfl, by rintro (⟨⟨⟩⟩ | ⟨⟨⟩⟩), by rintro frame ⟨⟩⟩
  | @ask i text here =>
    have small : (deliverPayload (s.conn i).nick text).length < 65536 := by
      simpa [inFrame, here] using near
    refine lanes.between inv (fun _ => rfl) calm (update_phase here ?_)
    refine ⟨rfl, rfl, rfl, by rintro (⟨⟨⟩⟩ | ⟨⟨⟩⟩), ?_⟩
    rintro frame ⟨⟩
    exact sound_buildDeliver small
  | @name i name here nick =>
    have conn := update_conn (s := s) (c := i) (v := { s.conn i with nick }) rfl
      fun broken => broken
    refine lanes.between inv conn.1 conn.2 (update_phase here ?_)
    rw [afterName, if_pos threaded]
    exact ⟨rfl, rfl, rfl, by rintro (⟨⟨⟩⟩ | ⟨⟨⟩⟩), by rintro frame ⟨⟩⟩
  | startTcp here no asked => exact tcp no
  | startError here rust =>
    rw [rust] at threaded
    cases threaded
  | startCpp here cpp => exact lanes.start here inv rfl (fun _ => rfl) calm
  | @startRust i here rust free =>
    have conn := update_conn (s := s) (c := i) (v := { s.conn i with writer := some i }) rfl
      fun broken => broken
    exact lanes.start here inv rfl conn.1 conn.2
  | @add i here free =>
    have fits := lanes.inv.fits i
    rw [here] at fits
    exact tcp (by simpa [Phase.fits] using fits)
  | @write i c left w here allowed =>
    rcases Phase.target_eq_some here with ⟨phase, rfl⟩ | ⟨frame, targets, last, phase⟩
    · exact lanes.welcome_write threaded phase allowed
    · exact lanes.deliver_write threaded phase allowed near
  | @lock i order frame except last here free perm =>
    refine lanes.between inv (fun _ => rfl) calm (update_phase here ?_)
    refine ⟨rfl, rfl, rfl, by rintro (⟨⟨⟩⟩ | ⟨⟨⟩⟩), ?_⟩
    rintro f ⟨⟩
    exact lanes.sound i frame (by rw [here]; rfl)
  | nextTcp here no => exact tcp no
  | next here _ free => exact lanes.next threaded here free
  | @finish i frame last here =>
    refine lanes.between inv (fun _ => rfl) calm (update_phase here ?_)
    cases last with
    | true => exact ⟨rfl, rfl, rfl, by rintro (⟨⟨⟩⟩ | ⟨⟨⟩⟩), by rintro f ⟨⟩⟩
    | false => exact ⟨rfl, rfl, rfl, by rintro (⟨⟨⟩⟩ | ⟨⟨⟩⟩), by rintro f ⟨⟩⟩
  | @remove i here free =>
    refine lanes.between inv (fun _ => rfl) calm (update_phase here ?_)
    rw [afterRemove, if_pos threaded]
    exact ⟨rfl, rfl, rfl, by rintro (⟨⟨⟩⟩ | ⟨⟨⟩⟩), by rintro frame ⟨⟩⟩

theorem init (d : Design) : (server d).init.Lanes d := by
  refine ⟨.init d, ?_, ?_, fun c _ => rfl, ?_, ?_⟩
  · rintro i frame ⟨⟩
  · rintro i c left ⟨⟩
  · rintro c left ⟨⟩
  · rintro c ⟨⟩

theorem framed (lanes : s.Lanes d) (threaded : d.threaded = true) (c : ℕ) : s.Framed c := by
  have frames : ∃ payloads, Short payloads ∧ (s.conn c).sent <+: stream payloads := by
    cases now : (s.phase c).welcomed with
    | true =>
      obtain ⟨payloads, short, part, -⟩ := lanes.lane c now
      exact ⟨payloads, short, part⟩
    | false =>
      refine ⟨[], by simp [Short], ?_⟩
      cases here : s.phase c with
      | absent =>
        rw [lanes.early c (.inl here)]
        exact List.nil_prefix
      | starting =>
        rw [lanes.early c (.inr here)]
        exact List.nil_prefix
      | adding =>
        have fits := lanes.inv.fits c
        simp [here, Phase.fits, threaded] at fits
      | welcoming left =>
        exact ⟨left, (lanes.welcoming c left here).trans (by simp [stream])⟩
      | _ =>
        rw [here] at now
        cases now
  refine ⟨frames, fun now sound nobody => ?_, ?_⟩
  · obtain ⟨payloads, short, -, exact'⟩ := lanes.lane c now
    exact ⟨payloads, short, (exact' sound).2 nobody⟩
  · obtain ⟨payloads, short, part⟩ := frames
    exact inStep_of_prefix part (by rw [parse_stream short])

end State.Lanes

/-- In every run in which no broadcast writes to a client before its WELCOME and every payload fits
the length field, the bytes handed to each client are WELCOME and whole frames. -/
theorem sent_framed {d : Design} (threaded : d.threaded = true) {acts : List Action} {s : State}
    (met : (server d).Meets (fun s a => inFrame s a = true) (server d).init acts)
    (run : (server d).run? acts = some s) (c : ℕ) : s.Framed c := by
  have lanes := @Machine.run?_keeps_of_meets _ _ (server d) (State.Lanes d)
    (fun s a => inFrame s a = true) (.init d)
    (fun s a t lanes near taken =>
      lanes.keeps threaded near (effect_of_act (server_step taken).2)) _ _ met run
  exact lanes.framed threaded c

/-- A client says nothing but an empty MSG. -/
def emptyMsg : Frame := ⟨typeMsg, []⟩

/-- The first client is served up to its own message. -/
def soloActs : List Action :=
  [.accept, .register, .spawn, .start 0, .write 0 (.count 4), .write 0 (.count 2),
    .frame 0 emptyMsg, .ask 0, .lock 0 [0], .next 0, .write 0 (.count 8), .finish 0]

theorem met_soloActs : (server .threadedCpp).Meets (fun s a => inFrame s a = true)
    (server .threadedCpp).init soloActs := by decide

theorem sent_framed_solo : ∃ s, (server .threadedCpp).run? soloActs = some s ∧ s.Framed 0 :=
  ⟨_, rfl, sent_framed rfl met_soloActs rfl 0⟩

/-- The message of the first client overtakes the WELCOME of the second, which is registered but
whose worker has not started. -/
def overtakingActs : List Action :=
  [.accept, .register, .spawn, .start 0, .write 0 (.count 6), .frame 0 emptyMsg, .ask 0,
    .accept, .register, .lock 0 [0, 1], .next 0, .write 0 (.count 8), .next 0, .write 0 (.count 8)]

theorem not_framed_of_deliver {s : State} {c : ℕ} (payload : Bytes)
    (sent : (s.conn c).sent = encode typeDeliver payload) : ¬ s.Framed c := by
  intro framed
  obtain ⟨payloads, -, later, same⟩ := framed.frames
  rw [sent] at same
  have typ := congrArg (fun bytes : Bytes => bytes[3]?) same
  simp [stream, welcome, encode, header, typeDeliver, typeWelcome] at typ

/-- In both engines DELIVER can be the first frame a client is sent. -/
theorem not_sent_framed :
    (∃ s, (server .threadedCpp).run? overtakingActs = some s ∧ ¬ s.Framed 1) ∧
      ∃ s, (server .threadedRust).run? overtakingActs = some s ∧ ¬ s.Framed 1 :=
  ⟨⟨_, rfl, not_framed_of_deliver [0x3F, 0x00] rfl⟩,
    ⟨_, rfl, not_framed_of_deliver [0x3F, 0x00] rfl⟩⟩

end LinuxSys.Servers.Threads
