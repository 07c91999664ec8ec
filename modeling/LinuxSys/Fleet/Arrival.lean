import LinuxSys.Fleet.Hub

/-! # Which messages arrive whole

A message is written to every other connection of the sender's node, and over a bridge to every
client of the other node with the node tag added. It arrives whole exactly when the nick has no
NUL, is valid UTF-8 where Rust decodes it, and the payload of each hop still fits a frame:
`write_frame` refuses a larger one and both broadcasts ignore the refusal.
-/

namespace LinuxSys.Fleet

open Lib Chatterd

variable {ι κ : Type*} [DecidableEq ι] [DecidableEq κ]

/-- Every other connection is sent a DELIVER that decodes to this nick and text. -/
def ArrivesLocally (lang : Lang) (hub : Hub ι) (sender : ι) (text nick : Bytes) : Prop :=
  ∀ c ∈ hub.clients, c ≠ sender →
    ∃ sent, (c, sent) ∈ handleMsg lang hub sender ⟨typeMsg, text⟩ ∧ Delivered lang sent nick text

/-- Over the bridge connection `link`, every client of the other node is sent a DELIVER that
decodes to this nick and text. -/
def ArrivesOver (lang : Lang) (hub : Hub ι) (sender link : ι) (peerNode : Bytes) (remote : Hub κ)
    (text nick : Bytes) : Prop :=
  ∀ c ∈ remote.clients, (remote.peer c).isBridge = false →
    ∃ bytes f sent, (link, .ok bytes) ∈ handleMsg lang hub sender ⟨typeMsg, text⟩ ∧
      readFrame bytes = .ok (f, []) ∧ (c, sent) ∈ handleRelay lang peerNode remote f ∧
      Delivered lang sent nick text

/-- The nick survives being a NUL-terminated text, and the first hop fits a frame. -/
def Travels (lang : Lang) (join text : Bytes) : Prop :=
  0 ∉ join ∧ (lang = .rust → Utf8.Valid join) ∧ join.length + 1 + text.length ≤ 0xFFFF

section Hops

variable {lang : Lang} {hub : Hub ι} {sender : ι} {join text : Bytes}

theorem mem_handleMsg (registered : joined? lang ⟨typeJoin, join⟩ = some (hub.peer sender))
    (valid : Utf8.Valid text) (c : ι) (sent : Except FrameError Bytes) :
    (c, sent) ∈ handleMsg lang hub sender ⟨typeMsg, text⟩ ↔
      (c ∈ hub.clients ∧ c ≠ sender) ∧ sent = writeFrame (deliverFrame (lang.text join) text) := by
  have kept : lang.text text = text := (text_eq_self_iff lang text).mpr fun _ => valid
  have nick : (hub.peer sender).nick = lang.text join := by
    rw [joined?, if_pos rfl] at registered
    rw [← Option.some.inj registered]
  simp only [handleMsg, ne_eq, not_true_eq_false, ↓reduceIte, mem_broadcastDeliver, mem_targets,
    nick, kept, Option.some.injEq, Bool.true_eq_false, false_implies, and_true]
  constructor <;> rintro ⟨⟨member, other⟩, same⟩ <;>
    exact ⟨⟨member, fun equal => other equal.symm⟩, same⟩

theorem travels_iff (lang : Lang) (join text : Bytes) :
    Travels lang join text ↔
      (lang.text join).length + 1 + text.length ≤ 0xFFFF ∧ 0 ∉ lang.text join ∧
        lang.text join = join := by
  rw [Travels, mem_text_iff (by decide), ← text_eq_self_iff]
  constructor
  · rintro ⟨fresh, same, fits⟩
    exact ⟨by rwa [same], fresh, same⟩
  · rintro ⟨fits, fresh, same⟩
    exact ⟨fresh, same, by rwa [same] at fits⟩

theorem arrivesLocally_iff
    (registered : joined? lang ⟨typeJoin, join⟩ = some (hub.peer sender))
    (valid : Utf8.Valid text) :
    ArrivesLocally lang hub sender text join ↔
      ((∃ c ∈ hub.clients, c ≠ sender) → Travels lang join text) := by
  have kept : lang.text text = text := (text_eq_self_iff lang text).mpr fun _ => valid
  have hop : Delivered lang (writeFrame (deliverFrame (lang.text join) text)) join text ↔
      Travels lang join text := by
    rw [delivered_iff, split_text_iff lang kept, text_text, travels_iff]
  simp only [ArrivesLocally, mem_handleMsg registered valid]
  constructor
  · rintro arrives ⟨c, member, other⟩
    obtain ⟨sent, ⟨-, rfl⟩, delivered⟩ := arrives c member other
    exact hop.mp delivered
  · intro travels c member other
    exact ⟨_, ⟨⟨member, other⟩, rfl⟩, hop.mpr (travels ⟨c, member, other⟩)⟩

/-- A language's own strings are tagged into strings of that language. -/
theorem text_tag {peerNode nick : Bytes} (own : lang.text nick = nick)
    (named : lang.text peerNode = peerNode) :
    lang.text (tag peerNode nick) = tag peerNode nick := by
  unfold tag
  split
  · exact own
  · rw [text_append_cons (by decide), own, named]

theorem nul_not_mem_tag {peerNode nick : Bytes} (named : 0 ∉ peerNode) :
    0 ∉ tag peerNode nick ↔ 0 ∉ nick := by
  unfold tag
  split
  · rfl
  · simp [atSign, named]

theorem mem_handleRelay {peerNode : Bytes} {remote : Hub κ} {f : Frame} {c : κ}
    {sent : Except FrameError Bytes} :
    (c, sent) ∈ handleRelay lang peerNode remote f ↔
      ∃ nick text, relayed? lang peerNode f = some (nick, text) ∧
        (c ∈ remote.clients ∧ (remote.peer c).isBridge = false) ∧
        sent = writeFrame (deliverFrame nick text) := by
  unfold handleRelay
  split
  · next nick text relayed =>
    simp only [mem_broadcastDeliver, mem_targets, ne_eq, reduceCtorEq, not_false_eq_true,
      true_and, forall_const, relayed, Option.some.injEq, Prod.mk.injEq]
    constructor
    · rintro ⟨ordinary, rfl⟩
      exact ⟨nick, text, ⟨rfl, rfl⟩, ordinary, rfl⟩
    · rintro ⟨_, _, ⟨rfl, rfl⟩, ordinary, rfl⟩
      exact ⟨ordinary, rfl⟩
  · next absent => simp [absent]

/-- What the second hop shows, if the first one is written. -/
theorem relay_iff (join : Bytes) {peerNode : Bytes} (valid : lang.text text = text)
    (named : 0 ∉ peerNode) (own : lang.text peerNode = peerNode) (shown : Bytes) :
    (∃ nick seen, relayed? lang peerNode (deliverFrame (lang.text join) text) = some (nick, seen) ∧
        Delivered lang (writeFrame (deliverFrame nick seen)) shown text) ↔
      0 ∉ join ∧ tag peerNode (lang.text join) = shown ∧
        (tag peerNode (lang.text join)).length + 1 + text.length ≤ 0xFFFF := by
  have nul : 0 ∈ lang.text join ↔ 0 ∈ join := mem_text_iff (by decide) lang join
  have relayed : relayed? lang peerNode (deliverFrame (lang.text join) text) =
      (splitDeliver? lang (deliverPayload (lang.text join) text)).map fun parts =>
        (tag peerNode parts.1, parts.2) := rfl
  by_cases member : 0 ∈ join
  · -- the text that follows the first NUL is longer than the text that was sent
    simp only [member, not_true_eq_false, false_and, iff_false]
    rintro ⟨nick, seen, found, delivered⟩
    obtain ⟨rest, split⟩ := splitDeliver?_deliverPayload_of_mem (nul.mpr member) lang text
    rw [relayed, split, Option.map_some] at found
    cases found
    rw [delivered_iff] at delivered
    have fresh : 0 ∉ tag peerNode (lang.text (before 0 (lang.text join))) := by
      rw [nul_not_mem_tag named, mem_text_iff (by decide)]
      exact not_mem_before 0 _
    have same := delivered.2
    rw [splitDeliver?_deliverPayload fresh, text_text, text_append_cons (by decide), valid] at same
    have lengths := congrArg List.length (Prod.mk.inj (Option.some.inj same)).2
    simp only [List.length_append, List.length_cons] at lengths
    omega
  · have fresh := nul.not.mpr member
    have split := splitDeliver?_deliverPayload fresh lang text
    rw [text_text, valid] at split
    simp only [relayed, split, Option.map_some, Option.some.injEq, Prod.mk.injEq, member,
      not_false_eq_true, true_and]
    constructor
    · rintro ⟨_, _, ⟨rfl, rfl⟩, delivered⟩
      obtain ⟨fits, shows⟩ := (delivered_iff ..).mp delivered
      obtain ⟨-, same⟩ := (split_text_iff lang valid ..).mp shows
      rw [text_tag (text_text ..) own] at same
      exact ⟨same, fits⟩
    · rintro ⟨rfl, fits⟩
      refine ⟨_, _, ⟨rfl, rfl⟩, (delivered_iff ..).mpr ⟨fits, ?_⟩⟩
      exact (split_text_iff lang valid ..).mpr
        ⟨(nul_not_mem_tag named).mpr fresh, text_tag (text_text ..) own⟩

theorem tag_eq_append_iff {peerNode nick : Bytes} :
    tag peerNode nick = nick ++ atSign :: peerNode ↔ atSign ∉ nick := by
  unfold tag
  split
  · next marked =>
    simp only [marked, not_true_eq_false, iff_false]
    intro same
    have lengths := congrArg List.length same
    simp only [List.length_append, List.length_cons] at lengths
    omega
  · next unmarked => simp only [unmarked, not_false_eq_true]

/-- After the first hop fits, the second one fits unless a tag makes it too long. -/
theorem tag_fits_iff {peerNode : Bytes} (travels : Travels lang join text) :
    (tag peerNode join).length + 1 + text.length ≤ 0xFFFF ↔
      (atSign ∉ join → join.length + peerNode.length + text.length + 2 ≤ 0xFFFF) := by
  have first := travels.2.2
  unfold tag
  split
  · next marked => simp only [marked, not_true_eq_false, false_implies, first]
  · next unmarked =>
    simp only [unmarked, not_false_eq_true, forall_const, List.length_append, List.length_cons]
    omega

/-- Over a bridge the message shows as `shown` exactly when both hops fit and the first one
leaves the nick whole. -/
theorem arrivesOver_iff {link : ι} {peerNode : Bytes} (remote : Hub κ)
    (registered : joined? lang ⟨typeJoin, join⟩ = some (hub.peer sender))
    (linked : link ∈ hub.clients ∧ link ≠ sender) (valid : Utf8.Valid text)
    (named : 0 ∉ peerNode) (own : lang = .rust → Utf8.Valid peerNode) (shown : Bytes) :
    ArrivesOver lang hub sender link peerNode remote text shown ↔
      ((∃ c ∈ remote.clients, (remote.peer c).isBridge = false) →
        (lang.text join).length + 1 + text.length ≤ 0xFFFF ∧ 0 ∉ join ∧
          tag peerNode (lang.text join) = shown ∧
          (tag peerNode (lang.text join)).length + 1 + text.length ≤ 0xFFFF) := by
  have kept : lang.text text = text := (text_eq_self_iff lang text).mpr fun _ => valid
  have second := relay_iff join kept named ((text_eq_self_iff lang peerNode).mpr own) shown
  constructor
  · rintro arrives ⟨c, member, ordinary⟩
    obtain ⟨bytes, f, sent, first, read, relayed, delivered⟩ := arrives c member ordinary
    have written := ((mem_handleMsg registered valid ..).mp first).2.symm
    rw [read_of_written written] at read
    cases read
    obtain ⟨nick, seen, taken, -, rfl⟩ := mem_handleRelay.mp relayed
    have first := (writeFrame_eq_ok_iff.mp written).1
    rw [deliverFrame, length_deliverPayload] at first
    exact ⟨first, second.mp ⟨nick, seen, taken, delivered⟩⟩
  · intro fits c member ordinary
    obtain ⟨first, rest⟩ := fits ⟨c, member, ordinary⟩
    obtain ⟨nick, seen, taken, delivered⟩ := second.mpr rest
    have written : writeFrame (deliverFrame (lang.text join) text) =
        .ok (encode typeDeliver (deliverPayload (lang.text join) text)) :=
      writeFrame_eq_ok_iff.mpr ⟨by rwa [← length_deliverPayload] at first, rfl⟩
    exact ⟨_, _, _, (mem_handleMsg registered valid ..).mpr ⟨linked, written.symm⟩,
      read_of_written written, mem_handleRelay.mpr ⟨nick, seen, taken, ⟨member, ordinary⟩, rfl⟩,
      delivered⟩

end Hops

/-- A message arrives whole on its own node and over the bridge exactly when its nick has no
NUL, decodes to itself, and nick, tag and text fit a frame wherever there is someone to send to.
With the tag spelled out instead of left to `tag`, the nick must also be without an `@`. -/
theorem arrives_whole_iff {lang : Lang} {hub : Hub ι} {remote : Hub κ} {sender : ι}
    {link : Option ι} {join text peerNode : Bytes}
    (registered : joined? lang ⟨typeJoin, join⟩ = some (hub.peer sender))
    (linked : ∀ k ∈ link, k ∈ hub.clients ∧ k ≠ sender) (valid : Utf8.Valid text)
    (named : 0 ∉ peerNode) (own : lang = .rust → Utf8.Valid peerNode) :
    ((ArrivesLocally lang hub sender text join ∧
        ∀ k ∈ link, ArrivesOver lang hub sender k peerNode remote text (tag peerNode join)) ↔
      ((∃ c ∈ hub.clients, c ≠ sender) → Travels lang join text) ∧
        (link.isSome → (∃ c ∈ remote.clients, (remote.peer c).isBridge = false) →
          atSign ∉ join → join.length + peerNode.length + text.length + 2 ≤ 0xFFFF)) ∧
    ((ArrivesLocally lang hub sender text join ∧
        ∀ k ∈ link, ArrivesOver lang hub sender k peerNode remote text
          (join ++ atSign :: peerNode)) ↔
      ((∃ c ∈ hub.clients, c ≠ sender) → Travels lang join text) ∧
        (link.isSome → (∃ c ∈ remote.clients, (remote.peer c).isBridge = false) →
          atSign ∉ join ∧ join.length + peerNode.length + text.length + 2 ≤ 0xFFFF)) := by
  rw [arrivesLocally_iff registered valid]
  cases link with
  | none => simp
  | some k =>
    have across := arrivesOver_iff remote registered (linked k rfl) valid named own
    have reaches : (∃ c ∈ hub.clients, c ≠ sender) → Travels lang join text ↔
        Travels lang join text := by
      have other : ∃ c ∈ hub.clients, c ≠ sender := ⟨k, linked k rfl⟩
      exact ⟨fun travels => travels other, fun travels _ => travels⟩
    simp only [Option.mem_some_iff, forall_eq', Option.isSome_some, forall_const, across, reaches]
    constructor <;> refine and_congr_right fun travels => imp_congr_right fun _ => ?_
    all_goals
      have same := ((travels_iff ..).mp travels).2.2
      simp only [same, travels.1, travels.2.2, not_false_eq_true, true_and,
        tag_fits_iff travels, tag_eq_append_iff]
    exact and_congr_right fun unmarked => by simp only [unmarked, not_false_eq_true, forall_const]

/-- A short message crosses to a client of the other node. -/
theorem arrives_whole_ab :
    ArrivesLocally .cpp (⟨[0, 1], fun c => ⟨if c = 0 then [0x61] else bridgePrefix⟩⟩ : Hub ℕ)
        0 [0x62] [0x61] ∧
      ∀ k ∈ some 1, ArrivesOver .cpp
        (⟨[0, 1], fun c => ⟨if c = 0 then [0x61] else bridgePrefix⟩⟩ : Hub ℕ) 0 k [0x54]
        (⟨[0], fun _ => ⟨[0x63]⟩⟩ : Hub ℕ) [0x62] (tag [0x54] [0x61]) := by
  have valid : Utf8.Valid [0x62] := Utf8.valid_of_ascii (by simp)
  refine (arrives_whole_iff (by rfl) ?_ valid (by decide) (by simp)).1.mpr ⟨fun _ => ?_, ?_⟩
  · rintro k ⟨⟩
    decide
  · exact ⟨by decide, by simp, by decide⟩
  · intros
    decide

/-- The longest legal text from a client called `a` reaches nobody. -/
theorem not_arrives_long_text :
    Utf8.Valid (List.replicate 65535 0x62) ∧ (List.replicate 65535 (0x62 : UInt8)).length ≤ 65535 ∧
      joined? .cpp ⟨typeJoin, [0x61]⟩ = some ⟨[0x61]⟩ ∧
      ¬ ArrivesLocally .cpp (⟨[0, 1], fun _ => ⟨[0x61]⟩⟩ : Hub ℕ) 0 (List.replicate 65535 0x62)
        [0x61] := by
  have valid : Utf8.Valid (List.replicate 65535 0x62) := by
    refine Utf8.valid_of_ascii fun b member => ?_
    rw [List.eq_of_mem_replicate member]
    decide
  refine ⟨valid, List.length_replicate.le, rfl, ?_⟩
  rw [arrivesLocally_iff (by rfl) valid]
  intro arrives
  have fits := (arrives ⟨1, by decide, by decide⟩).2.2
  rw [List.length_replicate] at fits
  exact absurd fits (by decide)

end LinuxSys.Fleet
