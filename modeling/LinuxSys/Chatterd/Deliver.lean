import LinuxSys.Chatterd.Wire

/-! # What a client decodes from a sequence of broadcasts

The ch22 server re-frames every MSG as a DELIVER whose payload is the nick, a NUL and the text,
and writes the payload length to a 16-bit field without a check. A client reads back exactly the
broadcasts, however the stream is cut, precisely when every re-framed payload still fits the
field (and, where Rust decodes, is valid UTF-8). The first broadcast that does not fit is already
read as something else.
-/

namespace LinuxSys.Chatterd

open Lib

/-- What the server keeps of a JOIN payload. -/
def nickOf (server : Lang) (join : Bytes) : Bytes := server.text join

/-- The bytes the server queues for one broadcast. -/
def broadcastBytes (server : Lang) (pair : Bytes × Bytes) : Bytes :=
  encode typeDeliver (deliverPayload (nickOf server pair.1) pair.2)

/-- The frames a client reads and how its stream ends: Go gives up on a foreign header, the other
two empty the buffer. -/
def receive (receiver : Lang) (chunks : List Bytes) : List Frame × Deframer.End UInt8 :=
  match receiver with
  | .go => wire.feedOrStop [] chunks
  | _ => ((wire.feed [] chunks).1, .eof (wire.feed [] chunks).2)

/-- However the stream is cut, the client reads exactly these DELIVERs and nothing is left. -/
def Decodes (receiver : Lang) (stream : Bytes) (pairs : List (Bytes × Bytes)) : Prop :=
  ∀ chunks : List Bytes, chunks.flatten = stream →
    (receive receiver chunks).1.map (fun f => (f.typ, splitDeliver receiver f.payload)) =
        pairs.map (fun pair => (typeDeliver, pair)) ∧
      (receive receiver chunks).2 = .eof []

/-- The re-framed payload fits the length field, and what Rust decodes is valid UTF-8. -/
def Fits (server receiver : Lang) (pair : Bytes × Bytes) : Prop :=
  pair.1.length + 1 + pair.2.length ≤ 65535 ∧
    (server = .rust ∨ receiver = .rust → Utf8.Valid pair.1) ∧
    (receiver = .rust → Utf8.Valid pair.2)

theorem text_eq_self_iff (lang : Lang) (bytes : Bytes) :
    lang.text bytes = bytes ↔ (lang = .rust → Utf8.Valid bytes) := by
  cases lang <;> simp [Lang.text, Utf8.lossy_eq_self_iff]

theorem mem_text_iff {c : UInt8} (ascii : c ≤ 0x7F) (lang : Lang) (bytes : Bytes) :
    c ∈ lang.text bytes ↔ c ∈ bytes := by
  cases lang with
  | rust => exact Utf8.mem_lossy_iff ascii bytes
  | cpp => rfl
  | go => rfl

theorem text_text (lang : Lang) (bytes : Bytes) :
    lang.text (lang.text bytes) = lang.text bytes := by
  cases lang with
  | rust => exact Utf8.lossy_lossy bytes
  | cpp => rfl
  | go => rfl

/-- A client shows the joined nick only if neither side changed a byte of it. -/
theorem text_nickOf_eq_iff (server receiver : Lang) (join : Bytes) :
    receiver.text (nickOf server join) = join ↔
      (server = .rust ∨ receiver = .rust → Utf8.Valid join) := by
  constructor
  · intro shown changed
    have same : nickOf server join = join := by
      rcases changed with rfl | rfl
      · have twice : receiver.text (nickOf .rust join) = nickOf .rust join := by
          cases receiver with
          | rust => exact text_text .rust join
          | cpp => rfl
          | go => rfl
        exact twice.symm.trans shown
      · have valid : Utf8.Valid join := by
          rw [← shown]
          exact Utf8.valid_lossy _
        exact (text_eq_self_iff server join).mpr fun _ => valid
    rcases changed with rfl | rfl
    · exact Utf8.valid_of_lossy same
    · rw [same] at shown
      exact Utf8.valid_of_lossy shown
  · intro valid
    have kept : nickOf server join = join :=
      (text_eq_self_iff server join).mpr fun rust => valid (.inl rust)
    rw [kept]
    exact (text_eq_self_iff receiver join).mpr fun rust => valid (.inr rust)

theorem nickOf_of_shown {server receiver : Lang} {join : Bytes}
    (shown : receiver.text (nickOf server join) = join) : nickOf server join = join :=
  (text_eq_self_iff server join).mpr fun rust =>
    (text_nickOf_eq_iff server receiver join).mp shown (.inl rust)

theorem length_deliverPayload (nick text : Bytes) :
    (deliverPayload nick text).length = nick.length + 1 + text.length := by
  simp only [deliverPayload, List.length_append, List.length_cons]
  omega

theorem splitDeliver_deliverPayload {nick : Bytes} (fresh : 0 ∉ nick) (lang : Lang)
    (text : Bytes) :
    splitDeliver lang (deliverPayload nick text) = (lang.text nick, lang.text text) := by
  simp only [splitDeliver, deliverPayload, splitFirst?_append fresh]

/-- A fitting pair is re-framed into a payload the field can hold. -/
theorem length_of_fits {server receiver : Lang} {pair : Bytes × Bytes}
    (fits : Fits server receiver pair) :
    (deliverPayload (nickOf server pair.1) pair.2).length < 65536 := by
  have shown := (text_nickOf_eq_iff server receiver pair.1).mpr fits.2.1
  have bound := fits.1
  rw [length_deliverPayload, nickOf_of_shown shown]
  omega

/-- A cut inside the nick leaves no NUL: the text of the unnamed nick is a piece of it. -/
private theorem splitDeliver_cut_nick {nick : Bytes} (fresh : 0 ∉ nick) (lang : Lang)
    (text : Bytes) {k : ℕ} (inside : k ≤ nick.length) :
    splitDeliver lang ((deliverPayload nick text).take k) = ([0x3F], lang.text (nick.take k)) := by
  have absent : splitFirst? 0 (nick.take k) = none :=
    splitFirst?_eq_none_iff.mpr fun member => fresh (List.mem_of_mem_take member)
  simp only [splitDeliver, deliverPayload, List.take_append_of_le_length inside, absent]

private theorem length_text_question (lang : Lang) (k : ℕ) :
    (lang.text (([0x3F] : Bytes).take k)).length ≤ 1 := by
  have valid : Utf8.Valid (([0x3F] : Bytes).take k) := by
    cases k with
    | zero => exact Utf8.valid_nil
    | succ k =>
      rw [List.take_succ_cons, List.take_nil]
      exact (Utf8.valid_cons_of_some (Utf8.lead_ascii (by decide))).mpr ⟨rfl, Utf8.valid_nil⟩
  rw [(text_eq_self_iff lang _).mpr fun _ => valid, List.length_take]
  exact Nat.min_le_right ..

/-- The receiver sees the pair in the cut payload exactly when the payload was not cut and no
byte of it was changed. -/
theorem splitDeliver_cut_iff (server receiver : Lang) {join text : Bytes} (fresh : 0 ∉ join)
    (joinBound : join.length ≤ 65535) (textBound : text.length ≤ 65535) :
    splitDeliver receiver ((deliverPayload (nickOf server join) text).take
        ((deliverPayload (nickOf server join) text).length % 65536)) = (join, text) ↔
      Fits server receiver (join, text) := by
  have freshNick : 0 ∉ nickOf server join := fun member =>
    fresh ((mem_text_iff (by decide) server join).mp member)
  constructor
  · intro split
    by_cases whole : (deliverPayload (nickOf server join) text).length < 65536
    · rw [Nat.mod_eq_of_lt whole, List.take_length, splitDeliver_deliverPayload freshNick] at split
      obtain ⟨shown, kept⟩ := Prod.mk.inj split
      rw [length_deliverPayload, nickOf_of_shown shown] at whole
      exact ⟨by dsimp only; omega, (text_nickOf_eq_iff server receiver join).mp shown,
        (text_eq_self_iff receiver text).mp kept⟩
    · exfalso
      have size := length_deliverPayload (nickOf server join) text
      by_cases inside : (deliverPayload (nickOf server join) text).length % 65536 ≤
          (nickOf server join).length
      · -- the cut nick is read as text, so the nick must be the unnamed one and the text short
        rw [splitDeliver_cut_nick freshNick receiver text inside] at split
        obtain ⟨rfl, short⟩ := Prod.mk.inj split
        have named : nickOf server [0x3F] = [0x3F] := (text_eq_self_iff server _).mpr fun _ =>
          (Utf8.valid_cons_of_some (Utf8.lead_ascii (by decide))).mpr ⟨rfl, Utf8.valid_nil⟩
        rw [named] at short size
        have small := length_text_question receiver
          ((deliverPayload [0x3F] text).length % 65536)
        rw [short] at small
        rw [named] at whole
        simp only [List.length_cons, List.length_nil] at size
        omega
      · -- the NUL survives the cut, but then the two lengths cannot reach 65536
        have parts : (deliverPayload (nickOf server join) text).take
            ((deliverPayload (nickOf server join) text).length % 65536) =
              deliverPayload (nickOf server join) (text.take
                ((deliverPayload (nickOf server join) text).length % 65536 -
                  (nickOf server join).length - 1)) := by
          obtain ⟨k, equal⟩ := Nat.exists_eq_add_of_lt (Nat.not_le.mp inside)
          rw [equal, Nat.add_assoc, Nat.add_sub_cancel_left, Nat.add_sub_cancel]
          simp only [deliverPayload]
          rw [List.take_length_add_append, List.take_succ_cons]
        rw [parts, splitDeliver_deliverPayload freshNick] at split
        have same := nickOf_of_shown (Prod.mk.inj split).1
        rw [same] at inside size whole
        omega
  · intro fits
    have shown := (text_nickOf_eq_iff server receiver join).mpr fits.2.1
    rw [Nat.mod_eq_of_lt (length_of_fits fits), List.take_length,
      splitDeliver_deliverPayload freshNick, shown,
      (text_eq_self_iff receiver text).mpr fits.2.2]

/-- The whole stream parses to the pairs exactly when every pair fits. -/
theorem parse_broadcasts_iff (server receiver : Lang) (pairs : List (Bytes × Bytes))
    (inputs : ∀ pair ∈ pairs, 0 ∉ pair.1 ∧ pair.1.length ≤ 65535 ∧ pair.2.length ≤ 65535) :
    (wire.parse (pairs.flatMap (broadcastBytes server))).1.map
        (fun f => (f.typ, splitDeliver receiver f.payload)) =
      pairs.map (fun pair => (typeDeliver, pair)) ↔ ∀ pair ∈ pairs, Fits server receiver pair := by
  induction pairs with
  | nil =>
    rw [List.flatMap_nil, parse_nil]
    simp
  | cons pair rest ih =>
    obtain ⟨fresh, joinBound, textBound⟩ := inputs pair (List.mem_cons_self ..)
    have tail := ih fun other member => inputs other (List.mem_cons_of_mem _ member)
    have headIff := splitDeliver_cut_iff server receiver fresh joinBound textBound
    rw [List.forall_mem_cons, List.flatMap_cons, ← tail]
    constructor
    · intro decoded
      have seen : wire.look (broadcastBytes server pair ++ rest.flatMap (broadcastBytes server)) =
          _ := look_encode typeDeliver (deliverPayload (nickOf server pair.1) pair.2) _
      have fits : Fits server receiver pair := by
        rw [wire.parse_of_frame seen, List.map_cons, List.map_cons] at decoded
        exact headIff.mp (Prod.mk.inj (List.cons.inj decoded).1).2
      rw [broadcastBytes, parse_encode (length_of_fits fits)] at decoded
      exact ⟨fits, (List.cons.inj decoded).2⟩
    · rintro ⟨fits, decoded⟩
      have shown := headIff.mpr fits
      rw [Nat.mod_eq_of_lt (length_of_fits fits), List.take_length] at shown
      rw [broadcastBytes, parse_encode (length_of_fits fits), List.map_cons, List.map_cons,
        decoded, shown]

/-- A stream of fitting broadcasts ends with its last frame. -/
theorem parse_broadcasts_left {server receiver : Lang} {pairs : List (Bytes × Bytes)}
    (fits : ∀ pair ∈ pairs, Fits server receiver pair) :
    (wire.parse (pairs.flatMap (broadcastBytes server))).2 = [] := by
  induction pairs with
  | nil => rw [List.flatMap_nil, parse_nil]
  | cons pair rest ih =>
    rw [List.flatMap_cons, broadcastBytes,
      parse_encode (length_of_fits (fits pair (List.mem_cons_self ..)))]
    exact ih fun other member => fits other (List.mem_cons_of_mem _ member)

theorem receive_whole (receiver : Lang) (stream : Bytes) :
    (receive receiver [stream]).1 = (wire.parse stream).1 := by
  have fed : (wire.feed [] [stream]).1 = (wire.parse stream).1 := by
    simp only [Deframer.feed, wire.drain_eq, List.nil_append, List.append_nil]
  cases receiver with
  | cpp => exact fed
  | rust => exact fed
  | go =>
    change (wire.feedOrStop [] [stream]).1 = _
    rw [Deframer.feedOrStop_frames]
    simp only [List.nil_append, List.flatten_cons, List.flatten_nil, List.append_nil]

theorem receive_of_inStep (receiver : Lang) {chunks : List Bytes}
    (step : wire.InStep chunks.flatten) :
    receive receiver chunks =
      ((wire.parse chunks.flatten).1, .eof (wire.parse chunks.flatten).2) := by
  have whole : wire.InStep ([] ++ chunks.flatten) := by rwa [List.nil_append]
  have fed := Deframer.feed_of_inStep chunks [] whole stalled_nil
  rw [List.nil_append] at fed
  cases receiver with
  | cpp => simp only [receive, fed]
  | rust => simp only [receive, fed]
  | go =>
    have stopped := Deframer.feedOrStop_of_inStep chunks [] whole
    rwa [List.nil_append] at stopped

/-- A client decodes exactly the broadcasts, however the stream is cut, exactly when every
re-framed payload fits the length field (and is valid UTF-8 where Rust decodes it). -/
theorem decodes_broadcasts_iff (server receiver : Lang) (pairs : List (Bytes × Bytes))
    (inputs : ∀ pair ∈ pairs, 0 ∉ pair.1 ∧ pair.1.length ≤ 65535 ∧ pair.2.length ≤ 65535) :
    Decodes receiver (pairs.flatMap (broadcastBytes server)) pairs ↔
      ∀ pair ∈ pairs, Fits server receiver pair := by
  rw [← parse_broadcasts_iff server receiver pairs inputs]
  constructor
  · intro decodes
    have whole := (decodes [pairs.flatMap (broadcastBytes server)] (by simp)).1
    rwa [receive_whole] at whole
  · intro decoded chunks equal
    have fits := (parse_broadcasts_iff server receiver pairs inputs).mp decoded
    have left := parse_broadcasts_left fits
    have step : wire.InStep chunks.flatten := inStep_of_left_nil (by rw [equal, left])
    rw [receive_of_inStep receiver step, equal]
    exact ⟨decoded, by rw [left]⟩

/-- One fitting broadcast. -/
theorem decodes_broadcasts_iff_ab :
    Decodes .cpp ([([0x61], [0x62])].flatMap (broadcastBytes .cpp)) [([0x61], [0x62])] :=
  (decodes_broadcasts_iff .cpp .cpp [([0x61], [0x62])] (by decide)).mpr (by
    intro pair member
    obtain rfl := List.mem_singleton.mp member
    exact ⟨by decide, by simp, by simp⟩)

private theorem not_decodes_of_not_fits {server receiver : Lang} {pair : Bytes × Bytes}
    (fresh : 0 ∉ pair.1) (joinBound : pair.1.length ≤ 65535) (textBound : pair.2.length ≤ 65535)
    (overflow : ¬ Fits server receiver pair) :
    ¬ Decodes receiver (broadcastBytes server pair) [pair] := by
  intro decodes
  have whole := (decodes [broadcastBytes server pair] (by simp)).1
  have inputs : ∀ other ∈ [pair],
      0 ∉ other.1 ∧ other.1.length ≤ 65535 ∧ other.2.length ≤ 65535 := by
    intro other member
    obtain rfl := List.mem_singleton.mp member
    exact ⟨fresh, joinBound, textBound⟩
  have stream : broadcastBytes server pair = [pair].flatMap (broadcastBytes server) := by
    rw [List.flatMap_cons, List.flatMap_nil, List.append_nil]
  rw [receive_whole, stream, parse_broadcasts_iff server receiver [pair] inputs] at whole
  exact overflow (whole pair (List.mem_singleton_self _))

/-- A text of 65535 bytes does not fit behind a nick of one byte. -/
private theorem not_decodes_of_length {text : Bytes} (long : text.length = 65535) :
    ¬ Decodes .cpp (broadcastBytes .cpp ([0x61], text)) [([0x61], text)] := by
  refine not_decodes_of_not_fits (by simp) (by simp) long.le ?_
  intro fits
  have bound := fits.1
  simp only [long, List.length_cons, List.length_nil] at bound
  omega

/-- A legal nick and a legal text whose DELIVER wraps the length field to 1. -/
theorem not_decodes_long_text :
    ¬ Decodes .cpp (broadcastBytes .cpp ([0x61], List.replicate 65535 0x62))
      [([0x61], List.replicate 65535 0x62)] :=
  not_decodes_of_length List.length_replicate

end LinuxSys.Chatterd
