import LinuxSys.Lib.Segmentation
import LinuxSys.Lib.Utf8

/-! # The chat frame

Magic `CH`, version 1, a type byte, a big-endian 16-bit payload length and the payload: the wire
format every chatterd chapter and all three languages share. `encode`, `takeFrame`,
`deliverPayload` and `splitDeliver` are those of the ch22 server and its clients. The length
field is written from the payload length without a check, as in the source. `wire` presents the
same grammar as a deframer, so that the general results on cutting a stream apply to it.
-/

namespace LinuxSys.Chatterd

open Lib

/-- The three implementations; they differ in how bytes become text. -/
inductive Lang where
  | cpp
  | rust
  | go
deriving DecidableEq, Repr

/-- `String::from_utf8_lossy` in Rust; C++ and Go strings keep the bytes. -/
def Lang.text : Lang → Bytes → Bytes
  | .rust, bytes => Utf8.lossy bytes
  | _, bytes => bytes

def magic0 : UInt8 := 0x43
def magic1 : UInt8 := 0x48
def version : UInt8 := 0x01

def typeJoin : UInt8 := 0x01
def typeMsg : UInt8 := 0x02
def typeDeliver : UInt8 := 0x03
def typeWelcome : UInt8 := 0x04

structure Frame where
  typ : UInt8
  payload : Bytes
deriving DecidableEq, Repr

/-- The six header bytes; the length field holds the payload length modulo 65536. -/
def header (typ : UInt8) (length : ℕ) : Bytes :=
  [magic0, magic1, version, typ, UInt8.ofNat (length >>> 8), UInt8.ofNat length]

def encode (typ : UInt8) (payload : Bytes) : Bytes := header typ payload.length ++ payload

def deliverPayload (nick text : Bytes) : Bytes := nick ++ 0 :: text

/-- Without a NUL the whole payload is the text of the unnamed nick. -/
def splitDeliver (lang : Lang) (payload : Bytes) : Bytes × Bytes :=
  match splitFirst? 0 payload with
  | some (nick, text) => (lang.text nick, lang.text text)
  | none => ([0x3F], lang.text payload)

/-- Pull one complete frame off the front of the buffer; a foreign header empties it. -/
def takeFrame : Bytes → Option Frame × Bytes
  | b0 :: b1 :: b2 :: typ :: b4 :: b5 :: rest =>
    if b0 ≠ magic0 ∨ b1 ≠ magic1 ∨ b2 ≠ version then (none, [])
    else if rest.length < be16 b4 b5 then (none, b0 :: b1 :: b2 :: typ :: b4 :: b5 :: rest)
    else (some ⟨typ, rest.take (be16 b4 b5)⟩, rest.drop (be16 b4 b5))
  | buf => (none, buf)

/-- What the front of a buffer shows, before anything is consumed. -/
def look : Bytes → Look Frame
  | b0 :: b1 :: b2 :: typ :: b4 :: b5 :: rest =>
    if b0 ≠ magic0 ∨ b1 ≠ magic1 ∨ b2 ≠ version then .desync
    else if rest.length < be16 b4 b5 then .more
    else .frame ⟨typ, rest.take (be16 b4 b5)⟩ (6 + be16 b4 b5)
  | _ => .more

/-- A frame is at the front exactly when the six header bytes and its payload are. -/
theorem look_eq_frame_iff {buf : Bytes} {f : Frame} {n : ℕ} :
    look buf = .frame f n ↔
      ∃ b4 b5 rest, buf = magic0 :: magic1 :: version :: f.typ :: b4 :: b5 :: rest ∧
        be16 b4 b5 ≤ rest.length ∧ f.payload = rest.take (be16 b4 b5) ∧ n = 6 + be16 b4 b5 := by
  constructor
  · intro seen
    unfold look at seen
    split at seen
    · next b0 b1 b2 typ b4 b5 rest =>
      split_ifs at seen with foreign short
      obtain ⟨rfl, rfl, rfl⟩ : b0 = magic0 ∧ b1 = magic1 ∧ b2 = version := by simpa using foreign
      obtain ⟨rfl, rfl⟩ := Look.frame.inj seen
      exact ⟨b4, b5, rest, rfl, by omega, rfl, rfl⟩
    · cases seen
  · rintro ⟨b4, b5, rest, rfl, fits, payload, rfl⟩
    simp only [look, ne_eq, not_true_eq_false, or_self, ↓reduceIte, if_neg (Nat.not_lt.mpr fits),
      ← payload]

/-- A buffer is out of step exactly when it has a whole header with a foreign magic or version. -/
theorem look_eq_desync_iff {buf : Bytes} :
    look buf = .desync ↔ 6 ≤ buf.length ∧ buf.take 3 ≠ [magic0, magic1, version] := by
  unfold look
  split
  · next b0 b1 b2 typ b4 b5 rest =>
    simp only [List.length_cons, List.take_succ_cons, List.take_zero, ne_eq, List.cons.injEq,
      and_true]
    split_ifs with foreign short
    · simp only [true_iff]
      exact ⟨by omega, by tauto⟩
    · simp only [false_iff]
      tauto
    · simp only [false_iff]
      tauto
  · next other =>
    simp only [reduceCtorEq, false_iff, not_and]
    intro long
    match buf, other, long with
    | b0 :: b1 :: b2 :: typ :: b4 :: b5 :: rest, other, _ =>
      exact absurd rfl (other b0 b1 b2 typ b4 b5 rest)

/-- The frame grammar as a deframer. -/
def wire : Deframer UInt8 Frame where
  look := look
  used_pos seen := by
    obtain ⟨b4, b5, rest, -, -, -, rfl⟩ := look_eq_frame_iff.mp seen
    omega
  used_le seen := by
    obtain ⟨b4, b5, rest, rfl, fits, -, rfl⟩ := look_eq_frame_iff.mp seen
    simp only [List.length_cons]
    omega
  frame_take seen := by
    obtain ⟨b4, b5, rest, rfl, fits, payload, rfl⟩ := look_eq_frame_iff.mp seen
    refine look_eq_frame_iff.mpr ⟨b4, b5, rest.take (be16 b4 b5), ?_, ?_, ?_, rfl⟩
    · rw [Nat.add_comm]
      rfl
    · rw [List.length_take]
      omega
    · rw [payload, List.take_take, Nat.min_self]
  frame_append later seen := by
    obtain ⟨b4, b5, rest, rfl, fits, payload, rfl⟩ := look_eq_frame_iff.mp seen
    refine look_eq_frame_iff.mpr ⟨b4, b5, rest ++ later, rfl, ?_, ?_, rfl⟩
    · rw [List.length_append]
      omega
    · rw [payload, List.take_append_of_le_length fits]
  desync_append later seen := by
    obtain ⟨long, foreign⟩ := look_eq_desync_iff.mp seen
    refine look_eq_desync_iff.mpr ⟨by rw [List.length_append]; omega, ?_⟩
    rwa [List.take_append_of_le_length (by omega)]

@[simp] theorem wire_look (buf : Bytes) : wire.look buf = look buf := rfl

/-- The source's `take_frame` is the pull of the deframer. -/
theorem takeFrame_eq_pull (buf : Bytes) : takeFrame buf = wire.pull buf := by
  unfold takeFrame Deframer.pull
  simp only [wire_look, look]
  split
  · next b0 b1 b2 typ b4 b5 rest =>
    split_ifs
    · rfl
    · rfl
    · rw [Nat.add_comm]
      rfl
  · rfl

/-- `while (auto fr = take_frame(buf))`: every frame the loop yields, and the buffer it leaves. -/
theorem drain_eq_takeFrame (buf : Bytes) :
    wire.drain buf =
      match takeFrame buf with
      | (none, rest) => ([], rest)
      | (some f, rest) => (f :: (wire.drain rest).1, (wire.drain rest).2) := by
  rw [takeFrame_eq_pull, wire.drain_eq_pull buf]
  rcases wire.pull buf with ⟨frame | frame, rest⟩ <;> rfl

theorem wire_look_nil : wire.look [] = .more := rfl

theorem stalled_nil : wire.Stalled [] := wire.stalled_of_more wire_look_nil

theorem parse_nil : wire.parse [] = ([], []) := wire.parse_of_stalled stalled_nil

/-- A written frame is read with its payload cut to the length field. -/
theorem look_encode (typ : UInt8) (payload later : Bytes) :
    wire.look (encode typ payload ++ later) =
      .frame ⟨typ, payload.take (payload.length % 65536)⟩ (6 + payload.length % 65536) := by
  rw [wire_look]
  refine look_eq_frame_iff.mpr ⟨_, _, payload ++ later, rfl, ?_, ?_, ?_⟩
  · rw [be16_ofNat, List.length_append]
    have := Nat.mod_le payload.length 65536
    omega
  · rw [be16_ofNat, List.take_append_of_le_length (Nat.mod_le ..)]
  · rw [be16_ofNat]

/-- A payload that fits the field is read back whole, and parsing goes on behind it. -/
theorem parse_encode {typ : UInt8} {payload : Bytes} (fits : payload.length < 65536)
    (later : Bytes) :
    wire.parse (encode typ payload ++ later) =
      (⟨typ, payload⟩ :: (wire.parse later).1, (wire.parse later).2) := by
  have seen := look_encode typ payload later
  rw [Nat.mod_eq_of_lt fits, List.take_length] at seen
  have width : (encode typ payload).length = 6 + payload.length := by
    simp only [encode, header, List.length_append, List.length_cons, List.length_nil]
  rw [wire.parse_of_frame seen, List.drop_left' width]

theorem parse_encode_single {typ : UInt8} {payload : Bytes} (fits : payload.length < 65536) :
    wire.parse (encode typ payload) = ([⟨typ, payload⟩], []) := by
  rw [← List.append_nil (encode typ payload), parse_encode fits, parse_nil]

/-- Bytes that end with a whole frame leave the reader in step. -/
theorem inStep_of_left_nil {bytes : Bytes} (left : (wire.parse bytes).2 = []) :
    wire.InStep bytes := by
  rw [Deframer.InStep, left, wire_look_nil]
  exact fun impossible => by cases impossible

end LinuxSys.Chatterd
