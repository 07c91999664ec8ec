import LinuxSys.Chatterd.Deliver

/-! # The frame reader and writer of the fleet

The ch41 programs share the wire format of ch22 but not its reader and writer: `writeFrame`
refuses a payload above 65535 bytes, `readFrame` blocks for one whole frame and fails on a
foreign header, and `splitDeliver?` fails on a payload without a NUL. A frame that is written is
read back, with whatever follows it left for the next read.
-/

namespace LinuxSys.Fleet

open Lib Chatterd

/-- Why a frame is not written, or not read. -/
inductive FrameError where
  | tooLarge
  | short
  | badMagic
deriving DecidableEq, Repr

/-- The bytes `write_frame` puts on the socket. -/
def writeFrame (f : Frame) : Except FrameError Bytes :=
  if f.payload.length > 0xFFFF then .error .tooLarge
  else .ok (header f.typ f.payload.length ++ f.payload)

/-- One frame off the front of what the socket delivers, and what is left to read. -/
def readFrame : Bytes → Except FrameError (Frame × Bytes)
  | b0 :: b1 :: b2 :: typ :: b4 :: b5 :: rest =>
    if b0 ≠ magic0 ∨ b1 ≠ magic1 ∨ b2 ≠ version then .error .badMagic
    else if rest.length < be16 b4 b5 then .error .short
    else .ok (⟨typ, rest.take (be16 b4 b5)⟩, rest.drop (be16 b4 b5))
  | _ => .error .short

/-- Reverses `deliverPayload`; `none` if there is no NUL. -/
def splitDeliver? (lang : Lang) (payload : Bytes) : Option (Bytes × Bytes) :=
  (splitFirst? 0 payload).map fun parts => (lang.text parts.1, lang.text parts.2)

/-- The blocking reader sees what the buffering reader of ch22 sees. -/
theorem readFrame_eq_ok_iff {bytes rest : Bytes} {f : Frame} :
    readFrame bytes = .ok (f, rest) ↔ ∃ n, look bytes = .frame f n ∧ rest = bytes.drop n := by
  unfold readFrame look
  split
  · next b0 b1 b2 typ b4 b5 later =>
    by_cases foreign : b0 ≠ magic0 ∨ b1 ≠ magic1 ∨ b2 ≠ version
    · simp only [if_pos foreign, reduceCtorEq, false_and, exists_const]
    · by_cases short : later.length < be16 b4 b5
      · simp only [if_neg foreign, if_pos short, reduceCtorEq, false_and, exists_const]
      · simp only [if_neg foreign, if_neg short, Except.ok.injEq, Prod.mk.injEq,
          Look.frame.injEq]
        constructor
        · rintro ⟨rfl, rfl⟩
          exact ⟨_, ⟨rfl, rfl⟩, by rw [Nat.add_comm]; rfl⟩
        · rintro ⟨n, ⟨rfl, rfl⟩, rfl⟩
          exact ⟨rfl, by rw [Nat.add_comm]; rfl⟩
  · simp only [reduceCtorEq, false_and, exists_const]

theorem writeFrame_eq_ok_iff {f : Frame} {bytes : Bytes} :
    writeFrame f = .ok bytes ↔ f.payload.length ≤ 0xFFFF ∧ bytes = encode f.typ f.payload := by
  unfold writeFrame encode
  split_ifs with large
  · simp only [false_iff, not_and]
    omega
  · simp only [Except.ok.injEq]
    constructor
    · rintro rfl
      exact ⟨by omega, rfl⟩
    · rintro ⟨-, rfl⟩
      rfl

/-- A written frame is read back, and the bytes behind it are left. -/
theorem readFrame_writeFrame {f : Frame} {bytes : Bytes} (written : writeFrame f = .ok bytes)
    (later : Bytes) : readFrame (bytes ++ later) = .ok (f, later) := by
  obtain ⟨fits, rfl⟩ := writeFrame_eq_ok_iff.mp written
  have seen := look_encode f.typ f.payload later
  rw [Nat.mod_eq_of_lt (by omega), List.take_length, wire_look] at seen
  have width : (encode f.typ f.payload).length = 6 + f.payload.length := by
    simp only [encode, header, List.length_append, List.length_cons, List.length_nil]
  exact readFrame_eq_ok_iff.mpr ⟨_, seen, (List.drop_left' width).symm⟩

/-- The frames a reader takes off a stream until the first error. -/
def readFrames (bytes : Bytes) : List Frame :=
  match _seen : readFrame bytes with
  | .ok (f, rest) => f :: readFrames rest
  | .error _ => []
termination_by bytes.length
decreasing_by
  obtain ⟨n, front, rfl⟩ := readFrame_eq_ok_iff.mp _seen
  have some := wire.used_pos front
  have within := wire.used_le front
  rw [List.length_drop]
  omega

theorem readFrames_of_ok {bytes rest : Bytes} {f : Frame}
    (seen : readFrame bytes = .ok (f, rest)) : readFrames bytes = f :: readFrames rest := by
  rw [readFrames]
  split
  · next g left again =>
    rw [seen] at again
    cases again
    rfl
  · next failed =>
    rw [seen] at failed
    cases failed

/-- A stream of written frames is read back frame by frame. -/
theorem readFrames_flatten {frames : List Frame}
    (fit : ∀ f ∈ frames, f.payload.length ≤ 0xFFFF) :
    readFrames (frames.map fun f => encode f.typ f.payload).flatten = frames := by
  induction frames with
  | nil =>
    rw [readFrames]
    rfl
  | cons f rest ih =>
    have written := writeFrame_eq_ok_iff.mpr ⟨fit f (List.mem_cons_self ..), rfl⟩
    rw [List.map_cons, List.flatten_cons, readFrames_of_ok (readFrame_writeFrame written _),
      ih fun g member => fit g (List.mem_cons_of_mem _ member)]

theorem splitDeliver?_deliverPayload {nick : Bytes} (fresh : 0 ∉ nick) (lang : Lang)
    (text : Bytes) :
    splitDeliver? lang (deliverPayload nick text) = some (lang.text nick, lang.text text) := by
  simp only [splitDeliver?, deliverPayload, splitFirst?_append fresh, Option.map_some]

/-- A DELIVER always splits, at the first NUL of its nick if it has one. -/
theorem splitDeliver?_deliverPayload_of_mem {nick : Bytes} (nul : 0 ∈ nick) (lang : Lang)
    (text : Bytes) :
    ∃ rest, splitDeliver? lang (deliverPayload nick text) =
      some (lang.text (before 0 nick), lang.text (rest ++ 0 :: text)) := by
  cases found : splitFirst? 0 nick with
  | none => exact absurd nul (splitFirst?_eq_none_iff.mp found)
  | some parts =>
    obtain ⟨front, rest⟩ := parts
    obtain ⟨rfl, fresh⟩ := splitFirst?_eq_some_iff.mp found
    refine ⟨rest, ?_⟩
    have first : before 0 (front ++ 0 :: rest) = front := by
      simp only [before, splitFirst?_append fresh]
    simp only [splitDeliver?, deliverPayload, List.append_assoc, List.cons_append,
      splitFirst?_append fresh, first, Option.map_some]

end LinuxSys.Fleet
