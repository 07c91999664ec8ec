import Mathlib.Data.List.Basic

/-! # Incremental deframing of a byte stream

A deframer looks at the front of a buffer and sees a whole frame, too few bytes, or bytes no
frame starts with. Both verdicts that end the wait survive the arrival of more bytes. A receiver
appends each chunk to its buffer and takes frames until none comes. Two receivers are described:
one empties the buffer when it is out of step, the other gives up. The frames of a receiver that
empties its buffer depend on the bytes alone exactly when no frame lies behind a cut at which
the buffer would have been emptied.
-/

namespace LinuxSys.Lib

/-- What is at the front of a buffer. -/
inductive Look (φ : Type*) where
  | more
  | desync
  | frame (f : φ) (used : ℕ)
deriving DecidableEq, Repr

/-- A frame grammar read from the front; a frame is determined by the bytes it
uses, and no verdict but the wait changes when bytes are appended. -/
structure Deframer (α : Type*) (φ : Type*) where
  look : List α → Look φ
  used_pos : ∀ {buf f n}, look buf = .frame f n → 0 < n
  used_le : ∀ {buf f n}, look buf = .frame f n → n ≤ buf.length
  frame_take : ∀ {buf f n}, look buf = .frame f n → look (buf.take n) = .frame f n
  frame_append : ∀ {buf f n} (later), look buf = .frame f n → look (buf ++ later) = .frame f n
  desync_append : ∀ {buf} (later), look buf = .desync → look (buf ++ later) = .desync

namespace Deframer

variable {α φ : Type*} (d : Deframer α φ)

theorem length_drop_lt {buf : List α} {f : φ} {n : ℕ} (seen : d.look buf = .frame f n) :
    (buf.drop n).length < buf.length := by
  have positive := d.used_pos seen
  have bound := d.used_le seen
  simp only [List.length_drop]
  omega

/-- Take one frame off the front; out of step, the whole buffer is dropped. -/
def pull (buf : List α) : Option φ × List α :=
  match d.look buf with
  | .more => (none, buf)
  | .desync => (none, [])
  | .frame f n => (some f, buf.drop n)

/-- The frames at the front of the bytes, and the bytes from which no frame was read. -/
def parse (buf : List α) : List φ × List α :=
  match _seen : d.look buf with
  | .frame f n => (f :: (parse (buf.drop n)).1, (parse (buf.drop n)).2)
  | .more => ([], buf)
  | .desync => ([], buf)
termination_by buf.length
decreasing_by all_goals exact d.length_drop_lt _seen

/-- Take frames until none comes. -/
def drain (buf : List α) : List φ × List α :=
  match _seen : d.look buf with
  | .frame f n => (f :: (drain (buf.drop n)).1, (drain (buf.drop n)).2)
  | .more => ([], buf)
  | .desync => ([], [])
termination_by buf.length
decreasing_by all_goals exact d.length_drop_lt _seen

/-- Append each chunk and drain: the frames taken and the bytes left in the buffer. -/
def feed : List α → List (List α) → List φ × List α
  | buf, [] => ([], buf)
  | buf, chunk :: rest =>
    ((d.drain (buf ++ chunk)).1 ++ (feed (d.drain (buf ++ chunk)).2 rest).1,
      (feed (d.drain (buf ++ chunk)).2 rest).2)

/-- How a receiver that gives up when out of step ends: the stream closed with bytes left over,
or it stopped reading. -/
inductive End (α : Type*) where
  | eof (left : List α)
  | desync
deriving DecidableEq, Repr

/-- Append each chunk and read frames, giving up when out of step. -/
def feedOrStop : List α → List (List α) → List φ × End α
  | buf, chunks =>
    match d.look (d.parse buf).2 with
    | .desync => ((d.parse buf).1, .desync)
    | _ =>
      match chunks with
      | [] => ((d.parse buf).1, .eof (d.parse buf).2)
      | chunk :: rest =>
        ((d.parse buf).1 ++ (feedOrStop ((d.parse buf).2 ++ chunk) rest).1,
          (feedOrStop ((d.parse buf).2 ++ chunk) rest).2)

/-- No verdict that a frame is complete: the receiver waits or is out of step. -/
def Stalled (buf : List α) : Prop := ∀ f n, d.look buf ≠ .frame f n

theorem parse_of_frame {buf : List α} {f : φ} {n : ℕ} (seen : d.look buf = .frame f n) :
    d.parse buf = (f :: (d.parse (buf.drop n)).1, (d.parse (buf.drop n)).2) := by
  rw [parse]
  split
  · next g k other =>
    rw [seen] at other
    cases other
    rfl
  · next other => rw [seen] at other; cases other
  · next other => rw [seen] at other; cases other

theorem parse_of_stalled {buf : List α} (stalled : d.Stalled buf) : d.parse buf = ([], buf) := by
  rw [parse]
  split
  · next f n seen => exact absurd seen (stalled f n)
  · rfl
  · rfl

theorem drain_of_frame {buf : List α} {f : φ} {n : ℕ} (seen : d.look buf = .frame f n) :
    d.drain buf = (f :: (d.drain (buf.drop n)).1, (d.drain (buf.drop n)).2) := by
  rw [drain]
  split
  · next g k other =>
    rw [seen] at other
    cases other
    rfl
  · next other => rw [seen] at other; cases other
  · next other => rw [seen] at other; cases other

theorem stalled_of_more {buf : List α} (seen : d.look buf = .more) : d.Stalled buf := by
  intro f n other
  rw [seen] at other
  cases other

theorem stalled_of_desync {buf : List α} (seen : d.look buf = .desync) : d.Stalled buf := by
  intro f n other
  rw [seen] at other
  cases other

/-- Induction along the frames at the front of a buffer. -/
theorem frames_induction {motive : List α → Prop}
    (stalled : ∀ buf, d.Stalled buf → motive buf)
    (frame : ∀ buf f n, d.look buf = .frame f n → motive (buf.drop n) → motive buf)
    (buf : List α) : motive buf := by
  induction h : buf.length using Nat.strongRecOn generalizing buf with
  | ind length ih =>
    subst h
    cases seen : d.look buf with
    | more => exact stalled buf (d.stalled_of_more seen)
    | desync => exact stalled buf (d.stalled_of_desync seen)
    | frame f n => exact frame buf f n seen (ih _ (d.length_drop_lt seen) _ rfl)

theorem parse_tail_stalled (buf : List α) : d.Stalled (d.parse buf).2 := by
  induction buf using d.frames_induction with
  | stalled buf stalled => rwa [d.parse_of_stalled stalled]
  | frame buf f n seen ih => rwa [d.parse_of_frame seen]

/-- The bytes consumed by the frames at the front do not depend on what follows them. -/
theorem parse_split (buf : List α) :
    ∃ front, buf = front ++ (d.parse buf).2 ∧
      ∀ later, d.parse (front ++ later) =
        ((d.parse buf).1 ++ (d.parse later).1, (d.parse later).2) := by
  induction buf using d.frames_induction with
  | stalled buf stalled =>
    rw [d.parse_of_stalled stalled]
    exact ⟨[], rfl, fun later => rfl⟩
  | frame buf f n seen ih =>
    obtain ⟨front, equal, follows⟩ := ih
    have width : (buf.take n).length = n := by
      rw [List.length_take, Nat.min_eq_left (d.used_le seen)]
    rw [d.parse_of_frame seen]
    refine ⟨buf.take n ++ front, ?_, fun later => ?_⟩
    · rw [List.append_assoc, ← equal, List.take_append_drop]
    · have whole : d.look (buf.take n ++ (front ++ later)) = .frame f n :=
        d.frame_append _ (d.frame_take seen)
      rw [List.append_assoc, d.parse_of_frame whole, List.drop_left' width, follows later]
      rfl

/-- Parsing resumes at the bytes the first parse left. -/
theorem parse_append (buf later : List α) :
    d.parse (buf ++ later) = ((d.parse buf).1 ++ (d.parse ((d.parse buf).2 ++ later)).1,
      (d.parse ((d.parse buf).2 ++ later)).2) := by
  obtain ⟨front, equal, follows⟩ := d.parse_split buf
  conv_lhs => rw [equal, List.append_assoc]
  exact follows _

/-- What is left in the buffer once no frame comes. -/
def settle (buf : List α) : List α :=
  match d.look buf with
  | .desync => []
  | _ => buf

theorem settle_of_desync {buf : List α} (seen : d.look buf = .desync) : d.settle buf = [] := by
  simp only [settle, seen]

theorem settle_of_ne_desync {buf : List α} (seen : d.look buf ≠ .desync) :
    d.settle buf = buf := by
  unfold settle
  split
  · next other => exact absurd other seen
  · rfl

theorem drain_of_stalled {buf : List α} (stalled : d.Stalled buf) :
    d.drain buf = ([], d.settle buf) := by
  rw [drain]
  split
  · next f n seen => exact absurd seen (stalled f n)
  · next seen => rw [d.settle_of_ne_desync (by simp [seen])]
  · next seen => rw [d.settle_of_desync seen]

/-- Draining takes exactly the frames at the front, and keeps the rest unless out of step. -/
theorem drain_eq (buf : List α) : d.drain buf = ((d.parse buf).1, d.settle (d.parse buf).2) := by
  induction buf using d.frames_induction with
  | stalled buf stalled => rw [d.parse_of_stalled stalled, d.drain_of_stalled stalled]
  | frame buf f n seen ih => rw [d.parse_of_frame seen, d.drain_of_frame seen, ih]

/-- The loop that pulls until nothing comes is the drain. -/
theorem drain_eq_pull (buf : List α) :
    d.drain buf =
      match d.pull buf with
      | (none, rest) => ([], rest)
      | (some f, rest) => (f :: (d.drain rest).1, (d.drain rest).2) := by
  cases seen : d.look buf with
  | more =>
    rw [d.drain_of_stalled (d.stalled_of_more seen), d.settle_of_ne_desync (by simp [seen])]
    simp only [pull, seen]
  | desync =>
    rw [d.drain_of_stalled (d.stalled_of_desync seen), d.settle_of_desync seen]
    simp only [pull, seen]
  | frame f n =>
    rw [d.drain_of_frame seen]
    simp only [pull, seen]

theorem feed_append (buf : List α) (first second : List (List α)) :
    d.feed buf (first ++ second) =
      ((d.feed buf first).1 ++ (d.feed (d.feed buf first).2 second).1,
        (d.feed (d.feed buf first).2 second).2) := by
  induction first generalizing buf with
  | nil => rfl
  | cons chunk rest ih => simp only [List.cons_append, feed, ih, List.append_assoc]

end Deframer

end LinuxSys.Lib
