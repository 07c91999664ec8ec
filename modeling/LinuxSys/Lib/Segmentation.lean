import LinuxSys.Lib.Deframe

/-! # When the frames of a stream do not depend on its chunks

`Hidden d keep tail` says that the bytes `tail`, which no frame starts, hold a frame satisfying
`keep` behind a cut at which a receiver would empty its buffer. Without hidden frames every way
of cutting the stream gives the frames of the whole; with one, some way of cutting it gives more.
A receiver that gives up when out of step is insensitive to the cuts without any condition.
-/

namespace LinuxSys.Lib.Deframer

variable {α φ : Type*} (d : Deframer α φ)

/-- The stream is never out of step: after its frames there is at most a partial one. -/
def InStep (buf : List α) : Prop := d.look (d.parse buf).2 ≠ .desync

/-- A frame kept by `keep` starts behind a point at which the buffer would be emptied. -/
def Hidden (keep : φ → Bool) (tail : List α) : Prop :=
  ∃ k f n, d.look (tail.take k) = .desync ∧ d.look (tail.drop k) = .frame f n ∧ keep f = true

variable {d}

theorem desync_take_mono {tail : List α} {k l : ℕ} (lost : d.look (tail.take k) = .desync)
    (le : k ≤ l) : d.look (tail.take l) = .desync := by
  have split : tail.take l = tail.take k ++ (tail.take l).drop k := by
    have shorter : tail.take k = (tail.take l).take k := by
      rw [List.take_take, Nat.min_eq_left le]
    rw [shorter, List.take_append_drop]
  rw [split]
  exact d.desync_append _ lost

theorem desync_of_take {tail : List α} {k : ℕ} (lost : d.look (tail.take k) = .desync) :
    d.look tail = .desync := by
  have split := d.desync_append (tail.drop k) lost
  rwa [List.take_append_drop] at split

theorem Hidden.desync {keep : φ → Bool} {tail : List α} (hidden : d.Hidden keep tail) :
    d.look tail = .desync := by
  obtain ⟨k, f, n, lost, -⟩ := hidden
  exact desync_of_take lost

/-- A hidden frame stays hidden when more bytes arrive. -/
theorem Hidden.append {keep : φ → Bool} {tail : List α} (hidden : d.Hidden keep tail)
    (later : List α) : d.Hidden keep (tail ++ later) := by
  obtain ⟨k, f, n, lost, seen, kept⟩ := hidden
  have inside : k ≤ tail.length := by
    have positive := d.used_pos seen
    have bound := d.used_le seen
    rw [List.length_drop] at bound
    omega
  refine ⟨k, f, n, ?_, ?_, kept⟩
  · rwa [List.take_append_of_le_length inside]
  · rw [List.drop_append_of_le_length inside]
    exact d.frame_append later seen

/-- Bytes behind an emptied buffer yield no kept frame, and parsing them stays behind it. -/
private theorem parse_behind {keep : φ → Bool} {tail : List α} (none : ¬ d.Hidden keep tail)
    (buf : List α) (k : ℕ) (later : List α) (lost : d.look (tail.take k) = .desync)
    (behind : buf ++ later = tail.drop k) :
    (d.parse buf).1.filter keep = [] ∧
      ∃ l, d.look (tail.take l) = .desync ∧ (d.parse buf).2 ++ later = tail.drop l := by
  induction buf using d.frames_induction generalizing k with
  | stalled buf stalled =>
    rw [d.parse_of_stalled stalled]
    exact ⟨rfl, k, lost, behind⟩
  | frame buf f n seen ih =>
    have dropped : keep f = false := by
      apply Bool.eq_false_iff.mpr
      intro kept
      exact none ⟨k, f, n, lost, behind ▸ d.frame_append later seen, kept⟩
    have next : buf.drop n ++ later = tail.drop (k + n) := by
      rw [← List.drop_drop, ← behind, List.drop_append_of_le_length (d.used_le seen)]
    obtain ⟨empty, l, lost', behind'⟩ :=
      ih (k + n) (desync_take_mono lost (Nat.le_add_right k n)) next
    rw [d.parse_of_frame seen]
    exact ⟨by simp only [List.filter_cons, dropped, Bool.false_eq_true, ↓reduceIte, empty],
      l, lost', behind'⟩

/-- Once the buffer was emptied, no later chunk completes a kept frame. -/
private theorem feed_behind {keep : φ → Bool} {tail : List α} (none : ¬ d.Hidden keep tail)
    (chunks : List (List α)) (buf : List α) (k : ℕ) (lost : d.look (tail.take k) = .desync)
    (behind : buf ++ chunks.flatten = tail.drop k) :
    (d.feed buf chunks).1.filter keep = [] := by
  induction chunks generalizing buf k with
  | nil => rfl
  | cons chunk rest ih =>
    rw [List.flatten_cons, ← List.append_assoc] at behind
    obtain ⟨empty, l, lost', behind'⟩ := parse_behind none (buf ++ chunk) k _ lost behind
    simp only [feed, drain_eq, List.filter_append, empty, List.nil_append]
    by_cases desync : d.look (d.parse (buf ++ chunk)).2 = .desync
    · rw [d.settle_of_desync desync]
      apply ih [] (l + (d.parse (buf ++ chunk)).2.length)
        (desync_take_mono lost' (Nat.le_add_right ..))
      rw [← List.drop_drop, ← behind', List.drop_left, List.nil_append]
    · rw [d.settle_of_ne_desync desync]
      exact ih _ l lost' behind'

/-- With no hidden frame, chunks do not matter: the kept frames are those of the whole stream. -/
theorem feed_filter_eq {keep : φ → Bool} (chunks : List (List α)) (buf : List α)
    (none : ¬ d.Hidden keep (d.parse (buf ++ chunks.flatten)).2) (stalled : d.Stalled buf)
    (step : d.look buf ≠ .desync) :
    (d.feed buf chunks).1.filter keep = (d.parse (buf ++ chunks.flatten)).1.filter keep := by
  induction chunks generalizing buf with
  | nil =>
    simp only [List.flatten_nil, List.append_nil, d.parse_of_stalled stalled, feed]
  | cons chunk rest ih =>
    rw [List.flatten_cons, ← List.append_assoc, d.parse_append] at none ⊢
    simp only [feed, drain_eq, List.filter_append]
    congr 1
    by_cases desync : d.look (d.parse (buf ++ chunk)).2 = .desync
    · have whole := d.desync_append rest.flatten desync
      rw [d.parse_of_stalled (d.stalled_of_desync whole)] at none ⊢
      rw [d.settle_of_desync desync]
      apply feed_behind none rest [] (d.parse (buf ++ chunk)).2.length
      · rwa [List.take_left]
      · rw [List.drop_left, List.nil_append]
    · rw [d.settle_of_ne_desync desync]
      exact ih _ none (d.parse_tail_stalled _) desync

/-- A stream that stays in step is read frame by frame, whatever its chunks. -/
theorem feed_of_inStep (chunks : List (List α)) (buf : List α)
    (step : d.InStep (buf ++ chunks.flatten)) (stalled : d.Stalled buf) :
    d.feed buf chunks = d.parse (buf ++ chunks.flatten) := by
  induction chunks generalizing buf with
  | nil => simp only [List.flatten_nil, List.append_nil, d.parse_of_stalled stalled, feed]
  | cons chunk rest ih =>
    rw [List.flatten_cons, ← List.append_assoc] at step ⊢
    have tail : d.look (d.parse (buf ++ chunk)).2 ≠ .desync := by
      intro desync
      apply step
      rw [d.parse_append, d.parse_of_stalled (d.stalled_of_desync (d.desync_append _ desync))]
      exact d.desync_append _ desync
    have onward : d.InStep ((d.parse (buf ++ chunk)).2 ++ rest.flatten) := by
      unfold InStep at step
      rwa [d.parse_append] at step
    simp only [feed, drain_eq, d.settle_of_ne_desync tail]
    rw [ih _ onward (d.parse_tail_stalled _), d.parse_append (buf ++ chunk)]

/-- The two ways of cutting a stream that tell a hidden frame apart. -/
theorem feed_hidden {buf : List α} {k : ℕ} {f : φ} {n : ℕ}
    (lost : d.look ((d.parse buf).2.take k) = .desync)
    (seen : d.look ((d.parse buf).2.drop k) = .frame f n) :
    ∃ first, first ++ (d.parse buf).2.drop k = buf ∧
      (d.feed [] [buf]).1 = (d.parse buf).1 ∧
      (d.feed [] [first, (d.parse buf).2.drop k]).1 =
        (d.parse buf).1 ++ f :: (d.parse (((d.parse buf).2.drop k).drop n)).1 := by
  obtain ⟨front, equal, follows⟩ := d.parse_split buf
  refine ⟨front ++ (d.parse buf).2.take k, ?_, ?_, ?_⟩
  · rw [List.append_assoc, List.take_append_drop, ← equal]
  · simp only [feed, drain_eq, List.nil_append, List.append_nil]
  · simp only [feed, drain_eq, List.nil_append, List.append_nil, follows]
    rw [d.parse_of_stalled (d.stalled_of_desync lost), d.settle_of_desync lost, List.nil_append,
      d.parse_of_frame seen, List.append_nil]

/-- Any two ways of cutting the stream give the same frames exactly when none is hidden. -/
theorem feed_segmentation_iff (empty : d.look [] = .more) (stream : List α) :
    (∀ first second : List (List α), first.flatten = stream → second.flatten = stream →
      (d.feed [] first).1 = (d.feed [] second).1) ↔
      ¬ d.Hidden (fun _ => true) (d.parse stream).2 := by
  constructor
  · rintro same ⟨k, f, n, lost, seen, -⟩
    obtain ⟨first, equal, whole, parts⟩ := feed_hidden lost seen
    have agree := same [stream] [first, (d.parse stream).2.drop k]
      (by simp) (by simpa using equal)
    rw [whole, parts] at agree
    have lengths := congrArg List.length agree
    simp at lengths
  · have settled : ¬ d.Hidden (fun _ => true) (d.parse stream).2 → ∀ chunks : List (List α),
        chunks.flatten = stream → (d.feed [] chunks).1 = (d.parse stream).1 := by
      intro none chunks equal
      have whole : ¬ d.Hidden (fun _ => true) (d.parse ([] ++ chunks.flatten)).2 := by
        rwa [List.nil_append, equal]
      have frames := feed_filter_eq chunks [] whole (d.stalled_of_more empty) (by simp [empty])
      simpa [equal] using frames
    intro none first second left right
    rw [settled none first left, settled none second right]

/-- A receiver that gives up out of step reads the frames of the whole stream. -/
theorem feedOrStop_frames (chunks : List (List α)) (buf : List α) :
    (d.feedOrStop buf chunks).1 = (d.parse (buf ++ chunks.flatten)).1 := by
  induction chunks generalizing buf with
  | nil =>
    rw [feedOrStop]
    split <;> simp
  | cons chunk rest ih =>
    rw [feedOrStop, d.parse_append]
    split
    · next desync =>
      have whole := d.stalled_of_desync (d.desync_append (chunk :: rest).flatten desync)
      rw [d.parse_of_stalled whole, List.append_nil]
    · simp only [ih, List.flatten_cons, List.append_assoc]

/-- In step, that receiver ends with the bytes of the last partial frame. -/
theorem feedOrStop_of_inStep (chunks : List (List α)) (buf : List α)
    (step : d.InStep (buf ++ chunks.flatten)) :
    d.feedOrStop buf chunks = ((d.parse (buf ++ chunks.flatten)).1,
      .eof (d.parse (buf ++ chunks.flatten)).2) := by
  induction chunks generalizing buf with
  | nil =>
    simp only [List.flatten_nil, List.append_nil] at step ⊢
    rw [feedOrStop]
    split
    · next desync => exact absurd desync step
    · rfl
  | cons chunk rest ih =>
    rw [InStep, d.parse_append] at step
    rw [feedOrStop, d.parse_append]
    split
    · next desync =>
      have whole := d.desync_append (chunk :: rest).flatten desync
      rw [d.parse_of_stalled (d.stalled_of_desync whole)] at step
      exact absurd whole step
    · rw [List.flatten_cons, ← List.append_assoc] at step ⊢
      rw [ih _ step]

end LinuxSys.Lib.Deframer
