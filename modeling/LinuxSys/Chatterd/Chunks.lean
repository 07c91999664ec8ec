import LinuxSys.Chatterd.Wire

/-! # Cutting a chat stream into chunks

The buffer of `take_frame` is emptied by a foreign header, so what is dropped depends on how many
later bytes had arrived. The frames of a stream are the same for every way of cutting it exactly
when no frame lies six bytes or more into the foreign bytes that follow its whole frames. When
one does, a receiver may be cut so as to skip all foreign bytes or so as to resume at that frame;
both are shown with chunks no longer than the 4096-byte read buffer.
-/

namespace LinuxSys.Chatterd

open Lib

/-- The frames `take_frame` yields while the chunks are appended one by one. -/
def framesOf (chunks : List Bytes) : List Frame := (wire.feed [] chunks).1

/-- The bytes behind the whole frames at the front of the stream. -/
def tailOf (stream : Bytes) : Bytes := (wire.parse stream).2

/-- Behind the whole frames stands a foreign header, and a frame kept by `keep` starts at or
after the end of that header. -/
def Hides (keep : Frame → Bool) (stream : Bytes) : Prop :=
  look (tailOf stream) = .desync ∧
    ∃ k f n, 6 ≤ k ∧ look ((tailOf stream).drop k) = .frame f n ∧ keep f = true

theorem look_take_desync {tail : Bytes} {k : ℕ} (foreign : look tail = .desync) (long : 6 ≤ k) :
    look (tail.take k) = .desync := by
  obtain ⟨size, magic⟩ := look_eq_desync_iff.mp foreign
  refine look_eq_desync_iff.mpr ⟨by rw [List.length_take]; omega, ?_⟩
  rwa [List.take_take, Nat.min_eq_left (by omega)]

theorem hidden_iff_hides (keep : Frame → Bool) (stream : Bytes) :
    wire.Hidden keep (wire.parse stream).2 ↔ Hides keep stream := by
  constructor
  · rintro ⟨k, f, n, lost, seen, kept⟩
    refine ⟨Deframer.desync_of_take lost, k, f, n, ?_, seen, kept⟩
    have long := (look_eq_desync_iff.mp lost).1
    rw [List.length_take] at long
    omega
  · rintro ⟨foreign, k, f, n, long, seen, kept⟩
    exact ⟨k, f, n, look_take_desync foreign long, seen, kept⟩

/-- Any two ways of cutting the stream give the same frames exactly when none lies six bytes or
more into its foreign bytes. -/
theorem framesOf_segmentation_iff (stream : Bytes) :
    (∀ first second : List Bytes, first.flatten = stream → second.flatten = stream →
      framesOf first = framesOf second) ↔ ¬ Hides (fun _ => true) stream := by
  rw [← hidden_iff_hides]
  exact Deframer.feed_segmentation_iff wire_look_nil stream

/-- A MSG behind six foreign bytes is dropped when all arrive together and read when the foreign
bytes arrive first. -/
theorem framesOf_foreign_then_msg :
    [List.replicate 6 0x58 ++ encode typeMsg [0x61]].flatten =
        [List.replicate 6 0x58, encode typeMsg [0x61]].flatten ∧
      framesOf [List.replicate 6 0x58 ++ encode typeMsg [0x61]] = [] ∧
      framesOf [List.replicate 6 0x58, encode typeMsg [0x61]] = [⟨typeMsg, [0x61]⟩] := by
  have lost : wire.look (List.replicate 6 0x58) = .desync := by decide
  have whole : wire.look (List.replicate 6 0x58 ++ encode typeMsg [0x61]) = .desync := by decide
  have msg : wire.parse (encode typeMsg [0x61]) = ([⟨typeMsg, [0x61]⟩], []) :=
    parse_encode_single (by decide)
  refine ⟨by simp, ?_, ?_⟩
  · simp only [framesOf, Deframer.feed, wire.drain_eq, List.nil_append, List.append_nil,
      wire.parse_of_stalled (wire.stalled_of_desync whole)]
  · simp only [framesOf, Deframer.feed, wire.drain_eq, List.nil_append, List.append_nil,
      wire.parse_of_stalled (wire.stalled_of_desync lost), wire.settle_of_desync lost, msg]

/-- The read buffer of both engines. -/
def bufSize : ℕ := 4096

/-- A way `recv` may hand over the stream: no empty chunk, none longer than the read buffer. -/
def Cut (chunks : List Bytes) (stream : Bytes) : Prop :=
  chunks.flatten = stream ∧ ∀ chunk ∈ chunks, chunk ≠ [] ∧ chunk.length ≤ bufSize

theorem Cut.append {first second : List Bytes} {left right : Bytes} (cut : Cut first left)
    (cut' : Cut second right) : Cut (first ++ second) (left ++ right) := by
  refine ⟨by rw [List.flatten_append, cut.1, cut'.1], ?_⟩
  intro chunk member
  rcases List.mem_append.mp member with inFirst | inSecond
  · exact cut.2 chunk inFirst
  · exact cut'.2 chunk inSecond

/-- Every stream can arrive byte by byte. -/
theorem cut_bytes (stream : Bytes) : Cut (stream.map fun b => [b]) stream := by
  refine ⟨?_, ?_⟩
  · induction stream with
    | nil => rfl
    | cons b rest ih => rw [List.map_cons, List.flatten_cons, ih, List.singleton_append]
  · intro chunk member
    obtain ⟨b, -, rfl⟩ := List.mem_map.mp member
    exact ⟨by simp, by simp [bufSize]⟩

/-- Whole frames read byte by byte leave nothing in the buffer. -/
theorem feed_bytes {front : Bytes} (whole : (wire.parse front).2 = []) :
    wire.feed [] (front.map fun b => [b]) = wire.parse front := by
  have cut := (cut_bytes front).1
  have step : wire.InStep ([] ++ (front.map fun b => [b]).flatten) := by
    rw [List.nil_append, cut]
    exact inStep_of_left_nil whole
  rw [Deframer.feed_of_inStep _ _ step stalled_nil, List.nil_append, cut]

/-- The magic cannot stand at two adjacent places. -/
private theorem foreign_near (bytes : Bytes) (k : ℕ) :
    (bytes.drop k).take 3 ≠ [magic0, magic1, version] ∨
      (bytes.drop (k + 1)).take 3 ≠ [magic0, magic1, version] := by
  by_contra both
  simp only [not_or, not_not] at both
  obtain ⟨here, next⟩ := both
  have second : bytes[k + 1]? = some magic1 := by
    have at1 := congrArg (fun l : Bytes => l[1]?) here
    rwa [List.getElem?_take_of_lt (by decide), List.getElem?_drop] at at1
  have first : bytes[k + 1]? = some magic0 := by
    have at0 := congrArg (fun l : Bytes => l[0]?) next
    rwa [List.getElem?_take_of_lt (by decide), List.getElem?_drop] at at0
  exact absurd (Option.some.inj (second.symm.trans first)) (by decide)

/-- Foreign bytes can arrive so that every chunk of them is dropped, up to any later point. -/
theorem exists_cut_dropped (tail : Bytes) (foreign : look tail = .desync) (k : ℕ) (long : 6 ≤ k)
    (inside : k ≤ tail.length) :
    ∃ chunks, Cut chunks (tail.take k) ∧ wire.feed [] chunks = ([], []) := by
  have dropped {bytes : Bytes} (lost : wire.look bytes = .desync) :
      wire.drain bytes = ([], []) := by
    rw [wire.drain_of_stalled (wire.stalled_of_desync lost), wire.settle_of_desync lost]
  induction k using Nat.strongRecOn generalizing tail with
  | ind k ih =>
    by_cases small : k ≤ bufSize
    · refine ⟨[tail.take k], ⟨by simp, ?_⟩, ?_⟩
      · intro chunk member
        obtain rfl := List.mem_singleton.mp member
        refine ⟨?_, by rw [List.length_take]; omega⟩
        intro empty
        have size := congrArg List.length empty
        rw [List.length_take, List.length_nil] at size
        omega
      · simp only [Deframer.feed, List.nil_append, dropped (look_take_desync foreign long)]
    · rw [bufSize] at small
      -- stop where the next chunk starts with foreign bytes again
      obtain ⟨s, low, high, magic⟩ : ∃ s, 4000 ≤ s ∧ s ≤ 4001 ∧
          (tail.drop s).take 3 ≠ [magic0, magic1, version] := by
        rcases foreign_near tail 4000 with here | next
        · exact ⟨4000, le_rfl, by decide, here⟩
        · exact ⟨4001, by decide, le_rfl, next⟩
      have rest : look (tail.drop s) = .desync :=
        look_eq_desync_iff.mpr ⟨by rw [List.length_drop]; omega, magic⟩
      obtain ⟨chunks, cut, fed⟩ := ih (k - s) (by omega) (tail.drop s) rest (by omega)
        (by rw [List.length_drop]; omega)
      have equal : tail.take s ++ (tail.drop s).take (k - s) = tail.take k := by
        rw [← List.take_add, Nat.add_sub_cancel' (by omega)]
      refine ⟨tail.take s :: chunks, ⟨by rw [List.flatten_cons, cut.1, equal], ?_⟩, ?_⟩
      · intro chunk member
        rcases List.mem_cons.mp member with rfl | later
        · refine ⟨?_, by rw [List.length_take, bufSize]; omega⟩
          intro empty
          have size := congrArg List.length empty
          rw [List.length_take, List.length_nil] at size
          omega
        · exact cut.2 chunk later
      · rw [Deframer.feed, List.nil_append, dropped (look_take_desync foreign (by omega)), fed]
        rfl

/-- A stream that hides a kept frame can be cut so that only the frames at its front are read,
and so that the hidden one is read as well. -/
theorem exists_cuts_of_hides {keep : Frame → Bool} {stream : Bytes} (hides : Hides keep stream) :
    ∃ first second, Cut first stream ∧ Cut second stream ∧
      framesOf first = (wire.parse stream).1 ∧
      ((framesOf first).filter keep).length < ((framesOf second).filter keep).length := by
  obtain ⟨foreign, k, f, n, long, seen, kept⟩ := hides
  obtain ⟨front, equal, follows⟩ := wire.parse_split stream
  change stream = front ++ tailOf stream at equal
  have fits := wire.used_le seen
  have used := wire.used_pos seen
  rw [List.length_drop] at fits
  have frontParse : wire.parse front = ((wire.parse stream).1, []) := by
    have read := follows []
    rwa [parse_nil, List.append_nil, List.append_nil] at read
  have frontFed : wire.feed [] (front.map fun b => [b]) = ((wire.parse stream).1, []) := by
    rw [feed_bytes (by rw [frontParse]), frontParse]
  have frameParse : wire.parse (((tailOf stream).drop k).take n) = ([f], []) := by
    have width : (((tailOf stream).drop k).take n).length = n := by
      rw [List.length_take, List.length_drop]
      omega
    rw [wire.parse_of_frame (wire.frame_take seen), List.drop_of_length_le width.le,
      parse_nil]
  obtain ⟨all, allCut, allFed⟩ :=
    exists_cut_dropped (tailOf stream) foreign (tailOf stream).length (by omega) le_rfl
  obtain ⟨some, someCut, someFed⟩ := exists_cut_dropped (tailOf stream) foreign k long (by omega)
  rw [List.take_length] at allCut
  have firstFrames : framesOf ((front.map fun b => [b]) ++ all) = (wire.parse stream).1 := by
    rw [framesOf, wire.feed_append, frontFed, allFed, List.append_nil]
  refine ⟨(front.map fun b => [b]) ++ all,
    (front.map fun b => [b]) ++ (some ++ ((((tailOf stream).drop k).take n).map (fun b => [b]) ++
      (((tailOf stream).drop k).drop n).map fun b => [b])), ?_, ?_, firstFrames, ?_⟩
  · have cut := (cut_bytes front).append allCut
    rwa [← equal] at cut
  · have cut := (cut_bytes front).append (someCut.append
      ((cut_bytes (((tailOf stream).drop k).take n)).append
        (cut_bytes (((tailOf stream).drop k).drop n))))
    rwa [List.take_append_drop, List.take_append_drop, ← equal] at cut
  · rw [firstFrames, framesOf, wire.feed_append, frontFed, wire.feed_append, someFed,
      wire.feed_append, feed_bytes (by rw [frameParse]), frameParse]
    simp [kept]

end LinuxSys.Chatterd
