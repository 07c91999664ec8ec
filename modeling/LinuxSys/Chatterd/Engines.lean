import LinuxSys.Chatterd.Chunks
import LinuxSys.Chatterd.Deliver

/-! # The threaded and the epoll engine on one client stream

Both C++ engines of ch22 read the same stream. `serveConn` decodes after every `recv`.
`onReadable` first drains the socket and decodes only when `recv` reports EAGAIN: at end of
stream, or on an error, it returns before decoding, and the connection is reaped. The engines
process the same frames exactly when the bytes the epoll engine never decodes hold no JOIN or MSG
and no JOIN or MSG stands behind foreign bytes.
-/

namespace LinuxSys.Chatterd

open Lib

/-- What one `recv` returns. -/
inductive Recv where
  | data (bytes : Bytes)
  | eof
  | again
  | intr
  | error
deriving DecidableEq, Repr

/-- What an engine does for one frame: take the nick, or count a message and broadcast it. -/
inductive Op where
  | nick (name : Bytes)
  | broadcast (frame : Bytes)
deriving DecidableEq, Repr

/-- The body of the `take_frame` loop: what is done for each frame, and the nick it leaves. -/
def process : Bytes → List Frame → List Op × Bytes
  | nick, [] => ([], nick)
  | nick, f :: rest =>
    if f.typ = typeJoin then (.nick f.payload :: (process f.payload rest).1,
      (process f.payload rest).2)
    else if f.typ = typeMsg then
      (.broadcast (encode typeDeliver (deliverPayload nick f.payload)) :: (process nick rest).1,
        (process nick rest).2)
    else process nick rest

/-- The threaded engine: any `recv` that does not return data ends the connection. -/
def serveConn : Bytes → Bytes → List Recv → List Op
  | nick, inbuf, .data bytes :: rest =>
    (process nick (wire.drain (inbuf ++ bytes)).1).1 ++
      serveConn (process nick (wire.drain (inbuf ++ bytes)).1).2
        (wire.drain (inbuf ++ bytes)).2 rest
  | _, _, _ => []

/-- What the epoll engine keeps of a connection. -/
structure EConn where
  nick : Bytes := [0x3F]
  inbuf : Bytes := []
  dead : Bool := false
deriving DecidableEq, Repr

/-- The epoll engine's reader: drain the socket, then decode, but only after EAGAIN. -/
def onReadable : EConn → List Recv → EConn × List Op
  | conn, .data bytes :: rest => onReadable { conn with inbuf := conn.inbuf ++ bytes } rest
  | conn, .eof :: _ => ({ conn with dead := true }, [])
  | conn, .again :: _ =>
    ({ conn with
        nick := (process conn.nick (wire.drain conn.inbuf).1).2
        inbuf := (wire.drain conn.inbuf).2 },
      (process conn.nick (wire.drain conn.inbuf).1).1)
  | conn, .intr :: rest => onReadable conn rest
  | conn, .error :: _ => ({ conn with dead := true }, [])
  | conn, [] => (conn, [])

/-- One batch of events for a connection: what `recv` returns while it is read, and whether the
batch marks it dead otherwise (EPOLLHUP or EPOLLERR, or a failed send in `flush`). -/
structure Event where
  recvs : List Recv
  marked : Bool := false
deriving DecidableEq, Repr

/-- The batches of one connection; a dead connection is reaped at the end of its batch. -/
def epollRun : EConn → List Event → List Op
  | _, [] => []
  | conn, e :: rest =>
    (onReadable conn e.recvs).2 ++
      if (onReadable conn e.recvs).1.dead || e.marked then []
      else epollRun (onReadable conn e.recvs).1 rest

/-- The results of one drain of the socket: data in the order sent, interruptions, and the result
that ends the drain. -/
inductive Drains (last : Recv) : List Recv → Bytes → Prop
  | last : Drains last [last] []
  | data {bytes rest : Bytes} {recvs : List Recv} : bytes ≠ [] → bytes.length ≤ bufSize →
      Drains last recvs rest → Drains last (.data bytes :: recvs) (bytes ++ rest)
  | intr {rest : Bytes} {recvs : List Recv} : Drains last recvs rest →
      Drains last (.intr :: recvs) rest

/-- The batches in which the kernel hands over a stream and then its end. -/
inductive Script : List Event → Bytes → Prop
  | eof {recvs : List Recv} {bytes : Bytes} {marked : Bool} : Drains .eof recvs bytes →
      Script [⟨recvs, marked⟩] bytes
  | again {recvs : List Recv} {bytes rest : Bytes} {marked : Bool} {later : List Event} :
      Drains .again recvs bytes → Script later rest →
      Script (⟨recvs, marked⟩ :: later) (bytes ++ rest)

def Recv.bytes : Recv → Bytes
  | .data bytes => bytes
  | _ => []

/-- The bytes read by the drains that end with EAGAIN, up to the batch that marks the
connection dead: one chunk for each drain. -/
def decodedChunks : List Event → List Bytes
  | [] => []
  | e :: rest =>
    if .again ∈ e.recvs then
      e.recvs.flatMap Recv.bytes :: if e.marked then [] else decodedChunks rest
    else []

/-- JOIN and MSG are the frames either engine acts on. -/
def acted (f : Frame) : Bool := f.typ = typeJoin || f.typ = typeMsg

theorem process_append (nick : Bytes) (first second : List Frame) :
    process nick (first ++ second) =
      ((process nick first).1 ++ (process (process nick first).2 second).1,
        (process (process nick first).2 second).2) := by
  induction first generalizing nick with
  | nil => rfl
  | cons f rest ih =>
    simp only [List.cons_append, process]
    split_ifs <;> simp only [ih, List.cons_append]

/-- Frames of other types are ignored. -/
theorem process_filter (nick : Bytes) (frames : List Frame) :
    process nick (frames.filter acted) = process nick frames := by
  induction frames generalizing nick with
  | nil => rfl
  | cons f rest ih =>
    by_cases join : f.typ = typeJoin
    · simp [acted, process, join, ih]
    · by_cases msg : f.typ = typeMsg
      · simp [acted, process, msg, ih]
      · simp [acted, process, join, msg, ih]

theorem length_process (nick : Bytes) (frames : List Frame) :
    (process nick frames).1.length = (frames.filter acted).length := by
  have distinct : typeMsg ≠ typeJoin := by decide
  induction frames generalizing nick with
  | nil => rfl
  | cons f rest ih =>
    by_cases join : f.typ = typeJoin
    · simp [acted, process, join, ih]
    · by_cases msg : f.typ = typeMsg
      · simp [acted, process, distinct, msg, ih]
      · simp [acted, process, join, msg, ih]

/-- The threaded engine processes the frames of its chunks. -/
theorem serveConn_chunks (chunks : List Bytes) (nick inbuf : Bytes) :
    serveConn nick inbuf (chunks.map Recv.data ++ [.eof]) =
      (process nick (wire.feed inbuf chunks).1).1 := by
  induction chunks generalizing nick inbuf with
  | nil => rfl
  | cons chunk rest ih =>
    rw [List.map_cons, List.cons_append, serveConn, ih, Deframer.feed, process_append]

theorem Drains.bytes_eq {last : Recv} {recvs : List Recv} {bytes : Bytes}
    (drains : Drains last recvs bytes) (none : last.bytes = []) :
    recvs.flatMap Recv.bytes = bytes := by
  induction drains with
  | last => simp [none]
  | data _ _ _ ih => rw [List.flatMap_cons, ih]; rfl
  | intr _ ih => rw [List.flatMap_cons, ih]; rfl

theorem Drains.again_mem_iff {last : Recv} {recvs : List Recv} {bytes : Bytes}
    (drains : Drains last recvs bytes) : .again ∈ recvs ↔ last = .again := by
  induction drains with
  | last => simp [eq_comm]
  | data _ _ _ ih => simp [ih]
  | intr _ ih => simp [ih]

/-- A drain that meets the end of the stream decodes nothing. -/
theorem onReadable_eof {recvs : List Recv} {bytes : Bytes} (drains : Drains .eof recvs bytes)
    (conn : EConn) :
    onReadable conn recvs = ({ conn with inbuf := conn.inbuf ++ bytes, dead := true }, []) := by
  induction drains generalizing conn with
  | last => rw [onReadable, List.append_nil]
  | data _ _ _ ih => rw [onReadable, ih, List.append_assoc]
  | intr _ ih => rw [onReadable, ih]

/-- A drain that ends with EAGAIN decodes everything buffered. -/
theorem onReadable_again {recvs : List Recv} {bytes : Bytes} (drains : Drains .again recvs bytes)
    (conn : EConn) :
    onReadable conn recvs =
      ({ conn with
          nick := (process conn.nick (wire.drain (conn.inbuf ++ bytes)).1).2
          inbuf := (wire.drain (conn.inbuf ++ bytes)).2 },
        (process conn.nick (wire.drain (conn.inbuf ++ bytes)).1).1) := by
  induction drains generalizing conn with
  | last => rw [onReadable, List.append_nil]
  | data _ _ _ ih => rw [onReadable, ih, List.append_assoc]
  | intr _ ih => rw [onReadable, ih]

/-- The epoll engine processes the frames of the drains it decodes. -/
theorem epollRun_script {events : List Event} {stream : Bytes} (script : Script events stream)
    (conn : EConn) (live : conn.dead = false) :
    epollRun conn events =
      (process conn.nick (wire.feed conn.inbuf (decodedChunks events)).1).1 := by
  induction script generalizing conn with
  | eof drains =>
    have absent := drains.again_mem_iff.not.mpr (by simp)
    simp only [epollRun, decodedChunks, onReadable_eof drains, if_neg absent, Deframer.feed,
      process, Bool.true_or, ↓reduceIte, List.append_nil]
  | @again recvs bytes rest marked later drains script ih =>
    have present := drains.again_mem_iff.mpr rfl
    have read := drains.bytes_eq rfl
    rw [epollRun, decodedChunks, if_pos present, onReadable_again drains, read, Deframer.feed,
      process_append]
    cases marked with
    | true => simp [Deframer.feed, process]
    | false =>
      simp only [live, Bool.or_self, Bool.false_eq_true, ↓reduceIte]
      rw [ih]
      rfl

/-- What the epoll engine decodes is a front of the stream. -/
theorem decodedChunks_front {events : List Event} {stream : Bytes}
    (script : Script events stream) :
    (decodedChunks events).flatten ++ stream.drop (decodedChunks events).flatten.length =
      stream := by
  induction script with
  | eof drains =>
    have absent := drains.again_mem_iff.not.mpr (by simp)
    simp [decodedChunks, if_neg absent]
  | @again recvs bytes rest marked later drains script ih =>
    have present := drains.again_mem_iff.mpr rfl
    have read := drains.bytes_eq rfl
    cases marked with
    | true => simp [decodedChunks, if_pos present, read]
    | false =>
      simp only [decodedChunks, if_pos present, read, Bool.false_eq_true, ↓reduceIte,
        List.flatten_cons, List.length_append, List.append_assoc]
      rw [← List.drop_drop, List.drop_left, ih]

/-- The bytes the epoll engine never decodes, behind the partial frame it had buffered, hold no
JOIN or MSG. -/
def NothingLost (events : List Event) (stream : Bytes) : Prop :=
  (wire.parse (tailOf (decodedChunks events).flatten ++
    stream.drop (decodedChunks events).flatten.length)).1.filter acted = []

/-- Without a hidden JOIN or MSG, the acted frames of any chunks are those of their bytes. -/
theorem framesOf_acted {chunks : List Bytes} (visible : ¬ Hides acted chunks.flatten) :
    (framesOf chunks).filter acted = (wire.parse chunks.flatten).1.filter acted := by
  rw [← hidden_iff_hides] at visible
  have whole : ¬ wire.Hidden acted (wire.parse ([] ++ chunks.flatten)).2 := by
    rwa [List.nil_append]
  have frames := Deframer.feed_filter_eq chunks [] whole stalled_nil
    (by rw [wire_look_nil]; exact fun impossible => by cases impossible)
  rwa [List.nil_append] at frames

/-- A front of a stream that hides nothing hides nothing. -/
theorem not_hides_front {front later : Bytes} (visible : ¬ Hides acted (front ++ later)) :
    ¬ Hides acted front := by
  intro hides
  apply visible
  rw [← hidden_iff_hides] at hides ⊢
  have stalled := wire.stalled_of_desync (wire.desync_append later hides.desync)
  rw [wire.parse_append, wire.parse_of_stalled stalled]
  exact hides.append later

/-- On a client stream and its end the epoll engine does what the threaded engine does, however
the kernel cuts the stream for either, exactly when the bytes it never decodes hold no JOIN or
MSG and none stands behind foreign bytes. -/
theorem epoll_eq_threaded_iff {events : List Event} {stream : Bytes}
    (script : Script events stream) :
    (∀ chunks, Cut chunks stream →
      epollRun {} events = serveConn [0x3F] [] (chunks.map Recv.data ++ [.eof])) ↔
      NothingLost events stream ∧ ¬ Hides acted stream := by
  have epoll : epollRun {} events = (process [0x3F] (framesOf (decodedChunks events))).1 :=
    epollRun_script script {} rfl
  have front := decodedChunks_front script
  have parts : (wire.parse stream).1.filter acted =
      (wire.parse (decodedChunks events).flatten).1.filter acted ++
        (wire.parse (tailOf (decodedChunks events).flatten ++
          stream.drop (decodedChunks events).flatten.length)).1.filter acted := by
    conv_lhs => rw [← front, wire.parse_append, List.filter_append]
    rfl
  have decoded (visible : ¬ Hides acted stream) :
      (framesOf (decodedChunks events)).filter acted =
        (wire.parse (decodedChunks events).flatten).1.filter acted := by
    rw [← front] at visible
    exact framesOf_acted (not_hides_front visible)
  constructor
  · intro same
    have visible : ¬ Hides acted stream := by
      intro hides
      obtain ⟨first, second, cutFirst, cutSecond, -, fewer⟩ := exists_cuts_of_hides hides
      have agree := (same first cutFirst).symm.trans (same second cutSecond)
      have lengths := congrArg List.length agree
      rw [serveConn_chunks, serveConn_chunks, length_process, length_process] at lengths
      exact absurd lengths fewer.ne
    refine ⟨?_, visible⟩
    have cut := cut_bytes stream
    have lengths := congrArg List.length (same _ cut)
    have threaded := framesOf_acted (by rwa [cut.1] : ¬ Hides acted _)
    rw [cut.1, parts] at threaded
    rw [epoll, serveConn_chunks, length_process, length_process, decoded visible] at lengths
    change _ = ((framesOf _).filter acted).length at lengths
    rw [threaded, List.length_append] at lengths
    exact List.length_eq_zero_iff.mp (by omega)
  · rintro ⟨nothing, visible⟩ chunks cut
    have threaded := framesOf_acted (by rwa [cut.1] : ¬ Hides acted _)
    rw [cut.1, parts, nothing, List.append_nil, ← decoded visible] at threaded
    rw [epoll, serveConn_chunks]
    change _ = (process [0x3F] (framesOf chunks)).1
    rw [← process_filter _ (framesOf chunks), threaded, process_filter]

private theorem parse_msg : wire.parse (encode typeMsg [0x62]) = ([⟨typeMsg, [0x62]⟩], []) :=
  parse_encode_single (by decide)

private theorem drains_msg {last : Recv} :
    Drains last [.data (encode typeMsg [0x62]), last] (encode typeMsg [0x62] ++ []) :=
  .data (by decide) (by decide) .last

/-- A MSG read in a drain of its own, before the drain that meets the end of the stream. -/
theorem epoll_eq_threaded_msg :
    Script [⟨[.data (encode typeMsg [0x62]), .again], false⟩, ⟨[.eof], false⟩]
        (encode typeMsg [0x62]) ∧
      ∀ chunks, Cut chunks (encode typeMsg [0x62]) →
        epollRun {} [⟨[.data (encode typeMsg [0x62]), .again], false⟩, ⟨[.eof], false⟩] =
          serveConn [0x3F] [] (chunks.map Recv.data ++ [.eof]) := by
  have script : Script [⟨[.data (encode typeMsg [0x62]), .again], false⟩, ⟨[.eof], false⟩]
      (encode typeMsg [0x62]) := by
    have ended : Script [⟨[.eof], false⟩] [] := .eof .last
    have whole : Script [⟨[.data (encode typeMsg [0x62]), .again], false⟩, ⟨[.eof], false⟩]
        ((encode typeMsg [0x62] ++ []) ++ []) := .again drains_msg ended
    rwa [List.append_nil, List.append_nil] at whole
  refine ⟨script, (epoll_eq_threaded_iff script).mpr ?_⟩
  constructor
  · have decoded : (decodedChunks [⟨[.data (encode typeMsg [0x62]), .again], false⟩,
        ⟨[.eof], false⟩]).flatten = encode typeMsg [0x62] := by decide
    rw [NothingLost, decoded, tailOf, parse_msg, List.drop_length, List.append_nil, parse_nil]
    rfl
  · rintro ⟨foreign, -⟩
    rw [tailOf, parse_msg] at foreign
    cases foreign

/-- A MSG read in the drain that meets the end of the stream is lost by the epoll engine. -/
theorem epollRun_drops_msg_before_eof :
    Script [⟨[.data (encode typeMsg [0x62]), .eof], false⟩] (encode typeMsg [0x62]) ∧
      Cut [encode typeMsg [0x62]] (encode typeMsg [0x62]) ∧
      epollRun {} [⟨[.data (encode typeMsg [0x62]), .eof], false⟩] = [] ∧
      serveConn [0x3F] [] ([encode typeMsg [0x62]].map Recv.data ++ [.eof]) =
        [.broadcast (encode typeDeliver (deliverPayload [0x3F] [0x62]))] := by
  have script : Script [⟨[.data (encode typeMsg [0x62]), .eof], false⟩]
      (encode typeMsg [0x62] ++ []) := .eof drains_msg
  rw [List.append_nil] at script
  refine ⟨script, ⟨by decide, by decide⟩, rfl, ?_⟩
  rw [serveConn_chunks]
  simp only [Deframer.feed, List.nil_append, wire.drain_eq, parse_msg, List.append_nil]
  rfl

end LinuxSys.Chatterd
