import LinuxSys.Fleet.Proto

/-! # One node's hub and the two hops of a message

`Hub` is the registry of a node's connections. `handleMsg` is what `handle_client` does with a
MSG frame and `handleRelay` what `bridge_worker` does with a DELIVER frame, each as the frames
written to the connections selected. A message grows by the nick, a NUL and the node tag on its
way, an oversized frame is refused with the error ignored, and the split is at the first NUL:
the results say for which nicks and texts a message still arrives whole.
-/

namespace LinuxSys.Fleet

open Lib Chatterd

/-- `bridge@` -/
def bridgePrefix : Bytes := [0x62, 0x72, 0x69, 0x64, 0x67, 0x65, 0x40]

/-- The byte `@`. -/
def atSign : UInt8 := 0x40

/-- What a hub keeps of a joined connection. -/
structure PeerConn where
  nick : Bytes
deriving DecidableEq, Repr

def PeerConn.isBridge (conn : PeerConn) : Bool := bridgePrefix.isPrefixOf conn.nick

/-- The first frame of a connection must be a JOIN; its payload is the nick. -/
def joined? (lang : Lang) (first : Frame) : Option PeerConn :=
  if first.typ = typeJoin then some ⟨lang.text first.payload⟩ else none

/-- The registered connections, in the order of the registry. -/
structure Hub (ι : Type*) where
  clients : List ι
  peer : ι → PeerConn

section Hub

variable {ι : Type*} [DecidableEq ι]

def Hub.add (hub : Hub ι) (c : ι) (conn : PeerConn) : Hub ι where
  clients := hub.clients ++ [c]
  peer := Function.update hub.peer c conn

def Hub.remove (hub : Hub ι) (c : ι) : Hub ι :=
  { hub with clients := hub.clients.filter (· ≠ c) }

/-- The connections a broadcast selects under the registry's lock. -/
def Hub.targets (hub : Hub ι) (exclude : Option ι) (includeBridges : Bool) : List ι :=
  hub.clients.filter fun c => exclude ≠ some c && (includeBridges || !(hub.peer c).isBridge)

def deliverFrame (nick text : Bytes) : Frame := ⟨typeDeliver, deliverPayload nick text⟩

/-- What `write_frame` does for each selected connection; its result is ignored. -/
def Hub.broadcastDeliver (hub : Hub ι) (exclude : Option ι) (includeBridges : Bool)
    (nick text : Bytes) : List (ι × Except FrameError Bytes) :=
  (hub.targets exclude includeBridges).map fun c => (c, writeFrame (deliverFrame nick text))

/-- The body of the read loop of `handle_client`. -/
def handleMsg (lang : Lang) (hub : Hub ι) (sender : ι) (f : Frame) :
    List (ι × Except FrameError Bytes) :=
  if f.typ ≠ typeMsg then []
  else hub.broadcastDeliver (some sender) true (hub.peer sender).nick (lang.text f.payload)

/-- The node tag a bridge worker appends to a nick without an `@`. -/
def tag (peerNode nick : Bytes) : Bytes :=
  if atSign ∈ nick then nick else nick ++ atSign :: peerNode

/-- The nick and text a bridge worker takes from a frame. -/
def relayed? (lang : Lang) (peerNode : Bytes) (f : Frame) : Option (Bytes × Bytes) :=
  if f.typ ≠ typeDeliver then none
  else (splitDeliver? lang f.payload).map fun parts => (tag peerNode parts.1, parts.2)

/-- The body of the read loop of `bridge_worker`. -/
def handleRelay (lang : Lang) (peerNode : Bytes) (hub : Hub ι) (f : Frame) :
    List (ι × Except FrameError Bytes) :=
  match relayed? lang peerNode f with
  | some (nick, text) => hub.broadcastDeliver none false nick text
  | none => []

theorem Hub.mem_add {hub : Hub ι} {c x : ι} {conn : PeerConn} :
    x ∈ (hub.add c conn).clients ↔ x ∈ hub.clients ∨ x = c := by
  simp only [Hub.add, List.mem_append, List.mem_singleton]

theorem Hub.peer_add (hub : Hub ι) (c : ι) (conn : PeerConn) (x : ι) :
    (hub.add c conn).peer x = if x = c then conn else hub.peer x := Function.update_apply ..

theorem Hub.mem_remove {hub : Hub ι} {c x : ι} :
    x ∈ (hub.remove c).clients ↔ x ∈ hub.clients ∧ x ≠ c := by
  simp only [Hub.remove, List.mem_filter, decide_eq_true_eq]

@[simp] theorem mem_targets {hub : Hub ι} {exclude : Option ι} {includeBridges : Bool} {c : ι} :
    c ∈ hub.targets exclude includeBridges ↔
      c ∈ hub.clients ∧ exclude ≠ some c ∧
        (includeBridges = false → (hub.peer c).isBridge = false) := by
  simp only [Hub.targets, List.mem_filter, Bool.and_eq_true, decide_eq_true_eq, Bool.or_eq_true,
    Bool.not_eq_true']
  cases includeBridges <;> simp

@[simp] theorem mem_broadcastDeliver {hub : Hub ι} {exclude : Option ι} {includeBridges : Bool}
    {nick text : Bytes} {c : ι} {sent : Except FrameError Bytes} :
    (c, sent) ∈ hub.broadcastDeliver exclude includeBridges nick text ↔
      c ∈ hub.targets exclude includeBridges ∧ sent = writeFrame (deliverFrame nick text) := by
  simp only [Hub.broadcastDeliver, List.mem_map, Prod.mk.injEq]
  constructor
  · rintro ⟨d, member, rfl, rfl⟩
    exact ⟨member, rfl⟩
  · rintro ⟨member, rfl⟩
    exact ⟨c, member, rfl, rfl⟩

end Hub

/-- The bytes written are read as one DELIVER frame that splits into this nick and text. -/
def Delivered (lang : Lang) (sent : Except FrameError Bytes) (nick text : Bytes) : Prop :=
  ∃ bytes f, sent = .ok bytes ∧ readFrame bytes = .ok (f, []) ∧ f.typ = typeDeliver ∧
    splitDeliver? lang f.payload = some (nick, text)

theorem read_of_written {f : Frame} {bytes : Bytes} (written : writeFrame f = .ok bytes) :
    readFrame bytes = .ok (f, []) := by
  have whole := readFrame_writeFrame written []
  rwa [List.append_nil] at whole

theorem delivered_iff (lang : Lang) (nick text shown seen : Bytes) :
    Delivered lang (writeFrame (deliverFrame nick text)) shown seen ↔
      nick.length + 1 + text.length ≤ 0xFFFF ∧
        splitDeliver? lang (deliverPayload nick text) = some (shown, seen) := by
  rw [← length_deliverPayload]
  constructor
  · rintro ⟨bytes, f, written, read, -, split⟩
    rw [read_of_written written] at read
    cases read
    exact ⟨(writeFrame_eq_ok_iff.mp written).1, split⟩
  · rintro ⟨fits, split⟩
    have written : writeFrame (deliverFrame nick text) =
        .ok (encode typeDeliver (deliverPayload nick text)) := writeFrame_eq_ok_iff.mpr ⟨fits, rfl⟩
    exact ⟨_, _, written, read_of_written written, rfl, split⟩

theorem text_append_cons {c : UInt8} (ascii : c ≤ 0x7F) (lang : Lang) (left right : Bytes) :
    lang.text (left ++ c :: right) = lang.text left ++ c :: lang.text right := by
  cases lang with
  | rust => exact Utf8.lossy_append_cons ascii left right
  | cpp => rfl
  | go => rfl

/-- A DELIVER shows the text that was sent only if the nick has no NUL, and then it shows the
nick too, as the language decodes it. -/
theorem split_text_iff (lang : Lang) {text : Bytes} (valid : lang.text text = text)
    (nick shown : Bytes) :
    splitDeliver? lang (deliverPayload nick text) = some (shown, text) ↔
      0 ∉ nick ∧ lang.text nick = shown := by
  by_cases nul : 0 ∈ nick
  · obtain ⟨rest, split⟩ := splitDeliver?_deliverPayload_of_mem nul lang text
    simp only [nul, not_true_eq_false, false_and, iff_false, split, Option.some.injEq,
      Prod.mk.injEq, not_and]
    intro _ same
    rw [text_append_cons (by decide), valid] at same
    have lengths := congrArg List.length same
    simp only [List.length_append, List.length_cons] at lengths
    omega
  · rw [splitDeliver?_deliverPayload nul, valid]
    simp [nul]

end LinuxSys.Fleet
