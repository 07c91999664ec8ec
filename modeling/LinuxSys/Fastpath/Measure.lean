import LinuxSys.Fastpath.Echo
import LinuxSys.Lib.Progress

/-! # Measuring an echo server of ch40

`measure` sends one frame after another and waits for each to come back. Client and server see the
two directions of the connection as streams that hold so many bytes, and every call moves as many as
the kernel likes.
-/

namespace LinuxSys.Fastpath

open Lib

def kMagic0 : UInt8 := 0x43

def kMagic1 : UInt8 := 0x46

def kWireVersion : UInt8 := 0x01

def kTypeEcho : UInt8 := 0x01

def putU64be (v : ℕ) : Bytes :=
  [UInt8.ofNat (v >>> 56), UInt8.ofNat (v >>> 48), UInt8.ofNat (v >>> 40), UInt8.ofNat (v >>> 32),
    UInt8.ofNat (v >>> 24), UInt8.ofNat (v >>> 16), UInt8.ofNat (v >>> 8), UInt8.ofNat v]

def getU64be (p : Bytes) : ℕ := (p.take 8).foldl (fun v b => v <<< 8 ||| b.toNat) 0

def buildFrame (seq sendNs : ℕ) : Bytes :=
  [kMagic0, kMagic1, kWireVersion, kTypeEcho] ++
    (putU64be seq ++ (putU64be sendNs ++ List.replicate 44 0))

def frameHeaderOk (f : Bytes) : Bool := f.take 4 = [kMagic0, kMagic1, kWireVersion, kTypeEcho]

theorem getU64be_putU64be {v : ℕ} (bound : v < 2 ^ 64) (rest : Bytes) :
    getU64be (putU64be v ++ rest) = v := by
  have push (v : ℕ) (b : UInt8) : v <<< 8 ||| b.toNat = v * 256 + b.toNat := by
    rw [← Nat.shiftLeft_add_eq_or_of_lt b.toNat_lt, Nat.shiftLeft_eq]
  have all : (putU64be v ++ rest).take 8 = putU64be v := rfl
  rw [getU64be, all]
  simp only [putU64be, List.foldl_cons, List.foldl_nil, push, UInt8.toNat_ofNat',
    Nat.shiftRight_eq_div_pow]
  omega

theorem length_buildFrame (seq sendNs : ℕ) : (buildFrame seq sendNs).length = kFrameSize := by
  simp [buildFrame, putU64be, kFrameSize]

/-- What the client checks of an echo. -/
theorem check_buildFrame {seq : ℕ} (bound : seq < 2 ^ 64) (sendNs : ℕ) :
    frameHeaderOk (buildFrame seq sendNs) ∧ getU64be ((buildFrame seq sendNs).drop 4) = seq :=
  ⟨rfl, getU64be_putU64be bound _⟩

namespace Measure

/-- Where `cmd_measure` stands in an iteration. -/
inductive Client where
  | sending (i : ℕ) (left : Bytes)
  | receiving (i : ℕ) (frame : Bytes)
  | mismatched (i : ℕ)
  | finished
deriving DecidableEq, Repr

structure Setup where
  lang : Language
  server : Server
  n : ℕ
  warmup : ℕ
  /-- How many bytes the connection holds in either direction. -/
  upRoom : ℕ
  downRoom : ℕ

/-- The samples are the iterations whose time is kept. -/
structure Loop where
  client : Client
  samples : List ℕ
  server : State
  up : Bytes
  down : Bytes
deriving DecidableEq, Repr

inductive Act where
  | clientWrite (k : ℕ)
  | clientRead (k : ℕ)
  | serverRead (k : ℕ)
  | serverWrite (k : ℕ)
deriving DecidableEq, Repr

namespace Setup

variable (p : Setup)

def total : ℕ := p.n + p.warmup

/-- The head of the loop. -/
def iterate (i : ℕ) : Client := if i < p.total then .sending i (buildFrame i 0) else .finished

/-- An echo is complete. -/
def check (i : ℕ) (frame : Bytes) (s : Loop) : Loop :=
  if frameHeaderOk frame ∧ getU64be (frame.drop 4) = i then
    { s with
      client := p.iterate (i + 1)
      samples := if p.warmup ≤ i then s.samples ++ [i] else s.samples }
  else { s with client := .mismatched i }

def step (s : Loop) : Act → Option Loop
  | .clientWrite k =>
    match s.client with
    | .sending i left =>
      if 0 < k ∧ k ≤ left.length ∧ s.up.length + k ≤ p.upRoom then
        some { s with
          client := if k < left.length then .sending i (left.drop k) else .receiving i []
          up := s.up ++ left.take k }
      else none
    | _ => none
  | .clientRead k =>
    match s.client with
    | .receiving i frame =>
      if 0 < k ∧ k ≤ s.down.length ∧ frame.length + k ≤ kFrameSize then
        let got := frame ++ s.down.take k
        let s := { s with down := s.down.drop k }
        if got.length < kFrameSize then some { s with client := .receiving i got }
        else some (p.check i got s)
      else none
    | _ => none
  | .serverRead k =>
    if 0 < k ∧ k ≤ s.up.length then
      (s.server.step p.lang p.server (.read (.data (s.up.take k)))).map fun server =>
        { s with server := server, up := s.up.drop k }
    else none
  | .serverWrite k =>
    match s.server.phase with
    | .writing left =>
      if 0 < k ∧ s.down.length + k ≤ p.downRoom then
        (s.server.step p.lang p.server (.write (.count k))).map fun server =>
          { s with server := server, down := s.down ++ left.take k }
      else none
    | _ => none

def machine : Machine Loop Act := ⟨⟨p.iterate 0, [], {}, [], []⟩, p.step⟩

end Setup

/-- The frame under way: what the client has of it, what is on the way back, what the server has,
what is on the way there, and what the client has yet to send. -/
structure UnderWay (i : ℕ) (s : Loop) (got left : Bytes) : Prop where
  whole : got ++ s.down ++ s.server.phase.pending ++ s.up ++ left = buildFrame i 0
  reading : ∀ frame, s.server.phase = .reading frame → frame.length < kFrameSize ∧
    (got = [] ∧ s.down = [] ∨ frame = [] ∧ s.up = [] ∧ left = [])
  writing : ∀ rest, s.server.phase = .writing rest → rest ≠ [] ∧ s.up = [] ∧ left = []
  opened : s.server.phase ≠ .closed

/-- The iterations whose times have been kept. -/
def kept (warmup i : ℕ) : List ℕ := (List.range i).filter (warmup ≤ ·)

inductive Fine (p : Setup) (s : Loop) : Prop where
  | sending (i : ℕ) (left : Bytes) (client : s.client = .sending i left) (more : i < p.total)
      (full : left ≠ []) (way : UnderWay i s [] left) (samples : s.samples = kept p.warmup i)
  | receiving (i : ℕ) (frame : Bytes) (client : s.client = .receiving i frame) (more : i < p.total)
      (short : frame.length < kFrameSize) (way : UnderWay i s frame [])
      (samples : s.samples = kept p.warmup i)
  | finished (client : s.client = .finished) (samples : s.samples = kept p.warmup p.total)

section Steps

variable {p : Setup} {s t : Loop} {i k : ℕ} {got left : Bytes} {server : State}

theorem kept_succ (warmup i : ℕ) :
    kept warmup (i + 1) = if warmup ≤ i then kept warmup i ++ [i] else kept warmup i := by
  rw [kept, List.range_succ, List.filter_append]
  split_ifs with late <;> simp [kept, late]

theorem UnderWay.length (way : UnderWay i s got left) :
    got.length + s.down.length + s.server.phase.pending.length + s.up.length + left.length =
      kFrameSize := by
  have length := congrArg List.length way.whole
  rw [length_buildFrame] at length
  simpa only [List.length_append] using length

/-- The server reads a part of the frame, or the last of it. -/
theorem UnderWay.serverRead (way : UnderWay i s got left) (moves : 0 < k) (there : k ≤ s.up.length)
    (taken : s.server.step p.lang p.server (.read (.data (s.up.take k))) = some server) :
    UnderWay i { s with server := server, up := s.up.drop k } got left := by
  have full : (s.up.take k).length = k := List.length_take_of_le there
  have data : s.up.take k ≠ [] := List.ne_nil_of_length_pos (full.symm ▸ moves)
  have busy : s.up ≠ [] := List.ne_nil_of_length_pos (by omega)
  have total := way.length
  have whole := way.whole
  rw [State.step] at taken
  cases phase : s.server.phase with
  | closed => exact absurd phase way.opened
  | writing rest => exact absurd (way.writing rest phase).2.1 busy
  | reading frame =>
    obtain ⟨rfl, nothing⟩ : got = [] ∧ s.down = [] :=
      ((way.reading frame phase).2).resolve_right fun other => busy other.2.1
    rw [phase] at taken whole total
    simp only [data, if_false] at taken
    rw [nothing, Phase.pending, ← List.take_append_drop k s.up] at whole
    rw [Phase.pending] at total
    split_ifs at taken with more last
    · obtain rfl := Option.some.inj taken
      refine ⟨?_, fun _ same => ?_, fun _ same => (by cases same), Phase.noConfusion⟩
      · simpa only [nothing, Phase.pending, List.append_assoc] using whole
      · cases same
        exact ⟨by rw [List.length_append]; exact more, .inl ⟨rfl, nothing⟩⟩
    · obtain rfl := Option.some.inj taken
      refine ⟨?_, fun _ same => (by cases same), fun _ same => ?_, Phase.noConfusion⟩
      · simpa only [nothing, Phase.pending, List.append_assoc] using whole
      · cases same
        refine ⟨by simp [data], List.drop_eq_nil_iff.mpr ?_, List.length_eq_zero_iff.mp ?_⟩ <;> omega

/-- The server writes a part of the frame back, or the last of it. -/
theorem UnderWay.serverWrite (way : UnderWay i s got left) {rest : Bytes}
    (phase : s.server.phase = .writing rest)
    (taken : s.server.step p.lang p.server (.write (.count k)) = some server) :
    UnderWay i { s with server := server, down := s.down ++ rest.take k } got left := by
  obtain ⟨-, arrived, rfl⟩ := way.writing rest phase
  have whole := way.whole
  rw [State.step, phase] at taken
  rw [phase, Phase.pending, arrived, ← List.take_append_drop k rest] at whole
  simp only at taken
  split_ifs at taken with more last
  · obtain rfl := Option.some.inj taken
    refine ⟨?_, fun _ same => (by cases same), fun _ same => ?_, Phase.noConfusion⟩
    · simpa only [arrived, Phase.pending, List.append_assoc] using whole
    · cases same
      exact ⟨List.ne_nil_of_length_pos (by rw [List.length_drop]; omega), arrived, rfl⟩
  · obtain rfl := Option.some.inj taken
    have all : rest.drop k = [] := List.drop_eq_nil_iff.mpr last.ge
    refine ⟨?_, fun _ same => ?_, fun _ same => (by cases same), Phase.noConfusion⟩
    · rw [all] at whole
      simpa only [arrived, Phase.pending, List.append_assoc] using whole
    · cases same
      exact ⟨by decide, .inr ⟨rfl, arrived, rfl⟩⟩

/-- The client sends a part of the frame. -/
theorem UnderWay.clientWrite (way : UnderWay i s [] left) (more : left ≠ []) (c : Client) :
    UnderWay i { s with client := c, up := s.up ++ left.take k } [] (left.drop k) := by
  have whole := way.whole
  rw [← List.take_append_drop k left] at whole
  refine ⟨by simpa only [List.append_assoc] using whole, fun frame phase => ?_, fun rest phase => ?_,
    way.opened⟩
  · obtain ⟨short, cases⟩ := way.reading frame phase
    exact ⟨short, .inl (cases.resolve_right fun other => more other.2.2)⟩
  · exact absurd (way.writing rest phase).2.2 more

/-- The client reads a part of the echo. -/
theorem UnderWay.clientRead (way : UnderWay i s got []) (there : s.down ≠ []) (c : Client) :
    UnderWay i { s with client := c, down := s.down.drop k } (got ++ s.down.take k) [] := by
  have whole := way.whole
  rw [← List.take_append_drop k s.down] at whole
  refine ⟨by simpa only [List.append_assoc] using whole, fun frame phase => ?_, way.writing, way.opened⟩
  obtain ⟨short, cases⟩ := way.reading frame phase
  exact ⟨short, .inr (cases.resolve_left fun other => there other.2)⟩

/-- The next frame, or the end. -/
theorem fine_iterate (samples : s.samples = kept p.warmup i) (client : s.client = p.iterate i)
    (reached : i ≤ p.total) (phase : s.server.phase = .reading []) (up : s.up = [])
    (down : s.down = []) : Fine p s := by
  rw [Setup.iterate] at client
  split_ifs at client with more
  · refine .sending i _ client more (List.ne_nil_of_length_pos ?_) ⟨?_, ?_, ?_, ?_⟩ samples
    · rw [length_buildFrame]
      decide
    · rw [phase, up, down]
      rfl
    · intro frame same
      obtain rfl := Phase.reading.inj (phase.symm.trans same)
      exact ⟨by decide, .inl ⟨rfl, down⟩⟩
    · intro rest same
      cases phase.symm.trans same
    · rw [phase]
      exact Phase.noConfusion
  · obtain rfl : i = p.total := Nat.le_antisymm reached (Nat.le_of_not_lt more)
    exact .finished client samples

/-- The whole echo is the frame that was sent. -/
theorem fine_check (bound : p.total ≤ 2 ^ 64) (more : i < p.total)
    (samples : s.samples = kept p.warmup i) (way : UnderWay i s got []) (whole : got.length = kFrameSize) : Fine p (p.check i got s) := by
  have length := way.length
  have down : s.down = [] := List.length_eq_zero_iff.mp (by omega)
  have up : s.up = [] := List.length_eq_zero_iff.mp (by omega)
  have pending : s.server.phase.pending = [] := List.length_eq_zero_iff.mp (by omega)
  have echo : got = buildFrame i 0 := by
    have whole := way.whole
    rw [down, up, pending] at whole
    simpa only [List.append_nil] using whole
  have phase : s.server.phase = .reading [] := by
    cases phase : s.server.phase with
    | closed => exact absurd phase way.opened
    | writing rest =>
      rw [phase] at pending
      exact absurd pending (way.writing rest phase).1
    | reading frame =>
      rw [phase] at pending
      exact congrArg Phase.reading pending
  obtain ⟨header, seq⟩ := check_buildFrame (lt_of_lt_of_le more bound) 0
  rw [Setup.check, echo, if_pos ⟨header, seq⟩]
  refine fine_iterate (i := i + 1) ?_ rfl more phase up down
  rw [kept_succ, ← samples]

theorem Fine.step {a : Act} (bound : p.total ≤ 2 ^ 64) (fine : Fine p s)
    (taken : p.step s a = some t) : Fine p t := by
  cases a with
  | clientWrite k =>
    simp only [Setup.step] at taken
    cases fine with
    | receiving i frame client => simp [client] at taken
    | finished client => simp [client] at taken
    | sending i left client more full way samples =>
      simp only [client] at taken
      split_ifs at taken with room part
      · obtain rfl := Option.some.inj taken
        refine .sending i _ rfl more ?_ (way.clientWrite full _) samples
        exact List.ne_nil_of_length_pos (by rw [List.length_drop]; omega)
      · obtain rfl := Option.some.inj taken
        have all : left.drop k = [] := List.drop_eq_nil_iff.mpr (Nat.le_of_not_lt part)
        refine .receiving i [] rfl more (by decide) ?_ samples
        have sent := way.clientWrite (k := k) full (.receiving i [])
        rwa [all] at sent
  | clientRead k =>
    simp only [Setup.step] at taken
    cases fine with
    | sending i left client => simp [client] at taken
    | finished client => simp [client] at taken
    | receiving i frame client more short way samples =>
      simp only [client] at taken
      split_ifs at taken with room part
      · obtain rfl := Option.some.inj taken
        have there : s.down ≠ [] := List.ne_nil_of_length_pos (by omega)
        exact .receiving i _ rfl more part (way.clientRead there _) samples
      · obtain rfl := Option.some.inj taken
        have there : s.down ≠ [] := List.ne_nil_of_length_pos (by omega)
        refine fine_check bound more samples (way.clientRead there (.receiving i frame)) ?_
        have length : (frame ++ s.down.take k).length = frame.length + k := by
          rw [List.length_append, List.length_take_of_le room.2.1]
        omega
  | serverRead k =>
    simp only [Setup.step] at taken
    split_ifs at taken with room
    obtain ⟨server, step, rfl⟩ := Option.map_eq_some_iff.mp taken
    cases fine with
    | sending i left client more full way samples =>
      exact .sending i left client more full (way.serverRead room.1 room.2 step) samples
    | receiving i frame client more short way samples =>
      exact .receiving i frame client more short (way.serverRead room.1 room.2 step) samples
    | finished client samples => exact .finished client samples
  | serverWrite k =>
    simp only [Setup.step] at taken
    cases phase : s.server.phase with
    | reading | closed => simp [phase] at taken
    | writing rest =>
      simp only [phase] at taken
      split_ifs at taken with room
      obtain ⟨server, step, rfl⟩ := Option.map_eq_some_iff.mp taken
      cases fine with
      | sending i left client more full way samples =>
        exact .sending i left client more full (way.serverWrite phase step) samples
      | receiving i frame client more short way samples =>
        exact .receiving i frame client more short (way.serverWrite phase step) samples
      | finished client samples => exact .finished client samples

end Steps

/-! That it ends. -/

def Client.rank (total : ℕ) : Client → ℕ
  | .sending i left => 4 * kFrameSize * (total - 1 - i) + 4 * left.length
  | .receiving i _ => 4 * kFrameSize * (total - 1 - i)
  | .mismatched _ | .finished => 0

/-- Every byte has four calls to pass. -/
def Loop.rank (total : ℕ) (s : Loop) : ℕ :=
  s.client.rank total + 3 * s.up.length + 2 * s.server.phase.pending.length + s.down.length

section Progress

variable {p : Setup} {s t : Loop} {i k : ℕ} {got left : Bytes}

theorem check_client (frame : Bytes) (s : Loop) :
    (p.check i frame s).client = p.iterate (i + 1) ∨ (p.check i frame s).client = .mismatched i := by
  rw [Setup.check]
  split_ifs
  · exact .inl rfl
  · exact .inl rfl
  · exact .inr rfl

theorem check_rest (frame : Bytes) (s : Loop) :
    (p.check i frame s).server = s.server ∧ (p.check i frame s).up = s.up ∧
      (p.check i frame s).down = s.down := by
  rw [Setup.check]
  split_ifs <;> exact ⟨rfl, rfl, rfl⟩

/-- The next frame has less to go than what was left of this one. -/
theorem rank_check (frame : Bytes) (s : Loop) :
    (p.check i frame s).client.rank p.total ≤ 4 * kFrameSize * (p.total - 1 - i) := by
  rcases check_client (p := p) (i := i) frame s with next | mismatch
  · rw [next, Setup.iterate]
    split_ifs with next
    · have steps : p.total - 1 - i = p.total - 1 - (i + 1) + 1 := by omega
      rw [Client.rank, length_buildFrame, steps, Nat.mul_succ]
    · exact Nat.zero_le _
  · rw [mismatch]
    exact Nat.zero_le _

theorem length_pending_read {server next : State} {bytes : Bytes} (data : bytes ≠ [])
    (taken : server.step p.lang p.server (.read (.data bytes)) = some next) :
    next.phase.pending.length = server.phase.pending.length + bytes.length := by
  rw [State.step] at taken
  cases phase : server.phase with
  | closed | writing => simp [phase] at taken
  | reading frame =>
    rw [phase] at taken
    simp only [data, if_false] at taken
    split_ifs at taken
    · obtain rfl := Option.some.inj taken
      exact List.length_append
    · obtain rfl := Option.some.inj taken
      exact List.length_append

theorem length_pending_write {server next : State} {rest : Bytes}
    (phase : server.phase = .writing rest)
    (taken : server.step p.lang p.server (.write (.count k)) = some next) :
    next.phase.pending.length + k = rest.length ∧ (rest.take k).length = k := by
  rw [State.step, phase] at taken
  simp only at taken
  split_ifs at taken with more last
  · obtain rfl := Option.some.inj taken
    refine ⟨?_, List.length_take_of_le more.le⟩
    simp only [Phase.pending, List.length_drop]
    omega
  · obtain rfl := Option.some.inj taken
    refine ⟨?_, List.length_take_of_le last.le⟩
    simp only [Phase.pending, List.length_nil]
    omega

theorem Fine.falls {a : Act} (fine : Fine p s) (taken : p.step s a = some t) :
    t.rank p.total < s.rank p.total := by
  cases a with
  | clientWrite k =>
    simp only [Setup.step] at taken
    cases fine with
    | receiving i frame client => simp [client] at taken
    | finished client => simp [client] at taken
    | sending i left client more full way samples =>
      simp only [client] at taken
      split_ifs at taken with room part
      · obtain rfl := Option.some.inj taken
        simp only [Loop.rank, client, Client.rank, List.length_append, List.length_drop,
          List.length_take_of_le room.2.1]
        omega
      · obtain rfl := Option.some.inj taken
        simp only [Loop.rank, client, Client.rank, List.length_append,
          List.length_take_of_le room.2.1]
        omega
  | clientRead k =>
    simp only [Setup.step] at taken
    cases fine with
    | sending i left client => simp [client] at taken
    | finished client => simp [client] at taken
    | receiving i frame client more short way samples =>
      simp only [client] at taken
      split_ifs at taken with room part
      · obtain rfl := Option.some.inj taken
        simp only [Loop.rank, client, Client.rank, List.length_drop]
        omega
      · obtain rfl := Option.some.inj taken
        have less := rank_check (p := p) (i := i) (frame ++ s.down.take k)
          { s with client := .receiving i frame, down := s.down.drop k }
        obtain ⟨server, up, down⟩ := check_rest (p := p) (i := i) (frame ++ s.down.take k)
          { s with client := .receiving i frame, down := s.down.drop k }
        rw [Loop.rank, Loop.rank, server, up, down, client, Client.rank, List.length_drop]
        dsimp only
        omega
  | serverRead k =>
    simp only [Setup.step] at taken
    split_ifs at taken with room
    obtain ⟨server, step, rfl⟩ := Option.map_eq_some_iff.mp taken
    have full : (s.up.take k).length = k := List.length_take_of_le room.2
    have length := length_pending_read (List.ne_nil_of_length_pos (full.symm ▸ room.1)) step
    simp only [Loop.rank, List.length_drop]
    omega
  | serverWrite k =>
    simp only [Setup.step] at taken
    cases phase : s.server.phase with
    | reading | closed => simp [phase] at taken
    | writing rest =>
      simp only [phase] at taken
      split_ifs at taken with room
      obtain ⟨server, step, rfl⟩ := Option.map_eq_some_iff.mp taken
      obtain ⟨length, full⟩ := length_pending_write phase step
      have before : s.server.phase.pending.length = rest.length := by
        rw [phase]
        rfl
      simp only [Loop.rank, List.length_append, full]
      omega

/-- Somebody can move a byte until the client is finished. -/
theorem Fine.exists_step (fine : Fine p s) (up : 0 < p.upRoom) (down : 0 < p.downRoom)
    (short : s.client ≠ .finished) : ∃ a, (p.step s a).isSome := by
  have reads (i : ℕ) (got left : Bytes) (way : UnderWay i s got left) (there : s.up ≠ []) :
      ∃ a, (p.step s a).isSome := by
    refine ⟨.serverRead 1, ?_⟩
    have some_up : 0 < s.up.length := List.length_pos_iff.mpr there
    have full : (s.up.take 1).length = 1 := List.length_take_of_le some_up
    rw [Setup.step, if_pos ⟨Nat.one_pos, some_up⟩, Option.isSome_map, State.step]
    cases phase : s.server.phase with
    | closed => exact absurd phase way.opened
    | writing rest => exact absurd (way.writing rest phase).2.1 there
    | reading frame =>
      have data : s.up.take 1 ≠ [] := List.ne_nil_of_length_pos (by rw [full]; exact Nat.one_pos)
      have below := (way.reading frame phase).1
      simp only [data, if_false, full]
      split_ifs with more last
      · rfl
      · rfl
      · omega
  cases fine with
  | finished client => exact absurd client short
  | sending i left client more full way =>
    by_cases room : s.up.length + 1 ≤ p.upRoom
    · refine ⟨.clientWrite 1, ?_⟩
      have some_left : 0 < left.length := List.length_pos_iff.mpr full
      simp [Setup.step, client, room, Nat.succ_le_of_lt some_left]
    · exact reads i [] left way (List.ne_nil_of_length_pos (by omega))
  | receiving i frame client more part way =>
    by_cases echoed : s.down = []
    · cases phase : s.server.phase with
      | closed => exact absurd phase way.opened
      | writing rest =>
        refine ⟨.serverWrite 1, ?_⟩
        have some_rest : 0 < rest.length := List.length_pos_iff.mpr (way.writing rest phase).1
        have room : s.down.length + 1 ≤ p.downRoom := by rw [echoed]; exact down
        rw [Setup.step, phase]
        simp only [Nat.one_pos, room, and_self, if_true, Option.isSome_map, State.step, phase]
        split_ifs with before last
        · rfl
        · rfl
        · omega
      | reading read =>
        refine reads i frame [] way fun gone => ?_
        have length := way.length
        rw [echoed, gone, phase] at length
        simp only [Phase.pending, List.length_nil] at length
        obtain ⟨below, ⟨rfl, -⟩ | ⟨rfl, -⟩⟩ := way.reading read phase
        · rw [List.length_nil] at length
          omega
        · rw [List.length_nil] at length
          omega
    · refine ⟨.clientRead 1, ?_⟩
      have some_down : 0 < s.down.length := List.length_pos_iff.mpr echoed
      have room : frame.length + 1 ≤ kFrameSize := part
      simp only [Setup.step, client]
      rw [if_pos ⟨Nat.one_pos, some_down, room⟩]
      split_ifs <;> rfl

end Progress

end Measure

end LinuxSys.Fastpath
