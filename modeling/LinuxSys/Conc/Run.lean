import LinuxSys.Lib.Bytes
import LinuxSys.Lib.Machine
import LinuxSys.Lib.Progress

/-! # The workers of conc ch49

Every worker raises the count of workers in flight and its high-water mark, draws its tickets,
compares its digest with the first one, and leaves. One step is one atomic operation of one worker,
with what the worker does by itself before or behind it. `handed` and `levels` are history.
-/

namespace LinuxSys.Conc

open Lib

def kPayload : Bytes :=
  [0x54, 0x68, 0x65, 0x20, 0x71, 0x75, 0x69, 0x63, 0x6b, 0x20, 0x62, 0x72, 0x6f, 0x77, 0x6e, 0x2e]

def kFnvOffsetBasis : UInt64 := 0xcbf29ce484222325

def kFnvPrime : UInt64 := 0x00000100000001b3

def fnv1a (data : Bytes) : UInt64 :=
  data.foldl (fun h b => (h ^^^ b.toUInt64) * kFnvPrime) kFnvOffsetBasis

def kSamplesPerWorker : ℕ := 240

def kBurnPerSample : ℕ := 900

/-- The bytes of a word, the low ones first. -/
def bytesOf (x : UInt64) : Bytes := (List.range 8).map fun k => (x >>> UInt64.ofNat (8 * k)).toUInt8

/-- The work between two samples. -/
def burn (acc : UInt64) : UInt64 :=
  (List.range kBurnPerSample).foldl (fun acc b => fnv1a (bytesOf acc) + UInt64.ofNat b) acc

/-- What a worker takes for the digest of the payload. An empty cell is 0, which no digest is. -/
structure Digest where
  value : UInt64
  full : value ≠ 0

/-- The digest that every worker of the program computes. -/
def payloadDigest : Digest := ⟨fnv1a kPayload, by decide +kernel⟩

structure Observations where
  ticket : ℕ := 0
  interleaves : ℕ := 0
  inflight : ℤ := 0
  maxInflight : ℤ := 0
  cpuMask : UInt64 := 0
  consensus : Bool := true
  digest : UInt64 := 0
  sink : UInt64 := 0
  /-- Each ticket with its worker. -/
  handed : List (ℕ × ℕ) := []
  /-- What `inflight` was. -/
  levels : List ℤ := [0]

/-- What a worker does next: count itself in, load the mark or raise it, draw a ticket, compare it
with the one before, note its CPU, compare its digest, object, or count itself out. -/
inductive Phase where
  | starting
  | loading (now : ℤ)
  | raising (now seen : ℤ)
  | sampling (s : ℕ) (prev : Option ℕ) (acc : UInt64)
  | comparing (s : ℕ) (prev : Option ℕ) (acc : UInt64) (t : ℕ)
  | placing (s : ℕ) (acc : UInt64) (t : ℕ)
  | agreeing
  | objecting
  | leaving
  | finished

/-- The next ticket does not follow the one before. -/
def skips (prev : Option ℕ) (t : ℕ) : Bool := prev.any fun p => t ≠ p + 1

def marked (mask : UInt64) (cpu : ℤ) : UInt64 :=
  if 0 ≤ cpu ∧ cpu < 64 then mask ||| (1 <<< UInt64.ofNat cpu.toNat) else mask

/-- The next operation of worker `i`, whose digest is `d`. -/
def worker (i : ℕ) (d : Digest) (cpu : ℤ) (o : Observations) : Phase → Option (Observations × Phase)
  | .starting =>
    some ({ o with inflight := o.inflight + 1, levels := o.levels ++ [o.inflight + 1] },
      .loading (o.inflight + 1))
  | .loading now => some (o, .raising now o.maxInflight)
  | .raising now seen =>
    if seen < now then
      if o.maxInflight = seen then some ({ o with maxInflight := now }, .sampling 0 none 0)
      else some (o, .raising now o.maxInflight)
    else some (o, .sampling 0 none 0)
  | .sampling s prev acc =>
    if s < kSamplesPerWorker then
      some ({ o with ticket := o.ticket + 1, handed := o.handed ++ [(i, o.ticket)] },
        .comparing s prev (burn acc) o.ticket)
    else some ({ o with sink := o.sink ^^^ acc }, .agreeing)
  | .comparing s prev acc t =>
    some (if skips prev t then { o with interleaves := o.interleaves + 1 } else o, .placing s acc t)
  | .placing s acc t =>
    some ({ o with cpuMask := marked o.cpuMask cpu }, .sampling (s + 1) (some t) acc)
  | .agreeing =>
    if o.digest = 0 then some ({ o with digest := d.value }, .leaving)
    else some (o, if o.digest = d.value then .leaving else .objecting)
  | .objecting => some ({ o with consensus := false }, .leaving)
  | .leaving =>
    some ({ o with inflight := o.inflight - 1, levels := o.levels ++ [o.inflight - 1] }, .finished)
  | .finished => none

/-- A `compare_exchange_weak` that fails for nothing; it loads the mark again. -/
def spurious (o : Observations) : Phase → Option Phase
  | .raising now seen => if seen < now then some (.raising now o.maxInflight) else none
  | _ => none

structure State where
  obs : Observations := {}
  phases : ℕ → Phase := fun _ => .starting

/-- A step of worker `i`, on some CPU, or a spurious failure in it. -/
inductive Action where
  | go (i : ℕ) (cpu : ℤ)
  | spurious (i : ℕ)

def State.put (s : State) (i : ℕ) (o : Observations) (p : Phase) : State :=
  ⟨o, Function.update s.phases i p⟩

variable (workers : ℕ) (digest : ℕ → Digest)

def State.step (s : State) : Action → Option State
  | .go i cpu =>
    if i < workers then
      (worker i (digest i) cpu s.obs (s.phases i)).map fun next => s.put i next.1 next.2
    else none
  | .spurious i =>
    if i < workers then (Conc.spurious s.obs (s.phases i)).map fun p => s.put i s.obs p else none

/-- `run_threaded` -/
def program : Machine State Action where
  init := {}
  step := State.step workers digest

/-! What the run is to report. -/

/-- When worker `i` drew, of the workers in the order of their draws. -/
def times (drawers : List ℕ) (i : ℕ) : List ℕ :=
  (List.range drawers.length).filter fun k => drawers[k]? = some i

/-- Between two draws of worker `i` another worker drew. -/
def parted (drawers : List ℕ) (i : ℕ) (pair : ℕ × ℕ) : Bool :=
  (List.range pair.2).any fun k => pair.1 < k && drawers[k]? ≠ some i

/-- The consecutive draws of worker `i` between which another worker drew. -/
def partings (drawers : List ℕ) (i : ℕ) : ℕ :=
  ((times drawers i).zip (times drawers i).tail).countP (parted drawers i)

structure Right (s : State) : Prop where
  empty : s.obs.inflight = 0
  peak : s.obs.maxInflight ∈ s.obs.levels ∧ ∀ v ∈ s.obs.levels, v ≤ s.obs.maxInflight
  least : 1 ≤ s.obs.maxInflight
  most : s.obs.maxInflight ≤ workers
  tickets : s.obs.handed.map Prod.snd = List.range (kSamplesPerWorker * workers)
  interleaves : s.obs.interleaves =
    ∑ i ∈ Finset.range workers, partings (s.obs.handed.map Prod.fst) i
  consensus : s.obs.consensus = false ↔
    ∃ i < workers, ∃ j < workers, (digest i).value ≠ (digest j).value

end LinuxSys.Conc
