import LinuxSys.Lib.Futex
import LinuxSys.Shmkv.Watch

/-! # The wake-ups of shmkv v1

`serve` and `watch` once more, with the calls on the futex word one by one: `serve` publishes an
update under the lock, stores the word and wakes; `watch` takes a snapshot, loads the word, compares
it with the last id it has seen, and waits on it. A `serve` may be started again on the same file
while `watch` runs.
-/

namespace LinuxSys.Shmkv.Wakeup

open Lib

/-- Where `cmd_serve` stands: at update `k`, before the store of the word, before the wake. -/
inductive Serve where
  | opening
  | publishing (k : ℕ)
  | storing (k : ℕ)
  | waking (k : ℕ)
  | complete
deriving DecidableEq, Repr

/-- Where `cmd_watch` stands; `w` is the word it has loaded. -/
inductive Watch where
  | opening
  | top
  | reading (attempt : ℕ)
  | loading
  | comparing (w : BitVec 32)
  | calling (w : BitVec 32)
  | waiting
  | complete
  | failed
deriving DecidableEq, Repr

structure State where
  file : Option Shm := none
  futex : Futex Unit (BitVec 32) := { word := 0 }
  serve : Serve := .opening
  watch : Watch := .opening
  last : ℕ := 0
  printed : ℕ := 0

inductive Action where
  | create
  | lock (a : Seqlock.Action Cell)
  | storeWord
  | wake
  | finish
  | attach
  | timeout
  | top
  | giveUp
  | loadWord
  | compare
  | wait
  | leave
  | woken

/-- The body of the loop of `cmd_watch` on a snapshot. -/
def State.observe (events : Count) (s : State) (file : Shm)
    (got : (c : Cell) → Option c.Value) : State :=
  let counter := (taken got .counter : UInt64).toNat
  if counter > s.last then
    { s with
      file := some file
      watch := .top
      last := counter
      printed := s.printed + min (counter - s.last) (events.1 - s.printed) }
  else { s with file := some file, watch := .loading }

/-- A step on the shared file. -/
def State.lock (updates events : Count) (s : State) (before after : Shm) :
    Seqlock.Action Cell → Option State
  | .bump =>
    match s.serve with
    | .publishing k => if k ≤ updates.1 then some { s with file := some after } else none
    | _ => none
  | .store => some { s with file := some after }
  | .unbump =>
    match s.serve with
    | .publishing k => some { s with file := some after, serve := .storing k }
    | _ => none
  | .load =>
    match s.watch with
    | .reading attempt =>
      if attempt < 1000000 then
        some { s with
          file := some after
          watch := .reading (if after.reading.isSome then attempt else attempt + 1) }
      else none
    | _ => none
  | .copy _ =>
    match s.watch with
    | .reading _ => some { s with file := some after }
    | _ => none
  | .reload =>
    match s.watch with
    | .reading attempt =>
      match after.snaps with
      | snap :: _ => some (s.observe events { after with snaps := before.snaps } snap.got)
      | [] => some { s with file := some after, watch := .reading (attempt + 1) }
    | _ => none

def State.step (updates events : Count) (s : State) : Action → Option State
  | .create =>
    some { s with
      file := some { mem := zeroed, reading := s.file.bind (·.reading) }
      futex := s.futex.store 0
      serve := .publishing 1 }
  | .lock a =>
    match s.file with
    | none => none
    | some before =>
      match Seqlock.step publish cells before a with
      | none => none
      | some after => s.lock updates events before after a
  | .storeWord =>
    match s.serve with
    | .storing k => some { s with futex := s.futex.store (BitVec.ofNat 32 k), serve := .waking k }
    | _ => none
  | .wake =>
    match s.serve with
    | .waking k => some { s with futex := s.futex.wakeAll, serve := .publishing (k + 1) }
    | _ => none
  | .finish =>
    match s.serve with
    | .publishing k => if k ≤ updates.1 then none else some { s with serve := .complete }
    | _ => none
  | .attach =>
    match s.watch with
    | .opening => some { s with watch := if s.file.isSome then .top else .failed }
    | _ => none
  | .timeout =>
    match s.watch with
    | .top => if s.printed < events.1 then some { s with watch := .failed } else none
    | _ => none
  | .top =>
    match s.watch with
    | .top => some { s with watch := if s.printed < events.1 then .reading 0 else .complete }
    | _ => none
  | .giveUp =>
    match s.watch with
    | .reading attempt => if attempt < 1000000 then none else some { s with watch := .failed }
    | _ => none
  | .loadWord =>
    match s.watch with
    | .loading => some { s with watch := .comparing s.futex.word }
    | _ => none
  | .compare =>
    match s.watch with
    | .comparing w =>
      some { s with watch := if w ≠ BitVec.ofNat 32 s.last then .top else .calling w }
    | _ => none
  | .wait =>
    match s.watch with
    | .calling w => some { s with futex := s.futex.wait () w, watch := .waiting }
    | _ => none
  | .leave =>
    match s.watch with
    | .waiting => some { s with futex := s.futex.leave (), watch := .top }
    | _ => none
  | .woken =>
    match s.watch with
    | .waiting => if s.futex.asleep () = none then some { s with watch := .top } else none
    | _ => none

/-- `serve FILE --updates ..` beside `watch FILE --events ..`. -/
def shmkv (updates events : Count) : Machine State Action where
  init := {}
  step := State.step updates events

variable {updates events : Count} {s t : State}

/-- What a step does to the futex. -/
inductive Touch (f : Futex Unit (BitVec 32)) : Futex Unit (BitVec 32) → Prop
  | same : Touch f f
  | store (v : BitVec 32) : Touch f (f.store v)
  | wakeAll : Touch f f.wakeAll
  | wait (w : BitVec 32) : Touch f (f.wait () w)
  | leave : Touch f (f.leave ())

theorem Touch.keeps {f g : Futex Unit (BitVec 32)} (touch : Touch f g) (sound : f.Sound) :
    g.Sound := by
  cases touch with
  | same => exact sound
  | store v => exact f.sound_store v
  | wakeAll => exact f.sound_wakeAll
  | wait w => exact sound.wait () w
  | leave => exact sound.leave ()

/-- The copies of a reader are steps of the watcher. -/
theorem runFrom?_copies {attempt : ℕ} {cs : List Cell} {s : State} {before after : Shm}
    (file : s.file = some before) (watch : s.watch = .reading attempt)
    (shared : (shm publish zeroed).runFrom? before (cs.map .copy) = some after) :
    (shmkv updates events).runFrom? s (cs.map fun c => .lock (.copy c)) =
      some { s with file := some after } := by
  induction cs generalizing s before with
  | nil =>
    cases shared
    rw [← file]
    rfl
  | cons c rest ih =>
    obtain ⟨middle, first, later⟩ := (Machine.runFrom?_cons_eq_some _).mp shared
    rw [shm_step] at first
    have step : (shmkv updates events).step s (.lock (.copy c)) =
        some { s with file := some middle } := by
      simp only [shmkv, State.step, file, first, State.lock, watch]
    rw [List.map_cons, Machine.runFrom?_cons step]
    exact ih (s := { s with file := some middle }) rfl watch later

end LinuxSys.Shmkv.Wakeup
