import Mathlib.Logic.Function.Basic

/-! # Waiting on a word

A futex: a word, the values on which its waiters sleep, and a wake that reaches all of them. The
kernel compares and puts to sleep in one step. `woken` is history: the wake that belongs to the last
store has been issued.
-/

namespace LinuxSys.Lib

structure Futex (ι : Type*) (α : Type*) where
  word : α
  asleep : ι → Option α := fun _ => none
  woken : Bool := true

namespace Futex

variable {ι α : Type*}

def store (f : Futex ι α) (v : α) : Futex ι α := { f with word := v, woken := false }

/-- `FUTEX_WAKE` of every waiter. -/
def wakeAll (f : Futex ι α) : Futex ι α := { f with asleep := fun _ => none, woken := true }

/-- Whoever sleeps on another value is still to be woken. -/
def Sound (f : Futex ι α) : Prop := ∀ i v, f.asleep i = some v → f.word ≠ v → f.woken = false

theorem sound_of_awake {f : Futex ι α} (awake : ∀ i, f.asleep i = none) : f.Sound := by
  intro i v asleep
  rw [awake i] at asleep
  cases asleep

theorem sound_store (f : Futex ι α) (v : α) : (f.store v).Sound := fun _ _ _ _ => rfl

theorem sound_wakeAll (f : Futex ι α) : f.wakeAll.Sound := sound_of_awake fun _ => rfl

variable [DecidableEq ι]

/-- `FUTEX_WAIT`: sleep if the word is still the expected value. -/
def wait [DecidableEq α] (f : Futex ι α) (i : ι) (expected : α) : Futex ι α :=
  if f.word = expected then { f with asleep := Function.update f.asleep i (some expected) } else f

/-- A waiter leaves by itself: its time is up, or a signal came. -/
def leave (f : Futex ι α) (i : ι) : Futex ι α :=
  { f with asleep := Function.update f.asleep i none }

theorem Sound.set {f : Futex ι α} (sound : f.Sound) (i : ι) {value : Option α}
    (right : ∀ v, value = some v → f.word = v) :
    ({ f with asleep := Function.update f.asleep i value } : Futex ι α).Sound := by
  intro j v asleep moved
  change Function.update f.asleep i value j = some v at asleep
  rcases eq_or_ne j i with rfl | other
  · rw [Function.update_self] at asleep
    exact absurd (right v asleep) moved
  · rw [Function.update_of_ne other] at asleep
    exact sound j v asleep moved

theorem Sound.wait [DecidableEq α] {f : Futex ι α} (sound : f.Sound) (i : ι) (expected : α) :
    (f.wait i expected).Sound := by
  rw [Futex.wait]
  split
  · next same =>
    apply sound.set
    rintro v ⟨⟩
    exact same
  · exact sound

theorem Sound.leave {f : Futex ι α} (sound : f.Sound) (i : ι) : (f.leave i).Sound := by
  apply sound.set
  rintro v ⟨⟩

end Futex

end LinuxSys.Lib
