import LinuxSys.Lib.Progress

/-! # Locks and condition variables

The threads that share a condition variable are away from it, awake to test its condition, or
asleep. `supply` says how many of them the condition would let pass, `pending` how many
notifications of one thread are still to come. While somebody sleeps, the supply is covered by
threads that are awake and notifications that are pending: then no wake-up is lost.
-/

namespace LinuxSys.Lib

/-- A lock's holder is the started thread that stands at a place where the lock is held. -/
def Owned {ι : Type*} (started : ι → Prop) (locked : ι → Bool) (holder : Option ι) : Prop :=
  ∀ i, started i ∧ locked i = true ↔ holder = some i

namespace Owned

variable {ι : Type*} [DecidableEq ι] {started : ι → Prop} {locked : ι → Bool} {holder : Option ι}
  {i : ι}

theorem acquire (owned : Owned started locked none) (mine : started i) :
    Owned started (Function.update locked i true) (some i) := by
  intro j
  rcases eq_or_ne j i with rfl | apart
  · simp [mine]
  · rw [Function.update_of_ne apart, owned j]
    simp [apart.symm]

theorem release (owned : Owned started locked holder) (mine : started i) (here : locked i = true) :
    Owned started (Function.update locked i false) none := by
  intro j
  rcases eq_or_ne j i with rfl | apart
  · simp
  · rw [Function.update_of_ne apart, owned j, (owned i).mp ⟨mine, here⟩]
    simp [apart.symm]

theorem keep (owned : Owned started locked holder) {b : Bool} (same : locked i = b) :
    Owned started (Function.update locked i b) holder := by
  rw [← same, Function.update_eq_self]
  exact owned

end Owned

/-- How many of the first `n` members of a family have the property. -/
def count {β : Type*} (p : β → Bool) (g : ℕ → β) (n : ℕ) : ℕ :=
  ∑ i ∈ Finset.range n, if p (g i) then 1 else 0

section Count

variable {β : Type*} {p : β → Bool} {g : ℕ → β} {n i : ℕ} {v : β}

theorem count_update (p : β → Bool) (g : ℕ → β) (inside : i < n) (v : β) :
    count p (Function.update g i v) n + (if p (g i) then 1 else 0) =
      count p g n + (if p v then 1 else 0) :=
  sum_update (fun b => if p b then 1 else 0) g inside v

theorem count_update_same (inside : i < n) (same : p v = p (g i)) :
    count p (Function.update g i v) n = count p g n := by
  have counts := count_update p g inside v
  rw [same] at counts
  omega

theorem count_update_gain (inside : i < n) (before : p (g i) = false) (after : p v = true) :
    count p (Function.update g i v) n = count p g n + 1 := by
  simpa [before, after] using count_update p g inside v

theorem count_update_loss (inside : i < n) (before : p (g i) = true) (after : p v = false) :
    count p (Function.update g i v) n + 1 = count p g n := by
  simpa [before, after] using count_update p g inside v

theorem count_eq_zero (none : ∀ i < n, p (g i) = false) : count p g n = 0 := by
  apply Finset.sum_eq_zero
  intro i member
  rw [none i (Finset.mem_range.mp member)]
  rfl

end Count

/-- How a thread stands to a condition variable. -/
inductive Stand where
  | away
  | awake
  | asleep
deriving DecidableEq, Repr

def Stand.isAwake (s : Stand) : Bool := s = .awake

theorem awake_update {stands : ℕ → Stand} {n i : ℕ} (inside : i < n)
    (asleep : stands i ≠ .awake) :
    count Stand.isAwake (Function.update stands i .awake) n = count Stand.isAwake stands n + 1 := by
  have before : Stand.isAwake (stands i) = false := decide_eq_false asleep
  exact count_update_gain inside before rfl

theorem awake_update_away {stands : ℕ → Stand} {n i : ℕ} (inside : i < n)
    (awake : stands i = .awake) :
    count Stand.isAwake (Function.update stands i .away) n + 1 = count Stand.isAwake stands n := by
  have before : Stand.isAwake (stands i) = true := decide_eq_true awake
  exact count_update_loss inside before rfl

/-- While one of the `n` threads sleeps, the supply is covered. -/
def Covered (stands : ℕ → Stand) (n pending supply : ℕ) : Prop :=
  ∀ i < n, stands i = .asleep → supply ≤ count Stand.isAwake stands n + pending

namespace Covered

variable {stands : ℕ → Stand} {n i pending supply : ℕ}

theorem empty (stands : ℕ → Stand) (n pending : ℕ) : Covered stands n pending 0 :=
  fun _ _ _ => Nat.zero_le _

theorem of_awake (none : ∀ i < n, stands i ≠ .asleep) : Covered stands n pending supply :=
  fun i inside asleep => absurd asleep (none i inside)

/-- More is supplied, and a notification is to follow. -/
theorem provide (covered : Covered stands n pending supply) :
    Covered stands n (pending + 1) (supply + 1) :=
  fun i inside asleep => Nat.succ_le_succ (covered i inside asleep)

/-- A thread arrives, or is woken by nobody. -/
theorem rouse (covered : Covered stands n pending supply) (inside : i < n) :
    Covered (Function.update stands i .awake) n pending supply := by
  intro j other asleep
  have apart : j ≠ i := by
    rintro rfl
    rw [Function.update_self] at asleep
    cases asleep
  rw [Function.update_of_ne apart] at asleep
  have before := covered j other asleep
  by_cases awake : stands i = .awake
  · rw [← awake, Function.update_eq_self]
    exact before
  · rw [awake_update inside awake]
    omega

/-- A pending notification reaches a sleeper. -/
theorem notify (covered : Covered stands n (pending + 1) supply) (inside : i < n)
    (asleep : stands i = .asleep) : Covered (Function.update stands i .awake) n pending supply := by
  intro j other still
  have apart : j ≠ i := by
    rintro rfl
    rw [Function.update_self] at still
    cases still
  rw [Function.update_of_ne apart] at still
  have before := covered j other still
  rw [awake_update inside (by rw [asleep]; decide)]
  omega

/-- A thread that is awake passes, and takes from the supply. -/
theorem take (covered : Covered stands n pending (supply + 1)) (inside : i < n)
    (awake : stands i = .awake) : Covered (Function.update stands i .away) n pending supply := by
  intro j other asleep
  have apart : j ≠ i := by
    rintro rfl
    rw [Function.update_self] at asleep
    cases asleep
  rw [Function.update_of_ne apart] at asleep
  have before := covered j other asleep
  have counts := awake_update_away inside awake
  omega

/-- Where nobody is awake and nothing is pending, a sleeper has nothing to go on with. -/
theorem supply_eq_zero (covered : Covered stands n 0 supply) (inside : i < n)
    (asleep : stands i = .asleep) (none : ∀ j < n, stands j ≠ .awake) : supply = 0 := by
  have bound := covered i inside asleep
  have nobody : count Stand.isAwake stands n = 0 :=
    count_eq_zero fun j other => decide_eq_false (none j other)
  omega

end Covered

end LinuxSys.Lib
