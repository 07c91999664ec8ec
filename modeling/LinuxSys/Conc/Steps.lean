import LinuxSys.Conc.Partings

/-! # What a step of a worker does

Every step moves one worker, and the rest of the state only as far as that move says. A count of
workers is a sum over their phases.
-/

namespace LinuxSys.Conc

open Lib

/-- A worker's moves, a spurious failure among them. -/
inductive Move (i : ℕ) (d : Digest) (o : Observations) : Phase → Observations → Phase → Prop
  | enter : Move i d o .starting
      { o with inflight := o.inflight + 1, levels := o.levels ++ [o.inflight + 1] }
      (.loading (o.inflight + 1))
  | load (now : ℤ) : Move i d o (.loading now) o (.raising now o.maxInflight)
  | raise (now : ℤ) (above : o.maxInflight < now) :
      Move i d o (.raising now o.maxInflight) { o with maxInflight := now } (.sampling 0 none 0)
  | retry (now seen : ℤ) : Move i d o (.raising now seen) o (.raising now o.maxInflight)
  | enough (now seen : ℤ) (below : now ≤ seen) : Move i d o (.raising now seen) o (.sampling 0 none 0)
  | draw (s : ℕ) (prev : Option ℕ) (acc : UInt64) (more : s < kSamplesPerWorker) :
      Move i d o (.sampling s prev acc)
        { o with ticket := o.ticket + 1, handed := o.handed ++ [(i, o.ticket)] }
        (.comparing s prev (burn acc) o.ticket)
  | sink (s : ℕ) (prev : Option ℕ) (acc : UInt64) (all : kSamplesPerWorker ≤ s) :
      Move i d o (.sampling s prev acc) { o with sink := o.sink ^^^ acc } .agreeing
  | compare (s : ℕ) (prev : Option ℕ) (acc : UInt64) (t : ℕ) : Move i d o (.comparing s prev acc t)
      { o with interleaves := o.interleaves + (skips prev t).toNat } (.placing s acc t)
  | place (s : ℕ) (acc : UInt64) (t : ℕ) (cpu : ℤ) : Move i d o (.placing s acc t)
      { o with cpuMask := marked o.cpuMask cpu } (.sampling (s + 1) (some t) acc)
  | first (empty : o.digest = 0) : Move i d o .agreeing { o with digest := d.value } .leaving
  | agree (full : o.digest ≠ 0) (same : o.digest = d.value) : Move i d o .agreeing o .leaving
  | differ (full : o.digest ≠ 0) (other : o.digest ≠ d.value) : Move i d o .agreeing o .objecting
  | object : Move i d o .objecting { o with consensus := false } .leaving
  | leave : Move i d o .leaving
      { o with inflight := o.inflight - 1, levels := o.levels ++ [o.inflight - 1] } .finished

theorem move_of_worker {i : ℕ} {d : Digest} {cpu : ℤ} {o : Observations} {p : Phase}
    {next : Observations × Phase} (taken : worker i d cpu o p = some next) :
    Move i d o p next.1 next.2 := by
  cases p with
  | starting =>
    cases taken
    exact .enter
  | loading now =>
    cases taken
    exact .load now
  | raising now seen =>
    simp only [worker] at taken
    split at taken
    · next below =>
      split at taken
      · next same =>
        cases taken
        subst same
        exact .raise now below
      · cases taken
        exact .retry now seen
    · next high =>
      cases taken
      exact .enough now seen (not_lt.mp high)
  | sampling s prev acc =>
    simp only [worker] at taken
    split at taken
    · next more =>
      cases taken
      exact .draw s prev acc more
    · next all =>
      cases taken
      exact .sink s prev acc (not_lt.mp all)
  | comparing s prev acc t =>
    cases taken
    have same : (if skips prev t then { o with interleaves := o.interleaves + 1 } else o) =
        { o with interleaves := o.interleaves + (skips prev t).toNat } := by
      cases skips prev t <;> rfl
    simp only [same]
    exact .compare s prev acc t
  | placing s acc t =>
    cases taken
    exact .place s acc t cpu
  | agreeing =>
    simp only [worker] at taken
    split at taken
    · next empty =>
      cases taken
      exact .first empty
    · next full =>
      cases taken
      dsimp only
      split
      · next same => exact .agree full same
      · next other => exact .differ full other
  | objecting =>
    cases taken
    exact .object
  | leaving =>
    cases taken
    exact .leave
  | finished => cases taken

section Step

variable {workers : ℕ} {digest : ℕ → Digest} {s t : State} {a : Action}

theorem move_of_step (taken : s.step workers digest a = some t) : ∃ i < workers, ∃ o p,
    Move i (digest i) s.obs (s.phases i) o p ∧ t = s.put i o p := by
  cases a with
  | go i cpu =>
    simp only [State.step] at taken
    split at taken
    · next inside =>
      obtain ⟨next, moved, rfl⟩ := Option.map_eq_some_iff.mp taken
      exact ⟨i, inside, next.1, next.2, move_of_worker moved, rfl⟩
    · cases taken
  | spurious i =>
    simp only [State.step] at taken
    split at taken
    · next inside =>
      obtain ⟨p, moved, rfl⟩ := Option.map_eq_some_iff.mp taken
      refine ⟨i, inside, s.obs, p, ?_, rfl⟩
      unfold Conc.spurious at moved
      split at moved
      · next now seen here =>
        split at moved
        · cases moved
          rw [here]
          exact .retry now seen
        · cases moved
      · cases moved
    · cases taken

end Step

/-! The state behind a move. -/

section Put

variable (s : State) (i : ℕ) (o : Observations) (p : Phase)

@[simp] theorem put_obs : (s.put i o p).obs = o := rfl

@[simp] theorem put_self : (s.put i o p).phases i = p := by
  simp [State.put]

theorem put_of_ne {j : ℕ} (other : j ≠ i) : (s.put i o p).phases j = s.phases j := by
  simp [State.put, other]

variable {s i o p} in
/-- What holds of the worker that moved and, still, of the others. -/
theorem forall_put {workers : ℕ} {q : ℕ → Phase → Prop} (here : q i p)
    (others : ∀ j < workers, j ≠ i → q j (s.phases j)) :
    ∀ j < workers, q j ((s.put i o p).phases j) := by
  intro j inside
  by_cases same : j = i
  · subst same
    rw [put_self]
    exact here
  · rw [put_of_ne _ _ _ _ same]
    exact others j inside same

end Put

end LinuxSys.Conc
