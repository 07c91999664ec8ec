import Mathlib.Algebra.BigOperators.Group.Finset.Basic
import Mathlib.Algebra.Order.BigOperators.Group.Finset
import LinuxSys.Lib.Machine

/-! # Runs that reach a goal

Where every state short of the goal has a step that makes a measure smaller, some run reaches the
goal. A measure of a machine with many parts is a sum over the parts; a step changes a few of them.
-/

namespace LinuxSys.Lib

namespace Machine

variable {σ α : Type*} {m : Machine σ α}

/-- From every state of the invariant, some run of allowed steps that keep it reaches the goal. -/
theorem exists_run_within {inv goal : σ → Prop} {allowed : α → Prop} (measure : σ → ℕ)
    (progress : ∀ s, inv s → ¬ goal s →
      ∃ a t, allowed a ∧ m.step s a = some t ∧ inv t ∧ measure t < measure s)
    {s : σ} (start : inv s) :
    ∃ acts t, (∀ a ∈ acts, allowed a) ∧ m.runFrom? s acts = some t ∧ inv t ∧ goal t := by
  induction size : measure s using Nat.strongRecOn generalizing s with
  | ind size' ih =>
    subst size
    by_cases reached : goal s
    · exact ⟨[], s, by simp, rfl, start, reached⟩
    · obtain ⟨a, next, mine, taken, kept, less⟩ := progress s start reached
      obtain ⟨acts, t, all, run, inv, found⟩ := ih _ less kept rfl
      refine ⟨a :: acts, t, ?_, (runFrom?_cons taken acts).trans run, inv, found⟩
      exact List.forall_mem_cons.mpr ⟨mine, all⟩

/-- From every state of the invariant, some run of steps that keep it reaches the goal. -/
theorem exists_run {inv goal : σ → Prop} (measure : σ → ℕ)
    (progress : ∀ s, inv s → ¬ goal s → ∃ a t, m.step s a = some t ∧ inv t ∧ measure t < measure s)
    {s : σ} (start : inv s) : ∃ acts t, m.runFrom? s acts = some t ∧ inv t ∧ goal t := by
  have within : ∀ s, inv s → ¬ goal s →
      ∃ a t, True ∧ m.step s a = some t ∧ inv t ∧ measure t < measure s := by
    intro s here short
    obtain ⟨a, t, step⟩ := progress s here short
    exact ⟨a, t, trivial, step⟩
  obtain ⟨acts, t, -, run⟩ := exists_run_within measure within start
  exact ⟨acts, t, run⟩

/-- Where the steps that count make a measure smaller and the others leave it, a run has no more of
them than the measure. -/
theorem count_le_measure {inv : σ → Prop} {counts : α → Bool} (measure : σ → ℕ)
    (falls : ∀ s a t, inv s → m.step s a = some t →
      inv t ∧ measure t + (if counts a then 1 else 0) ≤ measure s)
    {s t : σ} {acts : List α} (start : inv s) (run : m.runFrom? s acts = some t) :
    inv t ∧ (acts.filter counts).length + measure t ≤ measure s := by
  induction acts generalizing s with
  | nil =>
    cases run
    exact ⟨start, by simp⟩
  | cons a rest ih =>
    obtain ⟨next, taken, tail⟩ := m.runFrom?_cons_eq_some.mp run
    obtain ⟨kept, less⟩ := falls s a next start taken
    obtain ⟨last, count⟩ := ih kept tail
    refine ⟨last, ?_⟩
    rw [List.filter_cons]
    split at less
    · next counted =>
      rw [if_pos counted, List.length_cons]
      omega
    · next other =>
      rw [if_neg other]
      omega

end Machine

/-- Replacing one value of a function changes its sum by the difference. -/
theorem sum_update_mem {ι β : Type*} [DecidableEq ι] (f : β → ℕ) (g : ι → β) {set : Finset ι}
    {i : ι} (member : i ∈ set) (v : β) :
    ∑ j ∈ set, f (Function.update g i v j) + f (g i) = ∑ j ∈ set, f (g j) + f v := by
  have rest : ∑ j ∈ set.erase i, f (Function.update g i v j) = ∑ j ∈ set.erase i, f (g j) := by
    refine Finset.sum_congr rfl fun j other => ?_
    rw [Function.update_of_ne (Finset.ne_of_mem_erase other)]
  rw [← Finset.add_sum_erase _ _ member, ← Finset.add_sum_erase _ (fun j => f (g j)) member, rest,
    Function.update_self]
  omega

theorem sum_update {β : Type*} (f : β → ℕ) (g : ℕ → β) {n i : ℕ} (inside : i < n) (v : β) :
    ∑ j ∈ Finset.range n, f (Function.update g i v j) + f (g i) =
      ∑ j ∈ Finset.range n, f (g j) + f v :=
  sum_update_mem f g (Finset.mem_range.mpr inside) v

end LinuxSys.Lib
