import LinuxSys.Lib.Machine
import Mathlib.Order.Bounds.Defs

/-! # What a run has done

The events of all steps of a run, in order. An invariant may speak of the state and of what has
happened so far; it is proved one step at a time like any other.
-/

namespace LinuxSys.Lib

namespace Machine

variable {σ α β : Type*} (m : Machine σ α) (events : σ → α → List β)

/-- What the steps of a run give, in order. -/
def history : σ → List α → List β
  | _, [] => []
  | s, a :: rest => events s a ++ ((m.step s a).map fun next => history next rest).getD []

variable {m events}

theorem history_cons {s next : σ} {a : α} (taken : m.step s a = some next) (rest : List α) :
    m.history events s (a :: rest) = events s a ++ m.history events next rest := by
  rw [history, taken]
  rfl

/-- What every step keeps of a state and what has happened, every run keeps. -/
theorem history_keeps {inv : σ → List β → Prop}
    (keeps : ∀ s a t past, inv s past → m.step s a = some t → inv t (past ++ events s a))
    {s t : σ} {past : List β} {acts : List α} (start : inv s past)
    (run : m.runFrom? s acts = some t) : inv t (past ++ m.history events s acts) := by
  induction acts generalizing s past with
  | nil =>
    cases run
    exact (List.append_nil past).symm ▸ start
  | cons a rest ih =>
    obtain ⟨next, taken, tail⟩ := m.runFrom?_cons_eq_some.mp run
    rw [history_cons taken, ← List.append_assoc]
    exact ih (keeps s a next past start taken) tail

variable {s t : σ} {acts : List α}

/-- Where every step raises the mark to the size, it ends at the largest size on the way. -/
theorem isGreatest_of_run (size top : σ → ℕ)
    (raises : ∀ s a t, size s ≤ top s → m.step s a = some t → top t = max (top s) (size t))
    (start : top s = size s) (run : m.runFrom? s acts = some t) :
    IsGreatest {n | ∃ first last u, acts = first ++ last ∧ m.runFrom? s first = some u ∧
      size u = n} (top t) := by
  have walk : ∀ acts s, size s ≤ top s → m.runFrom? s acts = some t → top s ≤ top t ∧
      (∀ first last u, acts = first ++ last → m.runFrom? s first = some u → size u ≤ top t) ∧
      (top t = top s ∨ ∃ first last u, acts = first ++ last ∧ m.runFrom? s first = some u ∧
        size u = top t) := by
    intro acts
    induction acts with
    | nil =>
      intro s below run
      cases run
      refine ⟨Nat.le_refl _, fun first last u split run => ?_, .inl rfl⟩
      obtain ⟨rfl, rfl⟩ := List.append_eq_nil_iff.mp split.symm
      cases run
      exact below
    | cons a rest ih =>
      intro s below run
      obtain ⟨next, taken, tail⟩ := m.runFrom?_cons_eq_some.mp run
      have mark := raises s a next below taken
      obtain ⟨up, all, reached⟩ := ih next (by omega) tail
      refine ⟨by omega, fun first last u split run => ?_, ?_⟩
      · cases first with
        | nil =>
          cases run
          omega
        | cons b first =>
          obtain ⟨rfl, rest⟩ := List.cons.inj split
          rw [m.runFrom?_cons taken] at run
          exact all first last u rest run
      · rcases reached with same | ⟨first, last, u, split, run, size⟩
        · rcases Nat.le_total (size next) (top s) with lower | higher
          · exact .inl (by omega)
          · refine .inr ⟨[a], rest, next, rfl, ?_, by omega⟩
            rw [m.runFrom?_cons taken]
            rfl
        · refine .inr ⟨a :: first, last, u, by rw [split]; rfl, ?_, size⟩
          rw [m.runFrom?_cons taken, run]
  obtain ⟨-, all, reached⟩ := walk acts s (Nat.le_of_eq start.symm) run
  constructor
  · rcases reached with same | reached
    · exact ⟨[], acts, s, rfl, rfl, by omega⟩
    · exact reached
  · rintro n ⟨first, last, u, split, run, rfl⟩
    exact all first last u split run

end Machine

end LinuxSys.Lib
