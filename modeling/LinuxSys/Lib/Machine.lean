import Mathlib.Data.List.Basic

/-! # Partial machines and their runs

A machine is a partial step function over actions: a disabled action has no successor, so a
list of actions is one interleaving of whoever owns those actions. Invariants are proved once
for all runs. A guard is a condition on the state before a step; the guarded rules say what
holds after every run whose steps all meet it.
-/

namespace LinuxSys.Lib

/-- An initial state and a partial step; `none` is a disabled action. -/
structure Machine (σ : Type*) (α : Type*) where
  init : σ
  step : σ → α → Option σ

namespace Machine

variable {σ α : Type*} (m : Machine σ α)

/-- Take the actions in order, failing at the first disabled one. -/
def runFrom? : σ → List α → Option σ
  | s, [] => some s
  | s, a :: rest => (m.step s a).bind fun next => runFrom? next rest

/-- A run of the machine from its initial state. -/
def run? (acts : List α) : Option σ := m.runFrom? m.init acts

/-- Every step of the run meets the guard in the state before it. -/
def Meets (guard : σ → α → Prop) : σ → List α → Prop
  | _, [] => True
  | s, a :: rest => guard s a ∧ ∀ next, m.step s a = some next → Meets guard next rest

@[simp] theorem runFrom?_nil (s : σ) : m.runFrom? s [] = some s := rfl

theorem runFrom?_cons_eq_some {s t : σ} {a : α} {rest : List α} :
    m.runFrom? s (a :: rest) = some t ↔
      ∃ next, m.step s a = some next ∧ m.runFrom? next rest = some t := by
  simp only [runFrom?, Option.bind_eq_some_iff]

theorem runFrom?_append (s : σ) (first last : List α) :
    m.runFrom? s (first ++ last) = (m.runFrom? s first).bind fun t => m.runFrom? t last := by
  induction first generalizing s with
  | nil => rfl
  | cons a rest ih =>
    simp only [List.cons_append, runFrom?]
    cases m.step s a with
    | none => rfl
    | some next => exact ih next

variable {m}

theorem runFrom?_cons {s next : σ} {a : α} (taken : m.step s a = some next) (rest : List α) :
    m.runFrom? s (a :: rest) = m.runFrom? next rest := by
  rw [runFrom?, taken, Option.bind_some]

theorem runFrom?_append_of {s t : σ} {first : List α} (run : m.runFrom? s first = some t)
    (last : List α) : m.runFrom? s (first ++ last) = m.runFrom? t last := by
  rw [runFrom?_append, run, Option.bind_some]

/-- What every step keeps, every run keeps. -/
theorem runFrom?_keeps {inv : σ → Prop}
    (keeps : ∀ s a t, inv s → m.step s a = some t → inv t)
    {s t : σ} {acts : List α} (start : inv s) (run : m.runFrom? s acts = some t) : inv t := by
  induction acts generalizing s with
  | nil =>
    cases run
    exact start
  | cons a rest ih =>
    obtain ⟨next, step, tail⟩ := m.runFrom?_cons_eq_some.mp run
    exact ih (keeps s a next start step) tail

theorem run?_keeps {inv : σ → Prop} (start : inv m.init)
    (keeps : ∀ s a t, inv s → m.step s a = some t → inv t)
    {t : σ} {acts : List α} (run : m.run? acts = some t) : inv t :=
  runFrom?_keeps keeps start run

/-- What every step adds to a view of the state, a run has added in order. -/
theorem runFrom?_view {β : Type*} {view : σ → β} {add : β → α → β}
    (adds : ∀ s a t, m.step s a = some t → view t = add (view s) a)
    {s t : σ} {acts : List α} (run : m.runFrom? s acts = some t) :
    view t = acts.foldl add (view s) := by
  induction acts generalizing s with
  | nil =>
    cases run
    rfl
  | cons a rest ih =>
    obtain ⟨next, step, tail⟩ := m.runFrom?_cons_eq_some.mp run
    rw [ih tail, adds s a next step, List.foldl_cons]

theorem meets_of_forall {guard : σ → α → Prop} {acts : List α}
    (guarded : ∀ s, ∀ a ∈ acts, guard s a) (s : σ) : m.Meets guard s acts := by
  induction acts generalizing s with
  | nil => trivial
  | cons a rest ih =>
    exact ⟨guarded s a List.mem_cons_self, fun next _ =>
      ih (fun t b member => guarded t b (List.mem_cons_of_mem a member)) next⟩

theorem meets_cons_iff {guard : σ → α → Prop} {s next : σ} {a : α} {rest : List α}
    (taken : m.step s a = some next) :
    m.Meets guard s (a :: rest) ↔ guard s a ∧ m.Meets guard next rest := by
  refine and_congr_right fun _ => ⟨fun later => later next taken, fun later other again => ?_⟩
  obtain rfl : next = other := Option.some.inj (taken.symm.trans again)
  exact later

theorem meets_cons_of_none {guard : σ → α → Prop} {s : σ} {a : α} {rest : List α}
    (stuck : m.step s a = none) : m.Meets guard s (a :: rest) ↔ guard s a := by
  refine and_iff_left fun next taken => ?_
  rw [stuck] at taken
  cases taken

/-- A decidable guard can be checked along a run. -/
instance decidableMeets {guard : σ → α → Prop} [∀ s a, Decidable (guard s a)] :
    (s : σ) → (acts : List α) → Decidable (m.Meets guard s acts)
  | _, [] => isTrue trivial
  | s, a :: rest =>
    match taken : m.step s a with
    | none => decidable_of_iff _ (meets_cons_of_none taken).symm
    | some next =>
      have : Decidable (m.Meets guard next rest) := decidableMeets next rest
      decidable_of_iff _ (meets_cons_iff taken).symm

/-- What every guarded step keeps, every run whose steps all meet the guard keeps. -/
theorem runFrom?_keeps_of_meets {inv : σ → Prop} {guard : σ → α → Prop}
    (keeps : ∀ s a t, inv s → guard s a → m.step s a = some t → inv t)
    {s t : σ} {acts : List α} (start : inv s) (met : m.Meets guard s acts)
    (run : m.runFrom? s acts = some t) : inv t := by
  induction acts generalizing s with
  | nil =>
    cases run
    exact start
  | cons a rest ih =>
    obtain ⟨next, step, tail⟩ := m.runFrom?_cons_eq_some.mp run
    exact ih (keeps s a next start met.1 step) (met.2 next step) tail

theorem run?_keeps_of_meets {inv : σ → Prop} {guard : σ → α → Prop} (start : inv m.init)
    (keeps : ∀ s a t, inv s → guard s a → m.step s a = some t → inv t)
    {t : σ} {acts : List α} (met : m.Meets guard m.init acts)
    (run : m.run? acts = some t) : inv t :=
  runFrom?_keeps_of_meets keeps start met run

/-- Where every step from a state with the invariant meets the guard and keeps the invariant, all
steps of a run meet the guard. -/
theorem meets_of_keeps {inv : σ → Prop} {guard : σ → α → Prop}
    (keeps : ∀ s a t, inv s → m.step s a = some t → guard s a ∧ inv t)
    {s t : σ} {acts : List α} (start : inv s) (run : m.runFrom? s acts = some t) :
    m.Meets guard s acts := by
  induction acts generalizing s with
  | nil => trivial
  | cons a rest ih =>
    obtain ⟨next, taken, tail⟩ := m.runFrom?_cons_eq_some.mp run
    obtain ⟨here, kept⟩ := keeps s a next start taken
    exact (meets_cons_iff taken).mpr ⟨here, ih kept tail⟩

theorem guard_of_meets {guard : σ → α → Prop} {s t : σ} {first last : List α} {a : α}
    (met : m.Meets guard s (first ++ a :: last)) (run : m.runFrom? s first = some t) :
    guard t a := by
  induction first generalizing s with
  | nil =>
    cases run
    exact met.1
  | cons b rest ih =>
    obtain ⟨next, taken, tail⟩ := m.runFrom?_cons_eq_some.mp run
    exact ih (met.2 next taken) tail

theorem meets_append {guard : σ → α → Prop} {s t : σ} {first last : List α}
    (before : m.Meets guard s first) (run : m.runFrom? s first = some t)
    (later : m.Meets guard t last) : m.Meets guard s (first ++ last) := by
  induction first generalizing s with
  | nil =>
    cases run
    exact later
  | cons a rest ih =>
    obtain ⟨next, step, tail⟩ := m.runFrom?_cons_eq_some.mp run
    exact (meets_cons_iff step).mpr ⟨before.1, ih (before.2 next step) tail⟩

/-- If a machine answers every guarded step of another by a run that keeps the relation, it answers
every guarded run so. -/
theorem runFrom?_simulated {τ β : Type*} {n : Machine τ β} {related : σ → τ → Prop}
    {guard : σ → α → Prop} {allowed : τ → β → Prop}
    (answers : ∀ s t a next, related s t → guard s a → m.step s a = some next →
      ∃ others after, n.Meets allowed t others ∧ n.runFrom? t others = some after ∧
        related next after)
    {s last : σ} {t : τ} {acts : List α} (start : related s t) (met : m.Meets guard s acts)
    (run : m.runFrom? s acts = some last) :
    ∃ others after, n.Meets allowed t others ∧ n.runFrom? t others = some after ∧
      related last after := by
  induction acts generalizing s t with
  | nil =>
    cases run
    exact ⟨[], t, trivial, rfl, start⟩
  | cons a rest ih =>
    obtain ⟨next, step, tail⟩ := m.runFrom?_cons_eq_some.mp run
    obtain ⟨first, middle, allowed, answer, related⟩ := answers s t a next start met.1 step
    obtain ⟨others, after, later, followed, kept⟩ := ih related (met.2 next step) tail
    exact ⟨first ++ others, after, meets_append allowed answer later,
      (runFrom?_append_of answer others).trans followed, kept⟩

/-- Where a step leads from a good state to a good state exactly when it meets the guard, and never
back from a bad one, a run ends in a good state exactly when all of its steps meet the guard. -/
theorem runFrom?_iff_meets {inv good : σ → Prop} {guard : σ → α → Prop}
    (keeps : ∀ s a t, inv s → m.step s a = some t → inv t)
    (exact' : ∀ s a t, inv s → m.step s a = some t → (good t ↔ good s ∧ guard s a))
    {s t : σ} {acts : List α} (start : inv s) (run : m.runFrom? s acts = some t) :
    good t ↔ good s ∧ m.Meets guard s acts := by
  induction acts generalizing s with
  | nil =>
    cases run
    exact (and_iff_left trivial).symm
  | cons a rest ih =>
    obtain ⟨next, taken, tail⟩ := m.runFrom?_cons_eq_some.mp run
    rw [ih (keeps s a next start taken) tail, exact' s a next start taken, and_assoc,
      meets_cons_iff taken]

/-- Two conditions that agree wherever the first has held so far agree along a run. -/
theorem meets_iff_meets {inv : σ → Prop} {first second : σ → α → Prop}
    (same : ∀ s a, inv s → (first s a ↔ second s a))
    (keeps : ∀ s a t, inv s → first s a → m.step s a = some t → inv t)
    {s : σ} (start : inv s) (acts : List α) : m.Meets first s acts ↔ m.Meets second s acts := by
  induction acts generalizing s with
  | nil => exact Iff.rfl
  | cons a rest ih =>
    constructor
    · rintro ⟨here, later⟩
      exact ⟨(same s a start).mp here, fun next taken =>
        (ih (keeps s a next start here taken)).mp (later next taken)⟩
    · rintro ⟨here, later⟩
      have before := (same s a start).mpr here
      exact ⟨before, fun next taken =>
        (ih (keeps s a next start before taken)).mpr (later next taken)⟩

/-- Every state of the run is good. -/
def Always (good : σ → Prop) : σ → List α → Prop
  | s, [] => good s
  | s, a :: rest => good s ∧ ∀ next, m.step s a = some next → Always good next rest

theorem good_of_always {good : σ → Prop} {s : σ} {acts : List α}
    (always : m.Always good s acts) : good s := by
  cases acts with
  | nil => exact always
  | cons a rest => exact always.1

theorem good_of_always_run {good : σ → Prop} {s t : σ} {acts : List α}
    (always : m.Always good s acts) (run : m.runFrom? s acts = some t) : good t := by
  induction acts generalizing s with
  | nil =>
    cases run
    exact always
  | cons a rest ih =>
    obtain ⟨next, taken, tail⟩ := m.runFrom?_cons_eq_some.mp run
    exact ih (always.2 next taken) tail

/-- Where a step from a good state leads to a good state exactly when it meets the guard, all states
of a run are good exactly when all of its steps meet it. -/
theorem always_iff_meets {inv good : σ → Prop} {guard : σ → α → Prop}
    (keeps : ∀ s a t, inv s → m.step s a = some t → inv t)
    (exact' : ∀ s a, inv s → good s → ((∀ t, m.step s a = some t → good t) ↔ guard s a))
    {s : σ} (start : inv s) (fine : good s) (acts : List α) :
    m.Always good s acts ↔ m.Meets guard s acts := by
  induction acts generalizing s with
  | nil => exact iff_of_true fine trivial
  | cons a rest ih =>
    constructor
    · rintro ⟨-, later⟩
      refine ⟨(exact' s a start fine).mp fun t taken => good_of_always (later t taken),
        fun next taken => ?_⟩
      exact (ih (keeps s a next start taken) (good_of_always (later next taken))).mp
        (later next taken)
    · rintro ⟨here, later⟩
      refine ⟨fine, fun next taken => ?_⟩
      exact (ih (keeps s a next start taken) ((exact' s a start fine).mpr here next taken)).mpr
        (later next taken)

end Machine

end LinuxSys.Lib
