import LinuxSys.Lib.Progress
import Mathlib.Data.Fintype.Basic

/-! # Locking several mutexes by backing off

A thread that wants several mutexes at once waits for one of them while it holds none, tries the
others, and releases what it has when a try fails, which it may also do where the mutex is free. So
nobody waits for a mutex while holding another, and from wherever the threads are, all of them can
come to their ends.
-/

namespace LinuxSys.Lib

/-- What the threads want, and how many times each wants it. -/
structure BackOff (Thread Mutex : Type*) where
  wants : Thread → List Mutex
  rounds : Thread → ℕ
  nonempty : ∀ t, wants t ≠ []
  nodup : ∀ t, (wants t).Nodup

namespace BackOff

/-- Where a thread stands; `left` rounds are left behind the current one. -/
inductive Phase (Mutex : Type*) where
  | idle (left : ℕ)
  | locking (left : ℕ) (m : Mutex)
  | trying (left : ℕ) (held todo : List Mutex)
  | dropping (left : ℕ) (held : List Mutex)
  | leaving (left : ℕ) (held : List Mutex)
  | returned
deriving DecidableEq, Repr

/-- `done` counts the times somebody has had all mutexes. -/
structure State (Thread Mutex : Type*) where
  phase : Thread → Phase Mutex
  owner : Mutex → Option Thread
  done : ℕ

inductive Act (Thread Mutex : Type*) where
  | choose (t : Thread) (m : Mutex)
  | lock (t : Thread)
  | attempt (t : Thread) (fails : Bool)
  | enter (t : Thread)
  | unlock (t : Thread) (m : Mutex)
  | leave (t : Thread)
deriving DecidableEq, Repr

variable {Thread Mutex : Type*}

def Phase.held : Phase Mutex → List Mutex
  | .trying _ held _ => held
  | .dropping _ held => held
  | .leaving _ held => held
  | _ => []

/-- The rounds that a thread has yet to do. -/
def Phase.rounds : Phase Mutex → ℕ
  | .idle left => left
  | .locking left _ => left + 1
  | .trying left _ _ => left + 1
  | .dropping left _ => left + 1
  | .leaving left _ => left
  | .returned => 0

variable [DecidableEq Thread] [DecidableEq Mutex]

def State.goto (s : State Thread Mutex) (t : Thread) (phase : Phase Mutex) : State Thread Mutex :=
  { s with phase := Function.update s.phase t phase }

def State.own (s : State Thread Mutex) (m : Mutex) (owner : Option Thread) : State Thread Mutex :=
  { s with owner := Function.update s.owner m owner }

variable (p : BackOff Thread Mutex)

def step (s : State Thread Mutex) : Act Thread Mutex → Option (State Thread Mutex)
  | .choose t m =>
    match s.phase t with
    | .idle (left + 1) => if m ∈ p.wants t then some (s.goto t (.locking left m)) else none
    | .dropping left [] => if m ∈ p.wants t then some (s.goto t (.locking left m)) else none
    | _ => none
  | .lock t =>
    match s.phase t with
    | .locking left m =>
      if s.owner m = none then
        some ((s.goto t (.trying left [m] ((p.wants t).erase m))).own m (some t))
      else none
    | _ => none
  | .attempt t fails =>
    match s.phase t with
    | .trying left held (m :: todo) =>
      if s.owner m = none ∧ ¬ fails then
        some ((s.goto t (.trying left (m :: held) todo)).own m (some t))
      else some (s.goto t (.dropping left held))
    | _ => none
  | .enter t =>
    match s.phase t with
    | .trying left held [] => some { s.goto t (.leaving left held) with done := s.done + 1 }
    | _ => none
  | .unlock t m =>
    match s.phase t with
    | .dropping left held =>
      if m ∈ held then some ((s.goto t (.dropping left (held.erase m))).own m none) else none
    | .leaving left held =>
      if m ∈ held then some ((s.goto t (.leaving left (held.erase m))).own m none) else none
    | _ => none
  | .leave t =>
    match s.phase t with
    | .leaving left [] => some (s.goto t (.idle left))
    | .idle 0 => some (s.goto t .returned)
    | _ => none

def machine : Machine (State Thread Mutex) (Act Thread Mutex) :=
  ⟨⟨fun t => .idle (p.rounds t), fun _ => none, 0⟩, p.step⟩

/-- All threads are at their ends. -/
def State.Over (s : State Thread Mutex) : Prop := ∀ t, s.phase t = .returned

/-- What a thread has and what it has yet to try are the mutexes it wants. -/
def Shape (wants : List Mutex) : Phase Mutex → Prop
  | .locking _ m => m ∈ wants
  | .trying _ held todo => (held ++ todo).Perm wants ∧ held ≠ []
  | .dropping _ held => held.Nodup
  | .leaving _ held => held.Nodup ∧ held.length ≤ wants.length
  | _ => True

structure Inv [Fintype Thread] (s : State Thread Mutex) : Prop where
  owned : ∀ m t, s.owner m = some t ↔ m ∈ (s.phase t).held
  shape : ∀ t, Shape (p.wants t) (s.phase t)
  counted : s.done + ∑ t, (s.phase t).rounds = ∑ t, p.rounds t

section Steps

variable [Fintype Thread] {p} {s s' : State Thread Mutex} {t : Thread} {m : Mutex}
  {phase : Phase Mutex}

omit [DecidableEq Mutex] in
/-- A thread moves on with the mutexes it has. -/
theorem Inv.goto (inv : p.Inv s) {done : ℕ} (held : ∀ m, m ∈ phase.held ↔ m ∈ (s.phase t).held)
    (shape : Shape (p.wants t) phase) (count : done + phase.rounds = s.done + (s.phase t).rounds) :
    p.Inv { s.goto t phase with done := done } := by
  refine ⟨fun m u => ?_, fun u => ?_, ?_⟩
  · by_cases same : u = t
    · subst same
      simpa [State.goto, held] using inv.owned m u
    · simpa [State.goto, Function.update_of_ne same] using inv.owned m u
  · by_cases same : u = t
    · subst same
      simpa [State.goto] using shape
    · simpa [State.goto, Function.update_of_ne same] using inv.shape u
  · have sum := sum_update_mem Phase.rounds s.phase (Finset.mem_univ t) phase
    have counted := inv.counted
    simp only [State.goto]
    omega

/-- A thread takes a mutex. -/
theorem Inv.take (inv : p.Inv s) (free : s.owner m = none)
    (held : ∀ n, n ∈ phase.held ↔ n = m ∨ n ∈ (s.phase t).held) (shape : Shape (p.wants t) phase)
    (count : phase.rounds = (s.phase t).rounds) : p.Inv ((s.goto t phase).own m (some t)) := by
  refine ⟨fun n u => ?_, fun u => ?_, ?_⟩
  · have owned := inv.owned n u
    by_cases taken : n = m
    · subst taken
      by_cases same : u = t
      · subst same
        simp [State.goto, State.own, held]
      · rw [free] at owned
        simpa [State.goto, State.own, Function.update_of_ne same, Ne.symm same] using owned
    · by_cases same : u = t
      · subst same
        simpa [State.goto, State.own, held, taken] using owned
      · simpa [State.goto, State.own, Function.update_of_ne same, taken] using owned
  · by_cases same : u = t
    · subst same
      simpa [State.goto, State.own] using shape
    · simpa [State.goto, State.own, Function.update_of_ne same] using inv.shape u
  · have sum := sum_update_mem Phase.rounds s.phase (Finset.mem_univ t) phase
    have counted := inv.counted
    simp only [State.goto, State.own]
    omega

/-- A thread releases a mutex. -/
theorem Inv.release (inv : p.Inv s) (mine : m ∈ (s.phase t).held)
    (held : ∀ n, n ∈ phase.held ↔ n ≠ m ∧ n ∈ (s.phase t).held) (shape : Shape (p.wants t) phase)
    (count : phase.rounds = (s.phase t).rounds) : p.Inv ((s.goto t phase).own m none) := by
  refine ⟨fun n u => ?_, fun u => ?_, ?_⟩
  · have owned := inv.owned n u
    by_cases freed : n = m
    · subst freed
      by_cases same : u = t
      · subst same
        simp [State.goto, State.own, held]
      · rw [(inv.owned n t).mpr mine] at owned
        simpa [State.goto, State.own, Function.update_of_ne same, Ne.symm same] using owned
    · by_cases same : u = t
      · subst same
        simpa [State.goto, State.own, held, freed] using owned
      · simpa [State.goto, State.own, Function.update_of_ne same, freed] using owned
  · by_cases same : u = t
    · subst same
      simpa [State.goto, State.own] using shape
    · simpa [State.goto, State.own, Function.update_of_ne same] using inv.shape u
  · have sum := sum_update_mem Phase.rounds s.phase (Finset.mem_univ t) phase
    have counted := inv.counted
    simp only [State.goto, State.own]
    omega

theorem Inv.step {a : Act Thread Mutex} (inv : p.Inv s) (taken : p.step s a = some s') :
    p.Inv s' := by
  cases a with
  | choose t m =>
    simp only [BackOff.step] at taken
    split at taken
    · next left here =>
      split_ifs at taken with wanted
      obtain rfl := Option.some.inj taken
      exact inv.goto (by simp [here, Phase.held]) wanted (by simp [here, Phase.rounds])
    · next left here =>
      split_ifs at taken with wanted
      obtain rfl := Option.some.inj taken
      exact inv.goto (by simp [here, Phase.held]) wanted (by simp [here, Phase.rounds])
    · cases taken
  | lock t =>
    simp only [BackOff.step] at taken
    split at taken
    · next left m here =>
      split_ifs at taken with free
      obtain rfl := Option.some.inj taken
      have wanted : m ∈ p.wants t := by simpa [here, Shape] using inv.shape t
      refine inv.take free (by simp [here, Phase.held]) ⟨?_, by simp⟩ (by simp [here, Phase.rounds])
      exact (List.perm_cons_erase wanted).symm
    · cases taken
  | attempt t fails =>
    simp only [BackOff.step] at taken
    split at taken
    · next left held m todo here =>
      have shape := inv.shape t
      rw [here] at shape
      split_ifs at taken with free
      · obtain rfl := Option.some.inj taken
        refine inv.take free.1 (by simp [here, Phase.held]) ⟨?_, by simp⟩
          (by simp [here, Phase.rounds])
        exact List.perm_middle.symm.trans shape.1
      · obtain rfl := Option.some.inj taken
        refine inv.goto (by simp [here, Phase.held]) ?_ (by simp [here, Phase.rounds])
        exact (List.nodup_append.mp (shape.1.nodup_iff.mpr (p.nodup t))).1
    · cases taken
  | enter t =>
    simp only [BackOff.step] at taken
    split at taken
    · next left held here =>
      have shape := inv.shape t
      rw [here] at shape
      have all : held.Perm (p.wants t) := by simpa using shape.1
      obtain rfl := Option.some.inj taken
      refine inv.goto (by simp [here, Phase.held]) ?_ (by simp [here, Phase.rounds]; omega)
      exact ⟨all.nodup_iff.mpr (p.nodup t), all.length_eq.le⟩
    · cases taken
  | unlock t m =>
    simp only [BackOff.step] at taken
    split at taken
    · next left held here =>
      have shape := inv.shape t
      rw [here] at shape
      split_ifs at taken with mine
      obtain rfl := Option.some.inj taken
      refine inv.release (by simpa [here, Phase.held]) (fun n => ?_) (List.Nodup.erase m shape)
        (by simp [here, Phase.rounds])
      simpa [here, Phase.held] using List.Nodup.mem_erase_iff shape
    · next left held here =>
      have shape := inv.shape t
      rw [here] at shape
      split_ifs at taken with mine
      obtain rfl := Option.some.inj taken
      refine inv.release (by simpa [here, Phase.held]) (fun n => ?_)
        ⟨List.Nodup.erase m shape.1, ?_⟩ (by simp [here, Phase.rounds])
      · simpa [here, Phase.held] using List.Nodup.mem_erase_iff shape.1
      · exact (List.length_erase_le).trans shape.2
    · cases taken
  | leave t =>
    simp only [BackOff.step] at taken
    split at taken
    · next left here =>
      obtain rfl := Option.some.inj taken
      exact inv.goto (by simp [here, Phase.held]) trivial (by simp [here, Phase.rounds])
    · next here =>
      obtain rfl := Option.some.inj taken
      exact inv.goto (by simp [here, Phase.held]) trivial (by simp [here, Phase.rounds])
    · cases taken

theorem inv_of_run {acts : List (Act Thread Mutex)} (run : p.machine.run? acts = some s) :
    p.Inv s := by
  refine Machine.run?_keeps ⟨?_, ?_, ?_⟩ (fun s a s' inv (taken : p.step s a = some s') =>
    Inv.step inv taken) run
  · simp [machine, Phase.held]
  · exact fun t => trivial
  · simp [machine, Phase.rounds]

omit [DecidableEq Thread] [DecidableEq Mutex] in
/-- Two threads that want a mutex both are not both through. -/
theorem Inv.exclusive (inv : p.Inv s) {t u : Thread} (other : t ≠ u) (first : m ∈ p.wants t)
    (second : m ∈ p.wants u) {left more : ℕ} {held mine : List Mutex}
    (through : s.phase t = .trying left held []) : s.phase u ≠ .trying more mine [] := by
  intro too
  have has {v : Thread} {left : ℕ} {held : List Mutex} (through : s.phase v = .trying left held [])
      (wanted : m ∈ p.wants v) : s.owner m = some v := by
    have shape := inv.shape v
    rw [through] at shape
    have all : held.Perm (p.wants v) := by simpa using shape.1
    exact (inv.owned m v).mpr (by simpa [through, Phase.held] using all.mem_iff.mpr wanted)
  exact other (Option.some.inj ((has through first).symm.trans (has too second)))

omit [DecidableEq Thread] [DecidableEq Mutex] in
theorem Inv.done_of_over (inv : p.Inv s) (ended : s.Over) : s.done = ∑ t, p.rounds t := by
  have counted := inv.counted
  rwa [Finset.sum_eq_zero fun t _ => by rw [ended t, Phase.rounds], Nat.add_zero] at counted

end Steps

section Progress

variable [Fintype Thread]

/-- More mutexes than any thread wants. -/
def room : ℕ := ∑ t, (p.wants t).length

/-- How far a thread is from its end. -/
def rank : Phase Mutex → ℕ
  | .idle left => left * (2 * p.room + 8) + 1
  | .locking left _ => (left + 1) * (2 * p.room + 8)
  | .trying left _ todo => left * (2 * p.room + 8) + p.room + 4 + todo.length
  | .dropping left held => (left + 1) * (2 * p.room + 8) + 1 + held.length
  | .leaving left held => left * (2 * p.room + 8) + 2 + held.length
  | .returned => 0

/-- Whether a thread has mutexes that it does not give up. -/
def engaged : Phase Mutex → ℕ
  | .trying _ _ _ => 1
  | .leaving _ _ => 1
  | _ => 0

/-- A thread that gives up gets further from its end, but another one goes on. -/
def measure (s : State Thread Mutex) : ℕ :=
  ∑ t, p.rank (s.phase t) + (2 * p.room + 6) * max 1 (∑ t, engaged (s.phase t))

variable {p} {s s' : State Thread Mutex} {t : Thread} {m : Mutex}

omit [DecidableEq Thread] [DecidableEq Mutex] in
theorem length_le_room (t : Thread) : (p.wants t).length ≤ p.room :=
  Finset.single_le_sum (f := fun t => (p.wants t).length) (fun _ _ => Nat.zero_le _)
    (Finset.mem_univ t)

omit [DecidableEq Mutex] in
/-- A thread gets nearer to its end and is not engaged anew, or is the first that is. -/
theorem measure_lt {phase : Phase Mutex} (here : s'.phase = Function.update s.phase t phase)
    (nearer : p.rank phase < p.rank (s.phase t))
    (calm : engaged phase ≤ engaged (s.phase t) ∨ ∑ t, engaged (s.phase t) = 0) :
    p.measure s' < p.measure s := by
  have ranks := sum_update_mem p.rank s.phase (Finset.mem_univ t) phase
  have busy := sum_update_mem engaged s.phase (Finset.mem_univ t) phase
  have most : engaged phase ≤ 1 := by cases phase <;> simp [engaged]
  have penalty : max 1 (∑ t, engaged (s'.phase t)) ≤ max 1 (∑ t, engaged (s.phase t)) := by
    rw [here]
    omega
  have scaled := Nat.mul_le_mul_left (2 * p.room + 6) penalty
  rw [← here] at ranks
  simp only [measure]
  omega

/-- Some step brings the threads nearer to their ends. -/
def Nears (p : BackOff Thread Mutex) (s : State Thread Mutex) : Prop :=
  ∃ a s', p.step s a = some s' ∧ p.measure s' < p.measure s

theorem nears_of_dropping {left : ℕ} {held : List Mutex} (here : s.phase t = .dropping left held) :
    p.Nears s := by
  cases held with
  | nil =>
    obtain ⟨m, wanted⟩ := List.exists_mem_of_ne_nil _ (p.nonempty t)
    refine ⟨.choose t m, s.goto t (.locking left m), by simp [step, here, wanted], ?_⟩
    refine measure_lt rfl ?_ (.inl (by simp [engaged]))
    simp [here, rank]
  | cons m held =>
    refine ⟨.unlock t m, (s.goto t (.dropping left held)).own m none, by simp [step, here], ?_⟩
    refine measure_lt rfl ?_ (.inl (by simp [engaged]))
    simp [here, rank]

theorem nears_of_leaving {left : ℕ} {held : List Mutex} (here : s.phase t = .leaving left held) :
    p.Nears s := by
  cases held with
  | nil =>
    refine ⟨.leave t, s.goto t (.idle left), by simp [step, here], ?_⟩
    refine measure_lt rfl ?_ (.inl (by simp [engaged]))
    simp [here, rank]
  | cons m held =>
    refine ⟨.unlock t m, (s.goto t (.leaving left held)).own m none, by simp [step, here], ?_⟩
    refine measure_lt rfl ?_ (.inl (by simp [here, engaged]))
    simp [here, rank]

/-- A thread that has all its mutexes, or can take the next, does. -/
theorem nears_of_trying (inv : p.Inv s) {left : ℕ} {held todo : List Mutex}
    (here : s.phase t = .trying left held todo) (free : ∀ m ∈ todo.head?, s.owner m = none) :
    p.Nears s := by
  cases todo with
  | nil =>
    have shape := inv.shape t
    rw [here] at shape
    have all : held.length = (p.wants t).length := by simpa using shape.1.length_eq
    have fits : (p.wants t).length ≤ p.room := length_le_room t
    refine ⟨.enter t, { s.goto t (.leaving left held) with done := s.done + 1 },
      by simp [step, here], measure_lt rfl ?_ (.inl (by simp [here, engaged]))⟩
    simp only [here, rank, List.length_nil]
    omega
  | cons m todo =>
    have free := free m rfl
    refine ⟨.attempt t false, (s.goto t (.trying left (m :: held) todo)).own m (some t),
      by simp [step, here, free], measure_lt rfl ?_ (.inl (by simp [here, engaged]))⟩
    simp [here, rank]

/-- A thread gives up because of another one that is trying. -/
theorem nears_of_blocked (inv : p.Inv s) {u : Thread} (other : u ≠ t) {left : ℕ} {m : Mutex}
    {held todo : List Mutex} (here : s.phase t = .trying left held (m :: todo))
    (busy : engaged (s.phase u) = 1) : p.Nears s := by
  refine ⟨.attempt t true, s.goto t (.dropping left held), by simp [step, here], ?_⟩
  have shape := inv.shape t
  rw [here] at shape
  have all : held.length + (todo.length + 1) = (p.wants t).length := by
    simpa using shape.1.length_eq
  have fits : (p.wants t).length ≤ p.room := length_le_room t
  have ranks := sum_update_mem p.rank s.phase (Finset.mem_univ t) (.dropping left held)
  have gives := sum_update_mem engaged s.phase (Finset.mem_univ t) (.dropping left held)
  have two : 2 ≤ ∑ v, engaged (s.phase v) := by
    have both := Finset.add_le_sum (f := fun v => engaged (s.phase v)) (fun _ _ => Nat.zero_le _)
      (Finset.mem_univ u) (Finset.mem_univ t) other
    rw [busy, here] at both
    exact both
  have was : p.rank (s.phase t) = left * (2 * p.room + 8) + p.room + 4 + (todo.length + 1) := by
    rw [here]
    rfl
  have becomes : p.rank (.dropping left held) =
      left * (2 * p.room + 8) + (2 * p.room + 8) + 1 + held.length := by
    rw [rank, Nat.succ_mul]
  have one : engaged (s.phase t) = 1 := by
    rw [here]
    rfl
  have zero : engaged (.dropping left held) = 0 := rfl
  have scaled : (2 * p.room + 6) *
      max 1 (∑ v, engaged (Function.update s.phase t (.dropping left held) v)) + (2 * p.room + 6) ≤
        (2 * p.room + 6) * max 1 (∑ v, engaged (s.phase v)) := by
    rw [← Nat.mul_succ]
    refine Nat.mul_le_mul_left _ ?_
    omega
  simp only [measure, State.goto]
  omega

/-- Where nobody has a mutex, any thread can go on. -/
theorem nears_of_quiet (quiet : ∀ t, engaged (s.phase t) = 0) (free : ∀ m, s.owner m = none)
    (calm : ∀ t left held, s.phase t ≠ .dropping left held) (short : s.phase t ≠ .returned) :
    p.Nears s := by
  have nobody : ∑ t, engaged (s.phase t) = 0 := Finset.sum_eq_zero fun t _ => quiet t
  cases here : s.phase t with
  | idle left =>
    cases left with
    | zero =>
      refine ⟨.leave t, s.goto t .returned, by simp [step, here], ?_⟩
      exact measure_lt rfl (by simp [here, rank]) (.inr nobody)
    | succ left =>
      obtain ⟨m, wanted⟩ := List.exists_mem_of_ne_nil _ (p.nonempty t)
      refine ⟨.choose t m, s.goto t (.locking left m), by simp [step, here, wanted], ?_⟩
      exact measure_lt rfl (by simp [here, rank]) (.inr nobody)
  | locking left m =>
    refine ⟨.lock t, (s.goto t (.trying left [m] ((p.wants t).erase m))).own m (some t),
      by simp [step, here, free m], measure_lt rfl ?_ (.inr nobody)⟩
    have fits : (p.wants t).length ≤ p.room := length_le_room t
    have shorter : ((p.wants t).erase m).length ≤ (p.wants t).length := List.length_erase_le
    simp only [here, rank, Nat.add_mul]
    omega
  | trying left held todo => exact absurd (quiet t) (by simp [here, engaged])
  | dropping left held => exact absurd here (calm t left held)
  | leaving left held => exact absurd (quiet t) (by simp [here, engaged])
  | returned => exact absurd here short

theorem Inv.nears (inv : p.Inv s) (short : ¬ s.Over) : p.Nears s := by
  by_cases dropping : ∃ t left held, s.phase t = .dropping left held
  · obtain ⟨t, left, held, here⟩ := dropping
    exact nears_of_dropping here
  by_cases leaving : ∃ t left held, s.phase t = .leaving left held
  · obtain ⟨t, left, held, here⟩ := leaving
    exact nears_of_leaving here
  by_cases trying : ∃ t left held todo, s.phase t = .trying left held todo
  · obtain ⟨t, left, held, todo, here⟩ := trying
    by_cases free : ∀ m ∈ todo.head?, s.owner m = none
    · exact nears_of_trying inv here free
    · cases todo with
      | nil => exact absurd (by simp) free
      | cons m todo =>
        obtain ⟨u, owner⟩ : ∃ u, s.owner m = some u :=
          Option.ne_none_iff_exists'.mp (by simpa using free)
        have has := (inv.owned m u).mp owner
        have busy : engaged (s.phase u) = 1 := by
          cases phase : s.phase u with
          | trying left held todo => rfl
          | leaving left held => rfl
          | dropping left held => exact absurd ⟨u, left, held, phase⟩ dropping
          | idle left | locking left m | returned => simp [phase, Phase.held] at has
        refine nears_of_blocked inv (fun same => ?_) here busy
        subst same
        have shape := inv.shape u
        rw [here] at shape has
        have nodup := shape.1.nodup_iff.mpr (p.nodup u)
        exact (List.nodup_append.mp nodup).2.2 m has m List.mem_cons_self rfl
  · simp only [State.Over, not_forall] at short
    obtain ⟨t, short⟩ := short
    have quiet (t : Thread) : engaged (s.phase t) = 0 ∧ (s.phase t).held = [] := by
      cases phase : s.phase t with
      | trying left held todo => exact absurd ⟨t, left, held, todo, phase⟩ trying
      | leaving left held => exact absurd ⟨t, left, held, phase⟩ leaving
      | dropping left held => exact absurd ⟨t, left, held, phase⟩ dropping
      | idle left | locking left m | returned => exact ⟨rfl, rfl⟩
    refine nears_of_quiet (fun t => (quiet t).1) (fun m => ?_) (fun t left held here => ?_) short
    · cases owner : s.owner m with
      | none => rfl
      | some u =>
        have has := (inv.owned m u).mp owner
        simp [(quiet u).2] at has
    · exact dropping ⟨t, left, held, here⟩

/-- Wherever the threads are, all of them can still come to their ends. -/
theorem Inv.exists_over (inv : p.Inv s) :
    ∃ acts s', p.machine.runFrom? s acts = some s' ∧ p.Inv s' ∧ s'.Over := by
  refine Machine.exists_run p.measure (fun s inv short => ?_) inv
  obtain ⟨a, s', taken, less⟩ := inv.nears short
  exact ⟨a, s', taken, inv.step taken, less⟩

end Progress

end BackOff

end LinuxSys.Lib
