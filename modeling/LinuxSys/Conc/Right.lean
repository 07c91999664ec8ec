import LinuxSys.Conc.Inv

/-! # Why the observations of conc ch49 are right

Once all workers have finished, no level is unrecorded and no parted draw uncounted. Every step of a
worker but a spurious failure makes what is left to do smaller, so that they finish.
-/

namespace LinuxSys.Conc

open Lib

variable {workers : ℕ} {digest : ℕ → Digest} {s t : State}

def State.Finished (workers : ℕ) (s : State) : Prop := ∀ i < workers, s.phases i = .finished

namespace State.Inv

theorem le_mark (inv : s.Inv workers digest) (finished : s.Finished workers) :
    ∀ v ∈ s.obs.levels, v ≤ s.obs.maxInflight := by
  intro v member
  rcases inv.levels.covered v member with below | ⟨i, inside, now, found, -⟩
  · exact below
  · rw [finished i inside] at found
    cases found

theorem sum_finished (finished : s.Finished workers) {f : Phase → ℕ} {n : ℕ} (each : f .finished = n) :
    ∑ i ∈ Finset.range workers, f (s.phases i) = workers * n := by
  have same : ∀ i ∈ Finset.range workers, f (s.phases i) = n := by
    intro i member
    rw [finished i (Finset.mem_range.mp member), each]
  rw [Finset.sum_congr rfl same]
  simp

theorem ticket_eq (inv : s.Inv workers digest) (finished : s.Finished workers) :
    s.obs.ticket = kSamplesPerWorker * workers := by
  have each : ∀ i ∈ Finset.range workers, (times s.obs.drawers i).length = kSamplesPerWorker := by
    intro i member
    have drew := inv.draws.drew i (Finset.mem_range.mp member)
    rw [finished i (Finset.mem_range.mp member)] at drew
    exact drew
  rw [← inv.draws.length_drawers, ← sum_length_times _ inv.draws.owners, Finset.sum_congr rfl each]
  simp [Nat.mul_comm]

theorem consensus_iff (inv : s.Inv workers digest) (finished : s.Finished workers) :
    s.obs.consensus = false ↔ ∃ i < workers, ∃ j < workers, (digest i).value ≠ (digest j).value := by
  refine ⟨inv.digests.split, ?_⟩
  rintro ⟨i, first, j, second, other⟩
  by_contra agreed
  have same : ∀ k < workers, (digest k).value = s.obs.digest := by
    intro k inside
    have passed := inv.digests.passed k inside (by rw [finished k inside]; rfl)
    rw [finished k inside] at passed
    exact passed.2.resolve_right fun either => either.elim agreed nofun
  exact other ((same i first).trans (same j second).symm)

theorem right (inv : s.Inv workers digest) (positive : 0 < workers) (finished : s.Finished workers) :
    Right workers digest s where
  empty := by
    rw [inv.levels.count, sum_finished finished (f := Phase.inside) rfl]
    rfl
  peak := ⟨inv.levels.mark, inv.le_mark finished⟩
  least := by
    have knows := inv.levels.knows 0 positive
    rw [finished 0 positive] at knows
    obtain ⟨v, member, least⟩ := knows
    exact least.trans (inv.le_mark finished v member)
  most := inv.levels.most _ inv.levels.mark
  tickets := by rw [inv.draws.tickets, inv.ticket_eq finished]
  interleaves := by
    have count := inv.draws.count
    rw [sum_finished finished (f := Phase.uncounted) rfl] at count
    exact count
  consensus := inv.consensus_iff finished

end State.Inv

/-! What is left to do. -/

/-- The steps that a worker has left at most; a retry has seen a higher mark. -/
def Phase.left (workers : ℕ) : Phase → ℕ
  | .starting => 3 * kSamplesPerWorker + 7 + workers
  | .loading now => 3 * kSamplesPerWorker + 6 + now.toNat
  | .raising now seen => 3 * kSamplesPerWorker + 5 + (now - seen).toNat
  | .sampling s _ _ => 3 * (kSamplesPerWorker - s) + 4
  | .comparing s _ _ _ => 3 * (kSamplesPerWorker - (s + 1)) + 6
  | .placing s _ _ => 3 * (kSamplesPerWorker - (s + 1)) + 5
  | .agreeing => 3
  | .objecting => 2
  | .leaving => 1
  | .finished => 0

def State.left (workers : ℕ) (s : State) : ℕ :=
  ∑ i ∈ Finset.range workers, (s.phases i).left workers

def Action.counts : Action → Bool
  | .go _ _ => true
  | .spurious _ => false

/-- An operation of a worker leaves it less to do. -/
theorem left_worker {i : ℕ} {d : Digest} {cpu : ℤ} {o : Observations} {p : Phase}
    {next : Observations × Phase} (taken : worker i d cpu o p = some next) (knows : p.Knows o)
    (least : 0 ≤ o.maxInflight) (room : next.1.inflight ≤ workers) :
    next.2.left workers + 1 ≤ p.left workers := by
  cases p with
  | starting =>
    cases taken
    simp only [Phase.left] at room ⊢
    omega
  | loading now =>
    cases taken
    simp only [Phase.left]
    omega
  | raising now seen =>
    have below := knows.2
    simp only [worker] at taken
    split at taken
    · split at taken
      · cases taken
        simp only [Phase.left]
        omega
      · cases taken
        simp only [Phase.left]
        omega
    · cases taken
      simp only [Phase.left]
      omega
  | sampling n prev acc =>
    simp only [worker] at taken
    split at taken
    · cases taken
      simp only [Phase.left]
      omega
    · cases taken
      simp only [Phase.left]
      omega
  | comparing n prev acc t =>
    cases taken
    simp only [Phase.left]
    omega
  | placing n acc t =>
    cases taken
    simp only [Phase.left]
    omega
  | agreeing =>
    simp only [worker] at taken
    split at taken
    · cases taken
      simp only [Phase.left]
      omega
    · cases taken
      split_ifs
      · simp only [Phase.left]
        omega
      · simp only [Phase.left]
        omega
  | objecting =>
    cases taken
    simp only [Phase.left]
    omega
  | leaving =>
    cases taken
    simp only [Phase.left]
    omega
  | finished => cases taken

/-- A spurious failure leaves it no more. -/
theorem left_spurious {o : Observations} {p next : Phase} (taken : spurious o p = some next)
    (knows : p.Knows o) : next.left workers ≤ p.left workers := by
  unfold Conc.spurious at taken
  split at taken
  · next now seen =>
    have below : seen ≤ o.maxInflight := knows.2
    split at taken
    · cases taken
      simp only [Phase.left]
      omega
    · cases taken
  · cases taken

theorem left_put {i : ℕ} {o : Observations} {p : Phase} (inside : i < workers) :
    (s.put i o p).left workers + (s.phases i).left workers = s.left workers + p.left workers :=
  sum_update (Phase.left workers) s.phases inside p

/-- Every step but a spurious failure makes what is left smaller. -/
theorem left_step (s : State) (a : Action) (t : State) (inv : s.Inv workers digest)
    (taken : s.step workers digest a = some t) :
    t.Inv workers digest ∧ t.left workers + (if a.counts then 1 else 0) ≤ s.left workers := by
  have kept := State.Inv.step s a t inv taken
  refine ⟨kept, ?_⟩
  cases a with
  | go i cpu =>
    simp only [State.step] at taken
    split at taken
    · next inside =>
      obtain ⟨next, moved, rfl⟩ := Option.map_eq_some_iff.mp taken
      have room := kept.levels.most _ kept.levels.current
      have less := left_worker moved (inv.levels.knows i inside) inv.levels.least room
      have sums := left_put (s := s) (o := next.1) (p := next.2) inside
      simp only [Action.counts, if_true]
      omega
    · cases taken
  | spurious i =>
    simp only [State.step] at taken
    split at taken
    · next inside =>
      obtain ⟨p, moved, rfl⟩ := Option.map_eq_some_iff.mp taken
      have less : p.left workers ≤ (s.phases i).left workers :=
        left_spurious moved (inv.levels.knows i inside)
      have sums := left_put (s := s) (o := s.obs) (p := p) inside
      simp only [Action.counts, Bool.false_eq_true, if_false]
      omega
    · cases taken

/-- However the workers take turns, they take no more steps than this, spurious failures apart. -/
theorem run_threaded_ends {acts : List Action} (run : (program workers digest).run? acts = some s) :
    (acts.filter Action.counts).length ≤ workers * (3 * kSamplesPerWorker + 7 + workers) := by
  have start : State.Inv workers digest (program workers digest).init := .start workers digest
  have count := (Machine.count_le_measure (State.left workers) left_step start run).2
  have whole : (program workers digest).init.left workers =
      workers * (3 * kSamplesPerWorker + 7 + workers) := by
    simp [State.left, program, Phase.left]
  omega

theorem exists_worker (i : ℕ) (d : Digest) (cpu : ℤ) (o : Observations) {p : Phase}
    (busy : p ≠ .finished) : ∃ next, worker i d cpu o p = some next := by
  rw [← Option.isSome_iff_exists]
  cases p with
  | finished => exact absurd rfl busy
  | raising now seen =>
    simp only [worker]
    split_ifs <;> rfl
  | sampling n prev acc =>
    simp only [worker]
    split_ifs <;> rfl
  | agreeing =>
    simp only [worker]
    split_ifs <;> rfl
  | _ => rfl

/-- And as long as one has not finished it can take a step. -/
theorem exists_finished (inv : s.Inv workers digest) : ∃ acts t,
    (program workers digest).runFrom? s acts = some t ∧ t.Inv workers digest ∧ t.Finished workers := by
  refine Machine.exists_run (State.left workers) (fun s inv short => ?_) inv
  obtain ⟨i, inside, busy⟩ : ∃ i < workers, s.phases i ≠ .finished := by
    by_contra none
    exact short fun i inside => by_contra fun busy => none ⟨i, inside, busy⟩
  obtain ⟨next, moved⟩ := exists_worker i (digest i) 0 s.obs busy
  have taken : s.step workers digest (.go i 0) = some (s.put i next.1 next.2) := by
    simp only [State.step, if_pos inside, moved, Option.map_some]
  obtain ⟨kept, less⟩ := left_step s _ _ inv taken
  exact ⟨.go i 0, _, taken, kept, less⟩

theorem run_threaded_right (workers : ℕ) (digest : ℕ → Digest) (positive : 0 < workers)
    (acts : List Action) (s : State) (run : (program workers digest).run? acts = some s)
    (finished : s.Finished workers) : Right workers digest s :=
  (Machine.run?_keeps (State.Inv.start workers digest) State.Inv.step run).right positive finished

theorem run_threaded_right_alone : ∃ acts s, (program 1 fun _ => payloadDigest).run? acts = some s ∧
    s.Finished 1 ∧ Right 1 (fun _ => payloadDigest) s := by
  obtain ⟨acts, s, run, -, finished⟩ := exists_finished (State.Inv.start 1 fun _ => payloadDigest)
  exact ⟨acts, s, run, finished, run_threaded_right 1 _ (by decide) acts s run finished⟩

end LinuxSys.Conc
