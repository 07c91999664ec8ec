import LinuxSys.Conc.Steps

/-! # What holds while the workers run

The mark covers every level that no worker is still about to record. The tickets are the positions
of their draws, and the interleavings counted are the draws parted from the one before. A digest in
the cell is that of a worker, and those that passed it agree with it or have objected.
-/

namespace LinuxSys.Conc

open Lib

variable {workers : ℕ} {digest : ℕ → Digest} {s : State} {i : ℕ} {o : Observations} {p : Phase}

/-! Levels. -/

namespace Phase

/-- Between counting itself in and counting itself out. -/
def inside : Phase → ℕ
  | .starting => 0
  | .finished => 0
  | _ => 1

/-- The level that a worker still has to record. -/
def now? : Phase → Option ℤ
  | .loading now => some now
  | .raising now _ => some now
  | _ => none

/-- What a worker knows of the levels and of the mark. -/
def Knows (o : Observations) : Phase → Prop
  | .starting => True
  | .loading now => now ∈ o.levels ∧ 1 ≤ now
  | .raising now seen => (now ∈ o.levels ∧ 1 ≤ now) ∧ seen ≤ o.maxInflight
  | _ => ∃ v ∈ o.levels, 1 ≤ v

theorem Knows.mono {o' : Observations} (knows : p.Knows o) (grows : ∀ v ∈ o.levels, v ∈ o'.levels)
    (rises : o.maxInflight ≤ o'.maxInflight) : p.Knows o' := by
  have level : (∃ v ∈ o.levels, 1 ≤ v) → ∃ v ∈ o'.levels, 1 ≤ v :=
    fun ⟨v, member, least⟩ => ⟨v, grows v member, least⟩
  cases p with
  | starting => trivial
  | loading now => exact ⟨grows now knows.1, knows.2⟩
  | raising now seen => exact ⟨⟨grows now knows.1.1, knows.1.2⟩, knows.2.trans rises⟩
  | _ => exact level knows

end Phase

/-- The level is below the mark or a worker is about to record one that is no lower. -/
def Covered (workers : ℕ) (s : State) (v : ℤ) : Prop :=
  v ≤ s.obs.maxInflight ∨ ∃ i < workers, ∃ now, (s.phases i).now? = some now ∧ v ≤ now

structure Levels (workers : ℕ) (s : State) : Prop where
  count : s.obs.inflight = (∑ i ∈ Finset.range workers, (s.phases i).inside : ℕ)
  most : ∀ v ∈ s.obs.levels, v ≤ workers
  mark : s.obs.maxInflight ∈ s.obs.levels
  least : 0 ≤ s.obs.maxInflight
  current : s.obs.inflight ∈ s.obs.levels
  knows : ∀ i < workers, (s.phases i).Knows s.obs
  covered : ∀ v ∈ s.obs.levels, Covered workers s v

namespace Levels

theorem start (workers : ℕ) : Levels workers {} where
  count := by simp [Phase.inside]
  most := by
    intro v member
    rw [List.mem_singleton.mp member]
    exact Int.natCast_nonneg workers
  mark := List.mem_singleton_self 0
  least := le_rfl
  current := List.mem_singleton_self 0
  knows := fun _ _ => trivial
  covered := fun v member => .inl (List.mem_singleton.mp member).le

theorem sum_inside_le (workers : ℕ) (phases : ℕ → Phase) :
    ∑ i ∈ Finset.range workers, (phases i).inside ≤ workers := by
  have each : ∀ i ∈ Finset.range workers, (phases i).inside ≤ 1 := by
    intro i _
    cases phases i <;> simp [Phase.inside]
  simpa using Finset.sum_le_sum each

/-- A worker hands on its level until it is below the mark. -/
theorem covered_put {v : ℤ} (covered : Covered workers s v)
    (rises : s.obs.maxInflight ≤ o.maxInflight)
    (hands : ∀ now, (s.phases i).now? = some now → now ≤ o.maxInflight ∨ p.now? = some now) :
    Covered workers (s.put i o p) v := by
  rcases covered with below | ⟨j, inside, now, found, below⟩
  · exact .inl (below.trans rises)
  · by_cases same : j = i
    · subst same
      rcases hands now found with recorded | kept
      · exact .inl (below.trans recorded)
      · exact .inr ⟨j, inside, now, by rwa [put_self], below⟩
    · exact .inr ⟨j, inside, now, by rwa [put_of_ne _ _ _ _ same], below⟩

/-- What a move has to do to the counts. -/
theorem put (inv : Levels workers s) (inside : i < workers)
    (levels : o.levels = s.obs.levels ∧ o.inflight = s.obs.inflight ∨
      o.levels = s.obs.levels ++ [o.inflight])
    (count : o.inflight + (s.phases i).inside = s.obs.inflight + p.inside)
    (rises : s.obs.maxInflight ≤ o.maxInflight)
    (mark : o.maxInflight = s.obs.maxInflight ∨ o.maxInflight ∈ s.obs.levels)
    (knows : p.Knows o)
    (hands : ∀ now, (s.phases i).now? = some now → now ≤ o.maxInflight ∨ p.now? = some now)
    (new : o.inflight ≤ s.obs.inflight ∨ p.now? = some o.inflight) :
    Levels workers (s.put i o p) := by
  have grows : ∀ v ∈ s.obs.levels, v ∈ o.levels := by
    intro v member
    rcases levels with ⟨same, -⟩ | more
    · rwa [same]
    · rw [more]
      exact List.mem_append_left _ member
  have current : o.inflight ∈ o.levels := by
    rcases levels with ⟨same, still⟩ | more
    · rw [same, still]
      exact inv.current
    · rw [more]
      exact List.mem_append_right _ (List.mem_singleton_self _)
  have sums : ∑ j ∈ Finset.range workers, ((s.put i o p).phases j).inside + (s.phases i).inside =
      ∑ j ∈ Finset.range workers, (s.phases j).inside + p.inside :=
    sum_update Phase.inside s.phases inside p
  have inflight : o.inflight = (∑ j ∈ Finset.range workers, ((s.put i o p).phases j).inside : ℕ) := by
    have before := inv.count
    omega
  have either : ∀ v ∈ o.levels, v ∈ s.obs.levels ∨ v = o.inflight := by
    intro v member
    rcases levels with ⟨same, -⟩ | more
    · rw [same] at member
      exact .inl member
    · rw [more] at member
      exact (List.mem_append.mp member).imp_right List.mem_singleton.mp
  refine ⟨inflight, ?_, ?_, inv.least.trans rises, current, ?_, ?_⟩
  · intro v member
    rcases either v member with old | rfl
    · exact inv.most v old
    · rw [inflight]
      exact_mod_cast sum_inside_le workers _
  · rcases mark with same | old
    · rw [put_obs, same]
      exact grows _ inv.mark
    · exact grows _ old
  · exact forall_put (q := fun _ p => p.Knows o) knows
      fun j inside _ => (inv.knows j inside).mono grows rises
  · intro v member
    rcases either v member with old | rfl
    · exact covered_put (inv.covered v old) rises hands
    · rcases new with lower | now
      · rcases covered_put (inv.covered _ inv.current) rises hands with
          below | ⟨j, inside, now, found, below⟩
        · exact .inl (lower.trans below)
        · exact .inr ⟨j, inside, now, found, lower.trans below⟩
      · exact .inr ⟨i, inside, _, by rwa [put_self], le_rfl⟩

/-- A move that has nothing to do with the levels. -/
theorem quiet (inv : Levels workers s) (inside : i < workers) (levels : o.levels = s.obs.levels)
    (mark : o.maxInflight = s.obs.maxInflight) (inflight : o.inflight = s.obs.inflight)
    (active : p.inside = (s.phases i).inside) (before : (s.phases i).now? = none)
    (knows : p.Knows o) : Levels workers (s.put i o p) := by
  refine inv.put inside (.inl ⟨levels, inflight⟩) (by rw [inflight, active]) mark.ge (.inl mark)
    knows ?_ (.inl inflight.le)
  intro now found
  rw [before] at found
  cases found

theorem move (inv : Levels workers s) {d : Digest} (inside : i < workers)
    (move : Move i d s.obs (s.phases i) o p) : Levels workers (s.put i o p) := by
  have knows := inv.knows i inside
  have positive : 0 ≤ s.obs.inflight := by
    rw [inv.count]
    exact Int.natCast_nonneg _
  generalize here : s.phases i = q at move knows
  cases move with
  | enter =>
    have counted : s.obs.inflight + 1 ∈ s.obs.levels ++ [s.obs.inflight + 1] := by simp
    refine inv.put inside (.inr rfl) (by simp [here, Phase.inside]) le_rfl (.inl rfl)
      ⟨counted, by omega⟩ ?_ (.inr rfl)
    intro now found
    rw [here] at found
    cases found
  | load now =>
    refine inv.put inside (.inl ⟨rfl, rfl⟩) (by rw [here]; rfl) le_rfl (.inl rfl) ⟨knows, le_rfl⟩ ?_
      (.inl le_rfl)
    intro now' found
    rw [here] at found
    exact .inr found
  | raise now above =>
    refine inv.put inside (.inl ⟨rfl, rfl⟩) (by rw [here]; rfl) above.le (.inr knows.1.1)
      ⟨now, knows.1⟩ ?_ (.inl le_rfl)
    intro now' found
    rw [here] at found
    cases found
    exact .inl le_rfl
  | retry now seen =>
    refine inv.put inside (.inl ⟨rfl, rfl⟩) (by rw [here]; rfl) le_rfl (.inl rfl)
      ⟨knows.1, le_rfl⟩ ?_ (.inl le_rfl)
    intro now' found
    rw [here] at found
    exact .inr found
  | enough now seen below =>
    refine inv.put inside (.inl ⟨rfl, rfl⟩) (by rw [here]; rfl) le_rfl (.inl rfl) ⟨now, knows.1⟩ ?_
      (.inl le_rfl)
    intro now' found
    rw [here] at found
    cases found
    exact .inl (below.trans knows.2)
  | leave =>
    have earlier : ∃ v ∈ s.obs.levels ++ [s.obs.inflight - 1], 1 ≤ v := by
      obtain ⟨v, member, least⟩ := knows
      exact ⟨v, List.mem_append_left _ member, least⟩
    refine inv.put inside (.inr rfl) (by simp [here, Phase.inside]) le_rfl (.inl rfl) earlier ?_
      (.inl (by simp))
    intro now found
    rw [here] at found
    cases found
  | draw s prev acc more =>
    exact inv.quiet inside rfl rfl rfl (by rw [here]; rfl) (by rw [here]; rfl) knows
  | sink s prev acc all =>
    exact inv.quiet inside rfl rfl rfl (by rw [here]; rfl) (by rw [here]; rfl) knows
  | compare s prev acc t =>
    exact inv.quiet inside rfl rfl rfl (by rw [here]; rfl) (by rw [here]; rfl) knows
  | place s acc t cpu =>
    exact inv.quiet inside rfl rfl rfl (by rw [here]; rfl) (by rw [here]; rfl) knows
  | first empty =>
    exact inv.quiet inside rfl rfl rfl (by rw [here]; rfl) (by rw [here]; rfl) knows
  | agree full same =>
    exact inv.quiet inside rfl rfl rfl (by rw [here]; rfl) (by rw [here]; rfl) knows
  | differ full other =>
    exact inv.quiet inside rfl rfl rfl (by rw [here]; rfl) (by rw [here]; rfl) knows
  | object =>
    exact inv.quiet inside rfl rfl rfl (by rw [here]; rfl) (by rw [here]; rfl) knows

end Levels

/-! Draws. -/

/-- A worker whose draws are these is in this phase. -/
def Phase.Drew (ts : List ℕ) : Phase → Prop
  | .starting => ts = []
  | .loading _ => ts = []
  | .raising _ _ => ts = []
  | .sampling s prev _ => ts.length = s ∧ ts.getLast? = prev ∧ s ≤ kSamplesPerWorker
  | .comparing s prev _ t =>
    ∃ front, ts = front ++ [t] ∧ front.length = s ∧ front.getLast? = prev ∧ s < kSamplesPerWorker
  | .placing s _ t => ∃ front, ts = front ++ [t] ∧ front.length = s ∧ s < kSamplesPerWorker
  | _ => ts.length = kSamplesPerWorker

/-- The parted draw that a worker has still to count. -/
def Phase.uncounted : Phase → ℕ
  | .comparing _ prev _ t => (skips prev t).toNat
  | _ => 0

def Observations.drawers (o : Observations) : List ℕ := o.handed.map Prod.fst

structure Draws (workers : ℕ) (s : State) : Prop where
  tickets : s.obs.handed.map Prod.snd = List.range s.obs.ticket
  owners : ∀ k ∈ s.obs.drawers, k < workers
  drew : ∀ i < workers, (s.phases i).Drew (times s.obs.drawers i)
  count : s.obs.interleaves + ∑ i ∈ Finset.range workers, (s.phases i).uncounted =
    ∑ i ∈ Finset.range workers, partings s.obs.drawers i

namespace Draws

theorem start (workers : ℕ) : Draws workers {} where
  tickets := rfl
  owners := nofun
  drew := fun _ _ => rfl
  count := by simp [Phase.uncounted, Observations.drawers, partings, times]

theorem length_drawers (inv : Draws workers s) : s.obs.drawers.length = s.obs.ticket := by
  have lengths := congrArg List.length inv.tickets
  rw [List.length_map, List.length_range] at lengths
  rw [Observations.drawers, List.length_map, lengths]

/-- A move that draws no ticket and counts no more than it had to. -/
theorem quiet (inv : Draws workers s) (inside : i < workers) (handed : o.handed = s.obs.handed)
    (ticket : o.ticket = s.obs.ticket) (drew : p.Drew (times s.obs.drawers i))
    (count : o.interleaves + p.uncounted = s.obs.interleaves + (s.phases i).uncounted) :
    Draws workers (s.put i o p) := by
  have drawers : o.drawers = s.obs.drawers := by
    rw [Observations.drawers, handed, Observations.drawers]
  have sums : ∑ j ∈ Finset.range workers, ((s.put i o p).phases j).uncounted +
      (s.phases i).uncounted = ∑ j ∈ Finset.range workers, (s.phases j).uncounted + p.uncounted :=
    sum_update Phase.uncounted s.phases inside p
  refine ⟨?_, ?_, ?_, ?_⟩
  · rw [put_obs, handed, ticket]
    exact inv.tickets
  · rw [put_obs, drawers]
    exact inv.owners
  · rw [put_obs, drawers]
    exact forall_put (q := fun j p => p.Drew (times s.obs.drawers j)) drew
      fun j inside _ => inv.drew j inside
  · have before := inv.count
    rw [put_obs, drawers]
    omega

theorem draw (inv : Draws workers s) (inside : i < workers) {n : ℕ} {prev : Option ℕ} {acc : UInt64}
    (here : s.phases i = .sampling n prev acc) (more : n < kSamplesPerWorker) (acc' : UInt64) :
    Draws workers (s.put i
      { s.obs with ticket := s.obs.ticket + 1, handed := s.obs.handed ++ [(i, s.obs.ticket)] }
      (.comparing n prev acc' s.obs.ticket)) := by
  have drew := inv.drew i inside
  rw [here] at drew
  obtain ⟨length, last, -⟩ := drew
  have drawers : Observations.drawers { s.obs with
      ticket := s.obs.ticket + 1, handed := s.obs.handed ++ [(i, s.obs.ticket)] } =
      s.obs.drawers ++ [i] := by simp [Observations.drawers]
  refine ⟨?_, ?_, ?_, ?_⟩
  · simp [inv.tickets, List.range_succ]
  · rw [put_obs, drawers]
    intro k member
    rcases List.mem_append.mp member with old | new
    · exact inv.owners k old
    · rwa [List.mem_singleton.mp new]
  · rw [put_obs, drawers]
    refine forall_put (q := fun j p => p.Drew (times (s.obs.drawers ++ [i]) j)) ?_ ?_
    · refine ⟨times s.obs.drawers i, ?_, length, last, more⟩
      rw [times_concat, if_pos rfl, inv.length_drawers]
    · intro j inside other
      rw [times_concat, if_neg other.symm, List.append_nil]
      exact inv.drew j inside
  · have sums : ∑ j ∈ Finset.range workers, (Function.update s.phases i
        (.comparing n prev acc' s.obs.ticket) j).uncounted + (s.phases i).uncounted =
        ∑ j ∈ Finset.range workers, (s.phases j).uncounted +
          (Phase.comparing n prev acc' s.obs.ticket).uncounted :=
      sum_update Phase.uncounted s.phases inside _
    have before := inv.count
    rw [here] at sums
    rw [put_obs, drawers, sum_partings_concat inside, last, inv.length_drawers, ← before]
    simp only [Phase.uncounted, State.put] at sums ⊢
    omega

theorem move (inv : Draws workers s) {d : Digest} (inside : i < workers)
    (move : Move i d s.obs (s.phases i) o p) : Draws workers (s.put i o p) := by
  have drew := inv.drew i inside
  generalize here : s.phases i = q at move drew
  cases move with
  | draw n prev acc more => exact inv.draw inside here more (burn acc)
  | enter => exact inv.quiet inside rfl rfl drew (by rw [here]; rfl)
  | load now => exact inv.quiet inside rfl rfl drew (by rw [here]; rfl)
  | retry now seen => exact inv.quiet inside rfl rfl drew (by rw [here]; rfl)
  | raise now above =>
    have none : times s.obs.drawers i = [] := drew
    exact inv.quiet inside rfl rfl (by rw [none]; exact ⟨rfl, rfl, by decide⟩) (by rw [here]; rfl)
  | enough now seen below =>
    have none : times s.obs.drawers i = [] := drew
    exact inv.quiet inside rfl rfl (by rw [none]; exact ⟨rfl, rfl, by decide⟩) (by rw [here]; rfl)
  | sink n prev acc all =>
    obtain ⟨length, -, most⟩ := drew
    exact inv.quiet inside rfl rfl (length.trans (le_antisymm most all)) (by rw [here]; rfl)
  | compare n prev acc t =>
    obtain ⟨front, same, length, -, more⟩ := drew
    exact inv.quiet inside rfl rfl ⟨front, same, length, more⟩ (by rw [here]; rfl)
  | place n acc t cpu =>
    obtain ⟨front, same, length, more⟩ := drew
    refine inv.quiet inside rfl rfl ⟨?_, ?_, more⟩ (by rw [here]; rfl)
    · rw [same, List.length_append, length]
      rfl
    · rw [same, List.getLast?_concat]
  | first empty => exact inv.quiet inside rfl rfl drew (by rw [here]; rfl)
  | agree full same => exact inv.quiet inside rfl rfl drew (by rw [here]; rfl)
  | differ full other => exact inv.quiet inside rfl rfl drew (by rw [here]; rfl)
  | object => exact inv.quiet inside rfl rfl drew (by rw [here]; rfl)
  | leave => exact inv.quiet inside rfl rfl drew (by rw [here]; rfl)

end Draws

/-! Digests. -/

/-- Behind the comparison of digests. -/
def Phase.passed : Phase → Bool
  | .objecting => true
  | .leaving => true
  | .finished => true
  | _ => false

structure Digests (workers : ℕ) (digest : ℕ → Digest) (s : State) : Prop where
  cell : s.obs.digest = 0 ∨ ∃ k < workers, (digest k).value = s.obs.digest
  passed : ∀ i < workers, (s.phases i).passed → s.obs.digest ≠ 0 ∧
    ((digest i).value = s.obs.digest ∨ s.obs.consensus = false ∨ s.phases i = .objecting)
  objects : ∀ i < workers, s.phases i = .objecting → (digest i).value ≠ s.obs.digest
  split : s.obs.consensus = false →
    ∃ i < workers, ∃ j < workers, (digest i).value ≠ (digest j).value

namespace Digests

theorem start (workers : ℕ) (digest : ℕ → Digest) : Digests workers digest {} where
  cell := .inl rfl
  passed := nofun
  objects := nofun
  split := nofun

/-- A move that leaves the cell and the verdict. -/
theorem quiet (inv : Digests workers digest s) (cell : o.digest = s.obs.digest)
    (verdict : o.consensus = s.obs.consensus)
    (passed : p.passed → s.obs.digest ≠ 0 ∧
      ((digest i).value = s.obs.digest ∨ s.obs.consensus = false ∨ p = .objecting))
    (objects : p = .objecting → (digest i).value ≠ s.obs.digest) :
    Digests workers digest (s.put i o p) := by
  refine ⟨?_, ?_, ?_, ?_⟩
  · rw [put_obs, cell]
    exact inv.cell
  · rw [put_obs, cell, verdict]
    exact forall_put (q := fun j p => p.passed → s.obs.digest ≠ 0 ∧
      ((digest j).value = s.obs.digest ∨ s.obs.consensus = false ∨ p = .objecting)) passed
      fun j inside _ => inv.passed j inside
  · rw [put_obs, cell]
    exact forall_put (q := fun j p => p = .objecting → (digest j).value ≠ s.obs.digest) objects
      fun j inside _ => inv.objects j inside
  · rw [put_obs, verdict]
    exact inv.split

/-- The first digest comes into a cell that no worker has passed. -/
theorem first (inv : Digests workers digest s) (inside : i < workers) (empty : s.obs.digest = 0) :
    Digests workers digest
      (s.put i { s.obs with digest := (digest i).value } .leaving) := by
  have nobody : ∀ j < workers, ¬ (s.phases j).passed := fun j inside passed =>
    (inv.passed j inside passed).1 empty
  refine ⟨.inr ⟨i, inside, rfl⟩, ?_, ?_, inv.split⟩
  · refine forall_put (q := fun j p => p.passed → (digest i).value ≠ 0 ∧
      ((digest j).value = (digest i).value ∨ s.obs.consensus = false ∨ p = .objecting)) ?_ ?_
    · exact fun _ => ⟨(digest i).full, .inl rfl⟩
    · exact fun j inside _ passed => absurd passed (nobody j inside)
  · refine forall_put (q := fun j p => p = .objecting → (digest j).value ≠ (digest i).value) nofun ?_
    intro j inside _ objecting
    exact absurd (by rw [objecting]; rfl) (nobody j inside)

/-- A worker objects to the digest of another one. -/
theorem object (inv : Digests workers digest s) (inside : i < workers)
    (here : s.phases i = .objecting) :
    Digests workers digest (s.put i { s.obs with consensus := false } .leaving) := by
  have other := inv.objects i inside here
  have full := (inv.passed i inside (by rw [here]; rfl)).1
  refine ⟨inv.cell, ?_, ?_, fun _ => ?_⟩
  · refine forall_put (q := fun j p => p.passed → s.obs.digest ≠ 0 ∧
      ((digest j).value = s.obs.digest ∨ false = false ∨ p = .objecting)) ?_ ?_
    · exact fun _ => ⟨full, .inr (.inl rfl)⟩
    · exact fun j inside _ _ => ⟨full, .inr (.inl rfl)⟩
  · exact forall_put (q := fun j p => p = .objecting → (digest j).value ≠ s.obs.digest) nofun
      fun j inside _ => inv.objects j inside
  · rcases inv.cell with empty | ⟨k, within, same⟩
    · exact absurd empty full
    · exact ⟨i, inside, k, within, same ▸ other⟩

theorem move (inv : Digests workers digest s) (inside : i < workers)
    (move : Move i (digest i) s.obs (s.phases i) o p) : Digests workers digest (s.put i o p) := by
  generalize here : s.phases i = q at move
  cases move with
  | first empty => exact inv.first inside empty
  | agree full same => exact inv.quiet rfl rfl (fun _ => ⟨full, .inl same.symm⟩) nofun
  | differ full other => exact inv.quiet rfl rfl (fun _ => ⟨full, .inr (.inr rfl)⟩) fun _ => other.symm
  | object => exact inv.object inside here
  | leave =>
    refine inv.quiet rfl rfl (fun _ => ?_) nofun
    have passed := inv.passed i inside (by rw [here]; rfl)
    rw [here] at passed
    exact ⟨passed.1, passed.2.imp_right fun either => .inl (either.resolve_right nofun)⟩
  | enter => exact inv.quiet rfl rfl nofun nofun
  | load now => exact inv.quiet rfl rfl nofun nofun
  | retry now seen => exact inv.quiet rfl rfl nofun nofun
  | raise now above => exact inv.quiet rfl rfl nofun nofun
  | enough now seen below => exact inv.quiet rfl rfl nofun nofun
  | draw n prev acc more => exact inv.quiet rfl rfl nofun nofun
  | sink n prev acc all => exact inv.quiet rfl rfl nofun nofun
  | compare n prev acc t => exact inv.quiet rfl rfl nofun nofun
  | place n acc t cpu => exact inv.quiet rfl rfl nofun nofun

end Digests

/-! All of it. -/

structure State.Inv (workers : ℕ) (digest : ℕ → Digest) (s : State) : Prop where
  levels : Levels workers s
  draws : Draws workers s
  digests : Digests workers digest s

theorem State.Inv.start (workers : ℕ) (digest : ℕ → Digest) : State.Inv workers digest {} where
  levels := .start workers
  draws := .start workers
  digests := .start workers digest

theorem State.Inv.step (s : State) (a : Action) (t : State) (inv : s.Inv workers digest)
    (taken : s.step workers digest a = some t) : t.Inv workers digest := by
  obtain ⟨i, inside, o, p, move, rfl⟩ := move_of_step taken
  exact ⟨inv.levels.move inside move, inv.draws.move inside move, inv.digests.move inside move⟩

end LinuxSys.Conc
