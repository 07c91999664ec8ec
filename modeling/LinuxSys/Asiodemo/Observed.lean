import LinuxSys.Lib.AtomicMax
import LinuxSys.Lib.History
import LinuxSys.Lib.Progress
import Mathlib.Data.Fintype.Basic

/-! # How many handlers ran at once

The strand and nostrand cases of `asiodemo` (ch55) post one and the same handler, to a strand or to
the context itself. The handler counts itself in and out, keeps the largest count that it has seen,
and increments a plain counter by a load and a store.
-/

namespace LinuxSys.Asiodemo

open Lib

/-- Where a thread stands: outside a handler, or in one, or behind `ioc.run()`. -/
inductive Phase where
  | idle
  | raising (now : ℕ) (r : Raise)
  | counting (now : ℕ)
  | loading
  | storing (value : ℕ)
  | leaving
  | returned
deriving DecidableEq, Repr

/-- The handlers in the queue, what `Observed` holds, and the threads. -/
structure State (threads : ℕ) where
  queue : ℕ
  inflight : ℕ
  maxInflight : ℕ
  overlaps : ℕ
  unguarded : ℕ
  phase : Fin threads → Phase

/-- A thread takes a handler, goes on in one, or finds none. -/
inductive Act (threads : ℕ) where
  | take (t : Fin threads)
  | go (t : Fin threads) (spurious : Bool)
  | leave (t : Fin threads)
deriving DecidableEq, Repr

/-- Whether a thread is in a handler. -/
def Phase.busy : Phase → ℕ
  | .idle => 0
  | .returned => 0
  | _ => 1

variable {threads : ℕ}

def State.goto (s : State threads) (t : Fin threads) (phase : Phase) : State threads :=
  { s with phase := Function.update s.phase t phase }

/-- The handlers under way. -/
def State.running (s : State threads) : ℕ := ∑ t, (s.phase t).busy

/-- Behind `bump_max`. -/
def raised (now : ℕ) (r : Raise) : Phase :=
  if r = .finished then .counting now else .raising now r

/-- The next operation of the handler that a thread is in. -/
def State.go (s : State threads) (t : Fin threads) (spurious : Bool) : Option (State threads) :=
  match s.phase t with
  | .raising now r =>
    let (shared, r) := r.step now spurious s.maxInflight
    some { s.goto t (raised now r) with maxInflight := shared }
  | .counting now =>
    some { s.goto t .loading with overlaps := if 1 < now then s.overlaps + 1 else s.overlaps }
  | .loading => some (s.goto t (.storing s.unguarded))
  | .storing value => some { s.goto t .leaving with unguarded := value + 1 }
  | .leaving => some { s.goto t .idle with inflight := s.inflight - 1 }
  | .idle => none
  | .returned => none

/-- A strand gives out a handler only when none is under way. -/
def step (strand : Bool) (s : State threads) : Act threads → Option (State threads)
  | .take t =>
    if s.phase t = .idle ∧ 0 < s.queue ∧ (strand → s.running = 0) then
      some { s.goto t (.raising (s.inflight + 1) .loading) with
        queue := s.queue - 1
        inflight := s.inflight + 1 }
    else none
  | .go t spurious => s.go t spurious
  | .leave t => if s.phase t = .idle ∧ s.queue = 0 then some (s.goto t .returned) else none

def machine (strand : Bool) (threads posts : ℕ) : Machine (State threads) (Act threads) :=
  ⟨⟨posts, 0, 0, 0, 0, fun _ => .idle⟩, step strand⟩

/-- How many handlers are under way when one starts, itself included. -/
def starts (s : State threads) : Act threads → List ℕ
  | .take _ => [s.running + 1]
  | _ => []

/-- Whether a handler has an overlap to count. -/
def Phase.owes : Phase → ℕ
  | .raising now _ => if 1 < now then 1 else 0
  | .counting now => if 1 < now then 1 else 0
  | _ => 0

structure Inv (posts : ℕ) (s : State threads) (past : List ℕ) : Prop where
  inflight : s.inflight = s.running
  posted : s.queue + past.length = posts
  empty : ∀ t, s.phase t = .returned → s.queue = 0
  overlaps : s.overlaps + ∑ t, (s.phase t).owes = past.countP (1 < ·)
  top : s.maxInflight ∈ 0 :: past
  bound : ∀ k ∈ past, k ≤ s.maxInflight ∨ ∃ t r, s.phase t = .raising k r
  raising : ∀ t now r, s.phase t = .raising now r → now ∈ past ∧ r.Fine now ∧ r ≠ .finished

section Steps

variable {strand : Bool} {posts : ℕ} {s s' : State threads} {past : List ℕ} {t : Fin threads}

theorem running_goto (s : State threads) (t : Fin threads) (phase : Phase) :
    (s.goto t phase).running + (s.phase t).busy = s.running + phase.busy :=
  sum_update_mem Phase.busy s.phase (Finset.mem_univ t) phase

theorem owes_goto (s : State threads) (t : Fin threads) (phase : Phase) :
    ∑ u, ((s.goto t phase).phase u).owes + (s.phase t).owes =
      ∑ u, (s.phase u).owes + phase.owes :=
  sum_update_mem Phase.owes s.phase (Finset.mem_univ t) phase

theorem goto_self (s : State threads) (t : Fin threads) (phase : Phase) :
    (s.goto t phase).phase t = phase := Function.update_self ..

theorem goto_of_ne (s : State threads) {t u : Fin threads} (other : u ≠ t) (phase : Phase) :
    (s.goto t phase).phase u = s.phase u := Function.update_of_ne other ..

/-- A thread goes on that does not raise the maximum. -/
theorem Inv.goto (inv : Inv posts s past) {phase : Phase} (before : ∀ k r, s.phase t ≠ .raising k r)
    (behind : ∀ k r, phase ≠ .raising k r) {overlaps inflight : ℕ} (unguarded : ℕ)
    (counts : overlaps + phase.owes = s.overlaps + (s.phase t).owes)
    (busy : inflight + (s.phase t).busy = s.inflight + phase.busy)
    (empty : phase = .returned → s.queue = 0) :
    Inv posts { s.goto t phase with
      overlaps := overlaps
      inflight := inflight
      unguarded := unguarded } past := by
  have running := running_goto s t phase
  have owes := owes_goto s t phase
  have counted := inv.overlaps
  refine ⟨?_, inv.posted, fun u returned => ?_, ?_, inv.top, fun k member => ?_,
    fun u k r raises => ?_⟩
  · have same := inv.inflight
    change inflight = (s.goto t phase).running
    omega
  · by_cases same : u = t
    · subst same
      exact empty ((goto_self s u phase).symm.trans returned)
    · exact inv.empty u ((goto_of_ne s same phase).symm.trans returned)
  · change overlaps + ∑ u, ((s.goto t phase).phase u).owes = _
    omega
  · rcases inv.bound k member with below | ⟨u, r, raises⟩
    · exact .inl below
    · have other : u ≠ t := by
        rintro rfl
        exact before k r raises
      exact .inr ⟨u, r, (goto_of_ne s other phase).trans raises⟩
  · by_cases same : u = t
    · subst same
      exact absurd ((goto_self s u phase).symm.trans raises) (behind k r)
    · exact inv.raising u k r ((goto_of_ne s same phase).symm.trans raises)

/-- A handler starts. -/
theorem Inv.take (inv : Inv posts s past) (idle : s.phase t = .idle) (more : 0 < s.queue) :
    Inv posts { s.goto t (.raising (s.inflight + 1) .loading) with
      queue := s.queue - 1
      inflight := s.inflight + 1 } (past ++ [s.running + 1]) := by
  have running := running_goto s t (.raising (s.inflight + 1) .loading)
  have owes := owes_goto s t (.raising (s.inflight + 1) .loading)
  have counted := inv.overlaps
  have same := inv.inflight
  rw [idle] at running owes
  simp only [Phase.busy, Nat.add_zero] at running
  refine ⟨?_, ?_, fun u returned => ?_, ?_, ?_, fun k member => ?_, fun u k r raises => ?_⟩
  · exact (congrArg (· + 1) same).trans running.symm
  · have posted := inv.posted
    simp only [List.length_append, List.length_singleton]
    omega
  · by_cases here : u = t
    · subst here
      cases (goto_self s u _).symm.trans returned
    · have none := inv.empty u ((goto_of_ne s here _).symm.trans returned)
      omega
  · change s.overlaps + ∑ u, ((s.goto t _).phase u).owes = _
    rw [List.countP_append, List.countP_singleton, ← counted, ← same]
    simp only [Phase.owes, decide_eq_true_eq] at owes ⊢
    omega
  · exact List.mem_append_left _ inv.top
  · rcases List.mem_append.mp member with old | new
    · rcases inv.bound k old with below | ⟨u, r, raises⟩
      · exact .inl below
      · have other : u ≠ t := by
          rintro rfl
          cases idle.symm.trans raises
        exact .inr ⟨u, r, (goto_of_ne s other _).trans raises⟩
    · rw [List.mem_singleton.mp new, ← same]
      exact .inr ⟨t, .loading, goto_self s t _⟩
  · by_cases here : u = t
    · subst here
      cases (goto_self s u _).symm.trans raises
      rw [same]
      exact ⟨List.mem_append_right _ (List.mem_singleton_self _), fun _ other => (by cases other),
        Raise.noConfusion⟩
    · obtain ⟨member, fine⟩ := inv.raising u k r ((goto_of_ne s here _).symm.trans raises)
      exact ⟨List.mem_append_left _ member, fine⟩

/-- A thread is at the maximum. -/
theorem Inv.raise (inv : Inv posts s past) {now : ℕ} {r : Raise} (spurious : Bool)
    (here : s.phase t = .raising now r) :
    Inv posts { s.goto t (raised now (r.step now spurious s.maxInflight).2) with
      maxInflight := (r.step now spurious s.maxInflight).1 } past := by
  obtain ⟨member, fine, open'⟩ := inv.raising t now r here
  generalize next : raised now (r.step now spurious s.maxInflight).2 = phase
  have alike : phase.busy = (s.phase t).busy ∧ phase.owes = (s.phase t).owes := by
    rw [← next, here, raised]
    split_ifs <;> exact ⟨rfl, rfl⟩
  have running := running_goto s t phase
  have owes := owes_goto s t phase
  have counted := inv.overlaps
  have same := inv.inflight
  have grows : s.maxInflight ≤ (r.step now spurious s.maxInflight).1 := fine.le_step
  refine ⟨?_, inv.posted, fun u returned => ?_, ?_, ?_, fun k old => ?_, fun u k q raises => ?_⟩
  · change s.inflight = (s.goto t phase).running
    omega
  · by_cases mine : u = t
    · subst mine
      have returned := (goto_self s u phase).symm.trans returned
      rw [returned, here] at alike
      cases alike.1
    · exact inv.empty u ((goto_of_ne s mine phase).symm.trans returned)
  · change s.overlaps + ∑ u, ((s.goto t phase).phase u).owes = _
    omega
  · rcases Raise.step_eq now spurious s.maxInflight r with unchanged | swapped
    · exact unchanged.symm ▸ inv.top
    · exact swapped.symm ▸ List.mem_cons_of_mem _ member
  · rcases inv.bound k old with below | ⟨u, q, raises⟩
    · exact .inl (below.trans grows)
    · by_cases mine : u = t
      · subst mine
        cases here.symm.trans raises
        by_cases ended : (r.step now spurious s.maxInflight).2 = .finished
        · exact .inl (Raise.le_of_finished open' ended)
        · rw [raised, if_neg ended] at next
          exact .inr ⟨u, _, (goto_self s u phase).trans next.symm⟩
      · exact .inr ⟨u, q, (goto_of_ne s mine phase).trans raises⟩
  · by_cases mine : u = t
    · subst mine
      have raises := (goto_self s u phase).symm.trans raises
      rw [← next, raised] at raises
      split_ifs at raises with ended
      cases raises
      exact ⟨member, fine.step, ended⟩
    · exact inv.raising u k q ((goto_of_ne s mine phase).symm.trans raises)

theorem Inv.go {spurious : Bool} (inv : Inv posts s past) (taken : s.go t spurious = some s') :
    Inv posts s' past := by
  rw [State.go] at taken
  cases here : s.phase t with
  | idle | returned => simp [here] at taken
  | raising now r =>
    simp only [here] at taken
    obtain rfl := Option.some.inj taken
    exact inv.raise spurious here
  | counting now =>
    simp only [here] at taken
    obtain rfl := Option.some.inj taken
    refine inv.goto (by simp [here]) (by simp) _ ?_ (by simp [here, Phase.busy, State.goto])
      (by simp)
    simp only [here, Phase.owes]
    split_ifs <;> rfl
  | loading =>
    simp only [here] at taken
    obtain rfl := Option.some.inj taken
    exact inv.goto (by simp [here]) (by simp) _ (by simp [here, Phase.owes])
      (by simp [here, Phase.busy]) (by simp)
  | storing value =>
    simp only [here] at taken
    obtain rfl := Option.some.inj taken
    exact inv.goto (by simp [here]) (by simp) _ (by simp [here, Phase.owes, State.goto])
      (by simp [here, Phase.busy, State.goto]) (by simp)
  | leaving =>
    simp only [here] at taken
    obtain rfl := Option.some.inj taken
    refine inv.goto (by simp [here]) (by simp) _ (by simp [here, Phase.owes, State.goto]) ?_
      (by simp)
    have one : (s.phase t).busy ≤ s.running :=
      Finset.single_le_sum (f := fun u => (s.phase u).busy) (fun _ _ => Nat.zero_le _)
        (Finset.mem_univ t)
    have same := inv.inflight
    rw [here] at one ⊢
    simp only [Phase.busy] at one ⊢
    omega

theorem Inv.step {a : Act threads} (inv : Inv posts s past)
    (taken : Asiodemo.step strand s a = some s') : Inv posts s' (past ++ starts s a) := by
  cases a with
  | take t =>
    rw [Asiodemo.step] at taken
    split_ifs at taken with may
    obtain rfl := Option.some.inj taken
    exact inv.take may.1 may.2.1
  | go t spurious =>
    change Inv posts s' (past ++ [])
    rw [List.append_nil]
    exact inv.go taken
  | leave t =>
    rw [Asiodemo.step] at taken
    split_ifs at taken with may
    obtain rfl := Option.some.inj taken
    change Inv posts _ (past ++ [])
    rw [List.append_nil]
    exact inv.goto (by simp [may.1]) (by simp) _ (by simp [may.1, Phase.owes])
      (by simp [may.1, Phase.busy]) fun _ => may.2

theorem inv_of_run {acts : List (Act threads)}
    (run : (machine strand threads posts).run? acts = some s) :
    Inv posts s ((machine strand threads posts).history starts
      (machine strand threads posts).init acts) := by
  change Inv posts s ([] ++ _)
  refine Machine.history_keeps (fun s a s' past inv
    (taken : Asiodemo.step strand s a = some s') => inv.step taken) ?_ run
  refine ⟨?_, Nat.add_zero _, fun t returned => ?_, ?_, List.mem_singleton_self _,
    fun k member => ?_, fun t k r raises => ?_⟩
  · exact (Finset.sum_eq_zero fun t _ => rfl).symm
  · cases returned
  · exact (Nat.zero_add _).trans (Finset.sum_eq_zero fun t _ => rfl)
  · cases member
  · cases raises

/-- Until all threads are behind `ioc.run()`, one can go on. -/
theorem can_go_on (strand : Bool) (s : State threads) {t : Fin threads}
    (short : s.phase t ≠ .returned) : ∃ a s', step strand s a = some s' := by
  by_cases busy : ∃ u, (s.phase u).busy ≠ 0
  · obtain ⟨u, busy⟩ := busy
    refine ⟨.go u false, ?_⟩
    simp only [step, State.go]
    cases here : s.phase u with
    | idle | returned => simp [here, Phase.busy] at busy
    | raising now r | counting now | loading | storing value | leaving => exact ⟨_, rfl⟩
  · simp only [not_exists, not_not] at busy
    have idle : s.phase t = .idle := by
      have none := busy t
      cases here : s.phase t with
      | idle => rfl
      | returned => exact absurd here short
      | raising now r | counting now | loading | storing value | leaving =>
        rw [here] at none
        cases none
    have quiet : s.running = 0 := Finset.sum_eq_zero fun u _ => busy u
    by_cases more : 0 < s.queue
    · exact ⟨.take t, _, if_pos ⟨idle, more, fun _ => quiet⟩⟩
    · exact ⟨.leave t, _, if_pos ⟨idle, by omega⟩⟩

/-- What `Observed` has at the end is what has happened: one start for each handler that was posted,
the most that were under way at once, and how many of them started while another was. And until the
end somebody can go on. -/
theorem observed_of_run (nonempty : 0 < threads) {acts : List (Act threads)}
    (run : (machine strand threads posts).run? acts = some s) :
    let starts := (machine strand threads posts).history starts
      (machine strand threads posts).init acts
    ((∀ t, s.phase t = .returned) → starts.length = posts ∧ (∀ k ∈ starts, k ≤ s.maxInflight) ∧
      (s.maxInflight ∈ starts ∨ posts = 0) ∧ s.overlaps = starts.countP (1 < ·)) ∧
    ((∃ t, s.phase t ≠ .returned) → ∃ a s', step strand s a = some s') := by
  intro starts
  refine ⟨fun ended => ?_, fun ⟨t, short⟩ => can_go_on strand s short⟩
  have inv := inv_of_run run
  have length : starts.length = posts := by
    have posted := inv.posted
    rwa [inv.empty ⟨0, nonempty⟩ (ended _), Nat.zero_add] at posted
  have bound : ∀ k ∈ starts, k ≤ s.maxInflight := by
    intro k member
    refine (inv.bound k member).resolve_right ?_
    rintro ⟨t, r, raises⟩
    cases (ended t).symm.trans raises
  refine ⟨length, bound, ?_, ?_⟩
  · rcases List.mem_cons.mp inv.top with zero | member
    · refine or_iff_not_imp_right.mpr fun more => ?_
      obtain ⟨k, member⟩ := List.exists_mem_of_length_pos (Nat.pos_of_ne_zero (length ▸ more))
      have same : k = s.maxInflight := by
        have below := bound k member
        omega
      exact same ▸ member
    · exact .inl member
  · have overlaps := inv.overlaps
    rwa [Finset.sum_eq_zero fun t _ => by rw [ended t]; rfl, Nat.add_zero] at overlaps

/-- The first thread takes two loads and an exchange to see that the second was faster. -/
def overlapped : List (Act 2) :=
  [.take 0, .go 0 false, .take 1, .go 1 false, .go 1 false, .go 0 false, .go 0 false, .go 0 false,
    .go 0 false, .go 0 false, .go 1 false, .go 1 false, .go 1 false, .go 1 false, .leave 0,
    .leave 1]

theorem observed_of_run_two : ∃ s, (machine false 2 2).run? overlapped = some s ∧
    s.overlaps = 1 ∧
    (machine false 2 2).history starts (machine false 2 2).init overlapped = [1, 2] ∧
    ∀ k ∈ [1, 2], k ≤ s.maxInflight := by
  have run : (machine false 2 2).run? overlapped = some _ := rfl
  exact ⟨_, run, rfl, rfl, ((observed_of_run (by decide) run).1 (by decide)).2.1⟩

end Steps

section Strand

variable {posts : ℕ} {s s' : State threads} {past : List ℕ} {t : Fin threads}

/-- Whether a handler under way has not yet incremented the counter. -/
def Phase.unstored : Phase → ℕ
  | .raising _ _ => 1
  | .counting _ => 1
  | .loading => 1
  | .storing _ => 1
  | _ => 0

/-- At most one handler of a strand is under way. -/
structure Alone (posts : ℕ) (s : State threads) (past : List ℕ) : Prop where
  running : s.running ≤ 1
  ones : ∀ k ∈ past, k = 1
  fresh : ∀ t value, s.phase t = .storing value → value = s.unguarded
  counted : s.unguarded + s.queue + ∑ t, (s.phase t).unstored = posts

theorem unstored_goto (s : State threads) (t : Fin threads) (phase : Phase) :
    ∑ u, ((s.goto t phase).phase u).unstored + (s.phase t).unstored =
      ∑ u, (s.phase u).unstored + phase.unstored :=
  sum_update_mem Phase.unstored s.phase (Finset.mem_univ t) phase

/-- A thread goes on in its handler. -/
theorem Alone.goto (alone : Alone posts s past) {phase : Phase} {unguarded : ℕ}
    (busy : phase.busy ≤ (s.phase t).busy)
    (fresh : ∀ value, phase = .storing value → value = unguarded)
    (kept : unguarded = s.unguarded ∨ (s.phase t).busy = 1)
    (counted : unguarded + phase.unstored = s.unguarded + (s.phase t).unstored)
    (most overlaps inflight : ℕ) :
    Alone posts { s.goto t phase with
      unguarded := unguarded
      maxInflight := most
      overlaps := overlaps
      inflight := inflight } past := by
  have running := running_goto s t phase
  have stored := unstored_goto s t phase
  have few := alone.running
  have total := alone.counted
  refine ⟨?_, alone.ones, fun u value stores => ?_, ?_⟩
  · change (s.goto t phase).running ≤ 1
    omega
  · by_cases same : u = t
    · subst same
      exact fresh value ((goto_self s u phase).symm.trans stores)
    · have stores := (goto_of_ne s same phase).symm.trans stores
      rcases kept with kept | mine
      · exact (alone.fresh u value stores).trans kept.symm
      · have both := Finset.add_le_sum (f := fun v => (s.phase v).busy) (fun _ _ => Nat.zero_le _)
          (Finset.mem_univ u) (Finset.mem_univ t) same
        rw [stores, mine] at both
        exact absurd (both.trans few) (show ¬ 1 + 1 ≤ 1 by decide)
  · change unguarded + s.queue + ∑ u, ((s.goto t phase).phase u).unstored = posts
    omega

theorem Alone.step {a : Act threads} (alone : Alone posts s past)
    (taken : Asiodemo.step true s a = some s') : Alone posts s' (past ++ starts s a) := by
  cases a with
  | take t =>
    rw [Asiodemo.step] at taken
    split_ifs at taken with may
    obtain ⟨idle, more, quiet⟩ := may
    have quiet := quiet rfl
    obtain rfl := Option.some.inj taken
    have running := running_goto s t (.raising (s.inflight + 1) .loading)
    have stored := unstored_goto s t (.raising (s.inflight + 1) .loading)
    have total := alone.counted
    have was : (s.phase t).unstored = 0 := by
      rw [idle]
      rfl
    have is : (Phase.raising (s.inflight + 1) .loading).unstored = 1 := rfl
    rw [idle, quiet] at running
    refine ⟨running.le, fun k member => ?_, fun u value stores => ?_, ?_⟩
    · rcases List.mem_append.mp member with old | new
      · exact alone.ones k old
      · rw [List.mem_singleton.mp new, quiet]
    · by_cases same : u = t
      · subst same
        cases (goto_self s u _).symm.trans stores
      · exact alone.fresh u value ((goto_of_ne s same _).symm.trans stores)
    · change s.unguarded + (s.queue - 1) + ∑ u, ((s.goto t _).phase u).unstored = posts
      omega
  | go t spurious =>
    change Alone posts s' (past ++ [])
    rw [List.append_nil]
    rw [Asiodemo.step, State.go] at taken
    cases here : s.phase t with
    | idle | returned => simp [here] at taken
    | raising now r =>
      simp only [here] at taken
      obtain rfl := Option.some.inj taken
      generalize next : raised now (r.step now spurious s.maxInflight).2 = phase
      have alike : phase.busy = 1 ∧ phase.unstored = 1 ∧ ∀ value, phase ≠ .storing value := by
        rw [← next, raised]
        split_ifs <;> exact ⟨rfl, rfl, fun _ => Phase.noConfusion⟩
      refine alone.goto ?_ (fun value stores => absurd stores (alike.2.2 value)) (.inl rfl) ?_ _ _ _
      · rw [here, alike.1]
        rfl
      · rw [here, alike.2.1]
        rfl
    | counting now =>
      simp only [here] at taken
      obtain rfl := Option.some.inj taken
      exact alone.goto (by simp [here, Phase.busy]) (by simp) (.inl rfl)
        (by simp [here, Phase.unstored]) _ _ _
    | loading =>
      simp only [here] at taken
      obtain rfl := Option.some.inj taken
      exact alone.goto (by simp [here, Phase.busy])
        (fun value same => (Phase.storing.inj same).symm) (.inl rfl)
        (by simp [here, Phase.unstored]) _ _ _
    | storing value =>
      simp only [here] at taken
      obtain rfl := Option.some.inj taken
      obtain rfl := alone.fresh t value here
      exact alone.goto (by simp [here, Phase.busy]) (by simp) (.inr (by simp [here, Phase.busy]))
        (by simp [here, Phase.unstored]) _ _ _
    | leaving =>
      simp only [here] at taken
      obtain rfl := Option.some.inj taken
      exact alone.goto (by simp [Phase.busy]) (by simp) (.inl rfl)
        (by simp [here, Phase.unstored]) _ _ _
  | leave t =>
    change Alone posts s' (past ++ [])
    rw [List.append_nil]
    rw [Asiodemo.step] at taken
    split_ifs at taken with may
    obtain rfl := Option.some.inj taken
    exact alone.goto (by simp [Phase.busy]) (by simp) (.inl rfl)
      (by simp [may.1, Phase.unstored]) _ _ _

/-- One thread finds no handler. -/
def single : List (Act 2) :=
  [.take 1, .leave 0, .go 1 false, .go 1 true, .go 1 false, .go 1 false, .go 1 false, .go 1 false,
    .go 1 false, .leave 1]

end Strand

end LinuxSys.Asiodemo
