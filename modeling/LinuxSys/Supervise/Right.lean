import LinuxSys.Supervise.Loop

/-! # Restarts of pmon ch12

There is at most one child, each is waited for before the next, the supervisor gives up after as
many restarts as it was asked for, and the backoff doubles.
-/

namespace LinuxSys.Supervise

open Lib

variable {l : Language}

/-- The earliest time of the restart `k` after an exit that was handled at the given time. -/
def SuperviseOpts.due (opts : SuperviseOpts l) (k handled : ℕ) : ℕ :=
  handled + opts.backoffMs * 2 ^ (k - 1) * 10 ^ 6

/-- What the supervisor promises in every state: a backoff is slept out to the millisecond above,
or a wait in it that began too late ends at once. -/
structure Right (opts : SuperviseOpts l) (s : State) : Prop where
  single : s.unreaped.length ≤ 1
  once : s.reaped ++ s.unreaped = List.range' 1 s.spawned
  starting : ∀ again, s.phase = .starting again → s.unreaped = []
  returned : ∀ code, s.phase = .returned code → s.unreaped = []
  gaveUp : ∀ n, s.gaveUp = some n → n = opts.maxRestarts
  waits : ∀ r ∈ s.log, 1 ≤ r.k ∧ opts.due r.k r.handled ≤ r.started
  sleeps : ∀ entered expiry, s.phase = .polling entered expiry → s.running = false →
    ∃ t, expiry = some t ∧ (t ≤ entered ∨ t ≤ opts.due (s.since + 1) s.handled + 10 ^ 6)

/-- The supervisor may count to the restart that it is asked for, and the backoff before it fits in
the words that hold it. -/
def Fits (opts : SuperviseOpts l) (clock restarts : ℕ) : Prop :=
  if opts.limit ≤ restarts then l = .cpp → opts.maxRestarts < 2 ^ 31
  else if l = .rust then opts.backoffMs * 2 ^ restarts < 2 ^ 64
  else opts.due (restarts + 1) clock < 2 ^ 63

instance (opts : SuperviseOpts l) (clock restarts : ℕ) : Decidable (Fits opts clock restarts) :=
  inferInstanceAs (Decidable (if opts.limit ≤ restarts then l = .cpp → opts.maxRestarts < 2 ^ 31
    else if l = .rust then opts.backoffMs * 2 ^ restarts < 2 ^ 64
    else opts.due (restarts + 1) clock < 2 ^ 63))

/-- A failed exit is met with numbers that fit, a backoff is slept in the C++ program in less than
`2 ^ 31` milliseconds, and the C++ and Rust programs may kill their child. -/
def near (opts : SuperviseOpts l) (s : State) : Action → Prop
  | .chld => ∀ ce ∈ s.seen l, ce.clean = false → Fits opts s.clock s.restarts
  | .poll => l = .cpp → s.running = false → (s.deadline - s.clock) / 10 ^ 6 + 1 < 2 ^ 31
  | .signal _ kill => l ≠ .go → s.running = true → kill ≠ .eperm
  | _ => True

instance (opts : SuperviseOpts l) (s : State) : (a : Action) → Decidable (near opts s a)
  | .chld =>
    inferInstanceAs (Decidable (∀ ce ∈ s.seen l, ce.clean = false → Fits opts s.clock s.restarts))
  | .poll =>
    inferInstanceAs (Decidable
      (l = .cpp → s.running = false → (s.deadline - s.clock) / 10 ^ 6 + 1 < 2 ^ 31))
  | .signal _ kill => inferInstanceAs (Decidable (l ≠ .go → s.running = true → kill ≠ .eperm))
  | .pass _ | .exit _ _ | .spawn _ | .interrupted | .timeout | .wait _ | .reap => isTrue trivial

theorem word_mul (x y : ℤ) : word l (x * word l y) = word l (x * y) := by
  cases l with
  | cpp => exact toSigned_mul 64 x y
  | rust => exact toUnsigned_mul 64 x y
  | go => exact toSigned_mul 64 x y

theorem word_of_lt {ms : ℕ} (few : if l = .rust then ms < 2 ^ 64 else ms < 2 ^ 63) :
    word l ms = ms := by
  cases l with
  | cpp => exact toSigned_of_lt (by omega) (by exact_mod_cast few)
  | rust => exact toUnsigned_of_lt (by omega) (by exact_mod_cast few)
  | go => exact toSigned_of_lt (by omega) (by exact_mod_cast few)

namespace SuperviseOpts

variable (opts : SuperviseOpts l)

theorem word_backoffMs : word l opts.backoffMs = opts.backoffMs := by
  apply word_of_lt
  have accepted := opts.accepted
  cases l <;> exact accepted.2.2

theorem limit_le : opts.limit ≤ opts.maxRestarts := by
  cases l with
  | cpp => exact toSigned_le 32 (Int.natCast_nonneg _)
  | rust => exact le_rfl
  | go => exact le_rfl

theorem limit_eq (narrow : l = .cpp → opts.maxRestarts < 2 ^ 31) :
    opts.limit = opts.maxRestarts := by
  cases l with
  | cpp =>
    have few := narrow rfl
    exact toSigned_of_lt (by omega) (by omega)
  | rust => rfl
  | go => rfl

variable {opts}

/-- A backoff that fits is what it says. -/
theorem deadlineOf_eq {clock restarts : ℕ}
    (room : if l = .rust then opts.backoffMs * 2 ^ restarts < 2 ^ 64
      else opts.due (restarts + 1) clock < 2 ^ 63) :
    deadlineOf l clock (word l (2 ^ restarts * opts.backoffMs)) =
      opts.due (restarts + 1) clock := by
  have positive : 1 ≤ opts.backoffMs := by
    have accepted := opts.accepted
    cases l <;> exact accepted.2.1
  have least : 1 ≤ opts.backoffMs * 2 ^ restarts := Nat.mul_pos positive (Nat.two_pow_pos restarts)
  have few : if l = .rust then opts.backoffMs * 2 ^ restarts < 2 ^ 64
      else opts.backoffMs * 2 ^ restarts < 2 ^ 63 := by
    simp only [due, Nat.add_sub_cancel] at room
    split_ifs at room ⊢ <;> omega
  have value : word l (2 ^ restarts * opts.backoffMs) = (opts.backoffMs * 2 ^ restarts : ℕ) := by
    rw [← word_of_lt few]
    push_cast
    rw [mul_comm]
  rw [value]
  simp only [due, Nat.add_sub_cancel] at room ⊢
  generalize opts.backoffMs * 2 ^ restarts = ms at *
  cases l with
  | cpp =>
    have few : clock + ms * 10 ^ 6 < 2 ^ 63 := room
    rw [deadlineOf, toSigned_of_lt (by omega) (by omega)]
    push_cast
    rfl
  | rust =>
    rw [deadlineOf]
    push_cast
    rfl
  | go =>
    have few : clock + ms * 10 ^ 6 < 2 ^ 63 := room
    rw [deadlineOf, toSigned_of_lt (by omega) (by omega), if_neg (by omega)]
    omega

end SuperviseOpts

namespace State

variable {s t : State}

/-- There is no child. -/
def Idle (s : State) : Prop := s.unreaped = [] ∧ s.waitCh = none

/-- There is one child, or in Go its exit is on its way to the loop. -/
def Live (l : Language) (s : State) : Prop :=
  s.restarts = s.since ∧
    (s.unreaped = [s.spawned] ∧ s.waitCh = none ∨ l = .go ∧ s.unreaped = [] ∧ s.waitCh ≠ none)

/-- A backoff is being waited out. -/
def Rest (opts : SuperviseOpts l) (s : State) : Prop :=
  s.Idle ∧ s.restarts = s.since + 1 ∧ s.deadline = opts.due (s.since + 1) s.handled ∧
    (l = .cpp → s.deadline < 2 ^ 63)

/-- When a wait in a backoff ends by itself. -/
def Sleeps (l : Language) (s : State) (entered : ℕ) (expiry : Option ℤ) : Prop :=
  ∃ t, expiry = some t ∧ (l ≠ .rust → s.deadline ≤ t) ∧ (t ≤ entered ∨ t ≤ s.deadline + 10 ^ 6)

/-- What holds of the child and the backoff where the loop stands. -/
def Shape (opts : SuperviseOpts l) (s : State) : Phase → Prop
  | .starting false => s.Idle ∧ s.restarts = s.since
  | .starting true => s.Rest opts ∧ s.deadline ≤ s.clock
  | .head => if s.running then s.Live l else s.Rest opts
  | .polling entered expiry =>
    if s.running then s.Live l ∧ expiry = none else s.Rest opts ∧ s.Sleeps l entered expiry
  | .stopping _ => s.running = true ∧ s.Live l
  | .returned _ => s.Idle

/-- What does not depend on the place in the loop. -/
structure Kept (opts : SuperviseOpts l) (s : State) : Prop where
  clock : s.clock < 2 ^ 63
  backoff : s.backoff = word l (2 ^ s.restarts * opts.backoffMs)
  most : s.restarts ≤ opts.maxRestarts
  once : s.reaped ++ s.unreaped = List.range' 1 s.spawned
  gaveUp : ∀ n, s.gaveUp = some n → n = opts.maxRestarts
  waits : ∀ r ∈ s.log, 1 ≤ r.k ∧ opts.due r.k r.handled ≤ r.started

structure Inv (opts : SuperviseOpts l) (s : State) : Prop extends Kept opts s where
  shape : s.Shape opts s.phase

variable {opts : SuperviseOpts l}

theorem sleeps_expiryOf (clock : s.clock < 2 ^ 63) (rest : s.Rest opts)
    (near : l = .cpp → (s.deadline - s.clock) / 10 ^ 6 + 1 < 2 ^ 31) :
    s.Sleeps l s.clock (expiryOf l s.clock s.deadline) := by
  obtain ⟨-, -, due, fits⟩ := rest
  cases l with
  | cpp =>
    have most := fits rfl
    have few := near rfl
    have left : toSigned 64 (s.deadline - s.clock) = s.deadline - s.clock :=
      toSigned_of_lt (by omega) (by omega)
    rw [expiryOf, left]
    by_cases past : s.deadline - s.clock ≤ 0
    · exact ⟨s.clock, by simp [past], fun _ => by omega, .inl le_rfl⟩
    · have whole : toSigned 32 ((s.deadline - s.clock) / 10 ^ 6) =
          (s.deadline - s.clock) / 10 ^ 6 := toSigned_of_lt (by omega) (by omega)
      have more : toSigned 32 ((s.deadline - s.clock) / 10 ^ 6 + 1) =
          (s.deadline - s.clock) / 10 ^ 6 + 1 := toSigned_of_lt (by omega) (by omega)
      have positive : ¬(s.deadline - s.clock) / 10 ^ 6 + 1 < 0 := by omega
      simp only [whole, more, past, positive, if_false]
      exact ⟨_, rfl, fun _ => by omega, .inr (by omega)⟩
  | rust =>
    rw [expiryOf]
    refine ⟨_, rfl, fun other => absurd rfl other, ?_⟩
    by_cases past : max 0 (s.deadline - s.clock) = 0
    · left
      simp [past]
    · right
      simp only [past, if_false]
      omega
  | go => exact ⟨_, rfl, fun _ => le_rfl, .inr (by omega)⟩

namespace Kept

/-- The only child is waited for. -/
theorem reap (kept : s.Kept opts) (alone : s.unreaped = [s.spawned]) :
    (s.reap s.spawned).Kept opts ∧ (s.reap s.spawned).unreaped = [] := by
  have none : s.unreaped.erase s.spawned = [] := by rw [alone, List.erase_cons_head]
  refine ⟨{ kept with once := ?_ }, none⟩
  have before := kept.once
  rw [alone] at before
  change (s.reaped ++ [s.spawned]) ++ s.unreaped.erase s.spawned = _
  rw [none, List.append_nil, before]
  rfl

theorem taken (kept : s.Kept opts) (live : s.Live l) {ce : ChildExit} (seen : s.seen l = some ce) :
    (s.taken l).Kept opts ∧ (s.taken l).Idle := by
  obtain ⟨-, ⟨alone, quiet⟩ | ⟨rfl, reaped, -⟩⟩ := live
  · obtain ⟨after, none⟩ := kept.reap alone
    cases l with
    | cpp => exact ⟨after, none, quiet⟩
    | rust => exact ⟨after, none, quiet⟩
    | go => cases quiet.symm.trans seen
  · exact ⟨{ kept with }, reaped, rfl⟩

theorem start (kept : s.Kept opts) (idle : s.Idle) {again : Bool}
    (counted : s.restarts = if again then s.since + 1 else s.since)
    (due : again = true → opts.due (s.since + 1) s.handled ≤ s.clock) :
    (s.start again).Inv opts := by
  obtain ⟨none, quiet⟩ := idle
  have all : s.reaped = List.range' 1 s.spawned := by rw [← kept.once, none, List.append_nil]
  refine { kept with once := ?_, waits := fun r member => ?_, shape := ?_ }
  · change s.reaped ++ (s.unreaped ++ [s.spawned + 1]) = List.range' 1 (s.spawned + 1)
    rw [none, List.nil_append, all, List.range'_1_concat, Nat.add_comm]
  · cases again with
    | false => exact kept.waits r member
    | true =>
      rcases List.mem_append.mp member with old | new
      · exact kept.waits r old
      · rw [List.mem_singleton.mp new]
        exact ⟨Nat.le_add_left 1 s.since, due rfl⟩
  · refine ⟨counted, .inl ⟨?_, quiet⟩⟩
    change s.unreaped ++ [s.spawned + 1] = [s.spawned + 1]
    rw [none, List.nil_append]

theorem stopped (kept : s.Kept opts) (idle : s.Idle) (sig : Sig) :
    (s.stopped opts sig).Inv opts := by
  cases sig with
  | term => exact { kept with shape := idle }
  | int => exact { kept with shape := idle }
  | hup =>
    refine { kept with backoff := ?_, most := Nat.zero_le _, shape := ⟨idle, rfl⟩ }
    change (opts.backoffMs : ℤ) = word l (2 ^ 0 * opts.backoffMs)
    rw [pow_zero, one_mul, opts.word_backoffMs]

/-- A failed exit that the numbers fit is answered by a restart or by the last word. -/
theorem handle (kept : s.Kept opts) (idle : s.Idle) (counted : s.restarts = s.since)
    {ce : ChildExit} (fits : ce.clean = false → Fits opts s.clock s.restarts) :
    (s.handle opts ce).Inv opts := by
  have limited := opts.limit_le
  cases clean : ce.clean with
  | true =>
    rw [State.handle, clean]
    exact { kept with shape := idle }
  | false =>
    have room := fits clean
    simp only [State.handle, clean, Bool.false_eq_true, if_false]
    by_cases last : opts.limit ≤ s.restarts
    · rw [if_pos last]
      rw [Fits, if_pos last] at room
      refine { kept with gaveUp := fun n same => ?_, shape := idle }
      have exactly := opts.limit_eq room
      have most := kept.most
      obtain rfl : s.since = n := Option.some.inj same
      omega
    · rw [if_neg last]
      rw [Fits, if_neg last] at room
      have value := kept.backoff
      have deadline := opts.deadlineOf_eq room
      rw [← value, counted] at deadline
      refine { kept with backoff := ?_, most := ?_, shape := ⟨idle, ?_, deadline, ?_⟩ }
      · change word l (2 * s.backoff) = word l (2 ^ (s.restarts + 1) * opts.backoffMs)
        rw [value, word_mul, pow_succ', mul_assoc]
      · change s.restarts + 1 ≤ opts.maxRestarts
        omega
      · rw [counted]
      · rintro rfl
        change deadlineOf .cpp s.clock s.backoff < 2 ^ 63
        rw [deadline]
        rw [if_neg (by decide), counted] at room
        exact_mod_cast room

end Kept

theorem seen_of_idle (idle : s.Idle) : s.seen l = none := by
  obtain ⟨none, quiet⟩ := idle
  cases l with
  | cpp => simp [seen, waitpid, none]
  | rust => simp [seen, waitpid, none]
  | go => exact quiet

namespace Shape

variable {entered : ℕ} {expiry : Option ℤ}

theorem live (shape : s.Shape opts (.polling entered expiry)) (running : s.running = true) :
    s.Live l ∧ expiry = none := by
  rwa [Shape, if_pos running] at shape

theorem rest (shape : s.Shape opts (.polling entered expiry)) (running : s.running = false) :
    s.Rest opts ∧ s.Sleeps l entered expiry := by
  rwa [Shape, if_neg (Bool.eq_false_iff.mp running)] at shape

theorem head (shape : s.Shape opts (.polling entered expiry)) : s.Shape opts .head := by
  cases running : s.running with
  | true =>
    rw [Shape, if_pos running]
    exact (shape.live running).1
  | false =>
    rw [Shape, if_neg (Bool.eq_false_iff.mp running)]
    exact (shape.rest running).1

/-- A child whose exit is seen in the loop is the one that is running. -/
theorem live_of_seen (shape : s.Shape opts (.polling entered expiry)) {ce : ChildExit}
    (seen : s.seen l = some ce) : s.Live l := by
  cases running : s.running with
  | true => exact (shape.live running).1
  | false => cases (seen_of_idle (shape.rest running).1.1).symm.trans seen

theorem pass (ns : ℕ) : ∀ {p : Phase}, s.Shape opts p →
    ({ s with clock := s.clock + ns } : State).Shape opts p
  | .starting true, ⟨rest, due⟩ => ⟨rest, due.trans (by push_cast; omega)⟩
  | .starting false, shape | .head, shape | .polling _ _, shape | .stopping _, shape
  | .returned _, shape => shape

theorem idle_or_live : ∀ {p : Phase}, s.Shape opts p → s.Idle ∨ s.Live l
  | .starting true, shape => .inl shape.1.1
  | .starting false, shape => .inl shape.1
  | .head, shape => by
    rw [Shape] at shape
    split_ifs at shape
    · exact .inr shape
    · exact .inl shape.1
  | .polling _ _, shape => by
    rw [Shape] at shape
    split_ifs at shape
    · exact .inr shape.1
    · exact .inl shape.1.1
  | .stopping _, shape => .inr shape.2
  | .returned _, shape => .inl shape

/-- A child that has been waited for by the goroutine still counts until the loop hears of it. -/
theorem wait {opts : SuperviseOpts .go} {ce : ChildExit} (busy : ¬s.Idle)
    (none : (s.reap s.spawned).unreaped = []) : ∀ {p : Phase}, s.Shape opts p →
    ({ s.reap s.spawned with waitCh := some ce } : State).Shape opts p
  | .starting true, shape => absurd shape.1.1 busy
  | .starting false, shape => absurd shape.1 busy
  | .head, shape => by
    rw [Shape] at shape
    split_ifs at shape with running
    · change if s.running then _ else _
      rw [if_pos running]
      exact ⟨shape.1, .inr ⟨rfl, none, by simp⟩⟩
    · exact absurd shape.1 busy
  | .polling _ _, shape => by
    rw [Shape] at shape
    split_ifs at shape with running
    · change if s.running then _ else _
      rw [if_pos running]
      exact ⟨⟨shape.1.1, .inr ⟨rfl, none, by simp⟩⟩, shape.2⟩
    · exact absurd shape.1.1 busy
  | .stopping _, shape => ⟨shape.1, shape.2.1, .inr ⟨rfl, none, by simp⟩⟩
  | .returned _, shape => absurd shape busy

end Shape

namespace Inv

theorem start (inv : s.Inv opts) {again : Bool} (here : s.phase = .starting again) :
    (s.start again).Inv opts := by
  have shape := inv.shape
  rw [here] at shape
  cases again with
  | false => exact inv.toKept.start shape.1 shape.2 (by simp)
  | true =>
    obtain ⟨⟨idle, counted, due, -⟩, late⟩ := shape
    refine inv.toKept.start idle counted fun _ => ?_
    rw [due] at late
    exact_mod_cast late

theorem poll (inv : s.Inv opts) (here : s.phase = .head) (near : near opts s .poll) :
    ({ s with
      phase := .polling s.clock (if s.running then none else expiryOf l s.clock s.deadline)
        } : State).Inv opts := by
  have shape := inv.shape
  rw [here] at shape
  refine { inv with shape := ?_ }
  change ite _ _ _
  by_cases running : s.running = true
  · rw [Shape, if_pos running] at shape
    rw [if_pos running, if_pos running]
    exact ⟨shape, rfl⟩
  · rw [Shape, if_neg running] at shape
    rw [if_neg running, if_neg running]
    exact ⟨shape, sleeps_expiryOf inv.clock shape fun lang =>
      near lang (Bool.eq_false_iff.mpr running)⟩

theorem timeout (inv : s.Inv opts) {entered : ℕ} {expiry : ℤ}
    (here : s.phase = .polling entered (some expiry)) (expired : expiry ≤ s.clock)
    (late : ¬(l = .rust ∧ s.clock < s.deadline)) :
    ({ s with phase := .starting true } : State).Inv opts := by
  have shape := inv.shape
  rw [here] at shape
  cases running : s.running with
  | true => cases (shape.live running).2
  | false =>
    obtain ⟨rest, t, same, least, -⟩ := shape.rest running
    cases same
    refine { inv with shape := ⟨rest, ?_⟩ }
    change s.deadline ≤ s.clock
    by_cases rust : l = .rust
    · exact not_lt.mp fun early => late ⟨rust, early⟩
    · exact (least rust).trans expired

/-- The goroutine has waited for the child. -/
theorem wait {opts : SuperviseOpts .go} (inv : s.Inv opts) {n : ℕ} {ce : ChildExit}
    (found : s.waitpid n = some ce) :
    ({ s.reap n with waitCh := some ce } : State).Inv opts := by
  obtain ⟨member, -⟩ := Option.ite_none_right_eq_some.mp found
  have alone : s.unreaped = [s.spawned] := by
    rcases inv.shape.idle_or_live with ⟨none, -⟩ | ⟨-, ⟨alone, -⟩ | ⟨-, none, -⟩⟩
    · simp [none] at member
    · exact alone
    · simp [none] at member
  obtain rfl : n = s.spawned := by simpa [alone] using member
  obtain ⟨after, none⟩ := inv.toKept.reap alone
  have busy : ¬s.Idle := by
    rintro ⟨empty, -⟩
    simp [alone] at empty
  exact { after with shape := inv.shape.wait busy none }

theorem signalled (inv : s.Inv opts) {entered : ℕ} {expiry : Option ℤ}
    (here : s.phase = .polling entered expiry) {sig : Sig} {kill : Kill}
    (near : near opts s (.signal sig kill)) : (s.signalled opts sig kill).Inv opts := by
  have shape := inv.shape
  rw [here] at shape
  cases running : s.running with
  | true =>
    have kill : ∀ lang, lang ≠ .go → ¬(kill = .eperm ∧ l = lang) := by
      rintro lang other ⟨refused, rfl⟩
      exact near other running refused
    rw [State.signalled, if_pos running, if_neg (kill .cpp (by decide)),
      if_neg (kill .rust (by decide))]
    exact { inv with shape := ⟨running, (shape.live running).1⟩ }
  | false =>
    rw [State.signalled, if_neg (Bool.eq_false_iff.mp running)]
    exact inv.toKept.stopped (shape.rest running).1.1 sig

theorem keeps (inv : s.Inv opts) {a : Action} (near : Supervise.near opts s a)
    (taken : s.step opts a = some t) : t.Inv opts := by
  have shape := inv.shape
  cases a with
  | pass ns =>
    obtain ⟨few, made⟩ := Option.ite_none_right_eq_some.mp taken
    cases made
    exact { inv with clock := few, shape := shape.pass ns }
  | exit n ce =>
    obtain ⟨-, made⟩ := Option.ite_none_right_eq_some.mp taken
    cases made
    exact { inv with }
  | spawn ok =>
    simp only [step] at taken
    split at taken
    · rename_i again here
      cases taken
      rw [here] at shape
      cases ok with
      | true => exact inv.start here
      | false =>
        cases again with
        | true => exact { inv with shape := shape.1.1 }
        | false => exact { inv with shape := shape.1 }
    · cases taken
  | poll =>
    simp only [step] at taken
    split at taken
    · rename_i here
      cases taken
      exact inv.poll here near
    · cases taken
  | interrupted =>
    simp only [step] at taken
    split at taken
    · rename_i here
      obtain ⟨-, made⟩ := Option.ite_none_left_eq_some.mp taken
      cases made
      rw [here] at shape
      exact { inv with shape := shape.head }
    · cases taken
  | timeout =>
    simp only [step] at taken
    split at taken
    · rename_i here
      obtain ⟨expired, made⟩ := Option.ite_none_right_eq_some.mp taken
      split_ifs at made with late
      · cases made
        rw [here] at shape
        exact { inv with shape := shape.head }
      · cases made
        exact inv.timeout here expired late
    · cases taken
  | signal sig kill =>
    simp only [step] at taken
    split at taken
    · rename_i here
      cases taken
      exact inv.signalled here near
    · cases taken
  | chld =>
    simp only [step] at taken
    split at taken
    · rename_i ce here seen
      cases taken
      rw [here] at shape
      have live := shape.live_of_seen seen
      obtain ⟨after, idle⟩ := inv.toKept.taken live seen
      exact after.handle idle (by simpa using live.1) (by simpa using near ce seen)
    · rename_i here seen
      obtain ⟨-, made⟩ := Option.ite_none_left_eq_some.mp taken
      cases made
      rw [here] at shape
      exact { inv with shape := shape.head }
    · cases taken
  | wait n =>
    simp only [step] at taken
    split at taken
    · rename_i found _
      obtain ⟨rfl, made⟩ := Option.ite_none_right_eq_some.mp taken
      cases made
      exact inv.wait found
    · cases taken
  | reap =>
    simp only [step] at taken
    split at taken
    · rename_i sig ce here seen
      cases taken
      rw [here] at shape
      obtain ⟨after, idle⟩ := inv.toKept.taken shape.2 seen
      exact after.stopped idle sig
    · cases taken

theorem right (inv : s.Inv opts) : Right opts s where
  single := by
    rcases inv.shape.idle_or_live with ⟨none, -⟩ | ⟨-, ⟨alone, -⟩ | ⟨-, none, -⟩⟩
    · simp [none]
    · simp [alone]
    · simp [none]
  once := inv.once
  starting := fun again here => by
    have shape := inv.shape
    rw [here] at shape
    cases again with
    | true => exact shape.1.1.1
    | false => exact shape.1.1
  returned := fun code here => by
    have shape := inv.shape
    rw [here] at shape
    exact shape.1
  gaveUp := inv.gaveUp
  waits := inv.waits
  sleeps := fun entered expiry here running => by
    have shape := inv.shape
    rw [here] at shape
    obtain ⟨⟨-, -, due, -⟩, t, same, -, bound⟩ := shape.rest running
    exact ⟨t, same, due ▸ bound⟩

end Inv

end State

/-- In every run whose steps all meet the condition, the supervisor keeps its promises. -/
theorem supervise_right (opts : SuperviseOpts l) {acts : List Action} {s : State}
    (met : (supervise opts).Meets (near opts) (supervise opts).init acts)
    (run : (supervise opts).run? acts = some s) : Right opts s := by
  have start : (supervise opts).init.Inv opts :=
    { clock := Nat.two_pow_pos 63
      backoff := by
        change (opts.backoffMs : ℤ) = word l (2 ^ 0 * opts.backoffMs)
        rw [pow_zero, one_mul, opts.word_backoffMs]
      most := Nat.zero_le _
      once := rfl
      gaveUp := fun n given => by cases given
      waits := fun r member => by cases member
      shape := ⟨⟨rfl, rfl⟩, rfl⟩ }
  exact (@Machine.run?_keeps_of_meets _ _ (supervise opts) (State.Inv opts) (near opts) start
    (fun _ _ _ inv near taken => State.Inv.keeps inv near taken) _ _ met run).right

def byDefault : SuperviseOpts .cpp where
  accepted := ⟨by decide, by decide, by decide⟩

/-- A child that fails is started again after its backoff, and a reload then stops it. -/
def reload : List Action :=
  [.spawn true, .poll, .exit 1 { status := 1 }, .chld, .poll, .pass 101000000, .timeout,
    .spawn true, .poll, .signal .hup .ok, .exit 2 { signo := 15, signaled := true }, .reap,
    .spawn true]

theorem supervise_right_reload :
    ∃ s, (supervise byDefault).run? reload = some s ∧ Right byDefault s :=
  ⟨_, rfl, @supervise_right _ byDefault reload _ (by decide) rfl⟩

def wide : SuperviseOpts .cpp where
  maxRestarts := 2 ^ 31
  accepted := ⟨by decide, by decide, by decide⟩

/-- Asked for `2 ^ 31` restarts, the C++ program gives up before the first. -/
theorem not_right_wide : ∃ s, (supervise wide).run? [.spawn true, .poll,
    .exit 1 { status := 1 }, .chld] = some s ∧ ¬Right wide s := by
  refine ⟨_, rfl, fun right => ?_⟩
  have never := right.gaveUp 0 rfl
  cases never

end LinuxSys.Supervise
