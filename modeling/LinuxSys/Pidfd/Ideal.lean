import LinuxSys.Pidfd.Engines

/-! # The ideal supervisor of pmon ch13

A supervisor whose wait is one look at what has come, and what the engines keep in a wait: the
SIGCHLD of a child that has exited is pending until it is read, and a `poll` that ends by itself
ends with the window.
-/

namespace LinuxSys.Pidfd

open Lib

variable {l : Language}

/-- How a wait ends. -/
inductive Verdict where
  | exit
  | signal
  | timeout
deriving DecidableEq, Repr

namespace Sup

/-- A look at what has come: a `poll` prefers a stop signal to an exit and an exit to the end of the
window, a `select` takes any. -/
def Finds (opts : Opts l) (s : Sup) : Verdict → Prop
  | .exit => s.child.isDead = true ∧ (l ≠ .go → s.stop = false)
  | .signal => s.stop = true
  | .timeout =>
    opts.Expired s.clock ∧ (l ≠ .go → s.stop = false ∧ s.child.isDead = false)

instance (opts : Opts l) (now : ℕ) : Decidable (opts.Expired now) :=
  inferInstanceAs (Decidable (opts.expiry now ≤ now))

instance (opts : Opts l) (s : Sup) : (v : Verdict) → Decidable (s.Finds opts v)
  | .exit => inferInstanceAs (Decidable (s.child.isDead = true ∧ (l ≠ .go → s.stop = false)))
  | .signal => inferInstanceAs (Decidable (s.stop = true))
  | .timeout => inferInstanceAs (Decidable
      (opts.Expired s.clock ∧ (l ≠ .go → s.stop = false ∧ s.child.isDead = false)))

def decide (s : Sup) : Verdict → Sup
  | .exit => { s with phase := .exited }
  | .signal => { s with phase := .leaving .signal }
  | .timeout => { s with phase := .leaving .timeout }

theorem report_phase (opts : Opts l) (s : Sup) (st : ChildStatus) :
    (s.report opts st).phase ≠ .waiting := by
  unfold report
  split_ifs <;> simp

theorem report_clock (opts : Opts l) (s : Sup) (st : ChildStatus) :
    (s.report opts st).clock = s.clock := by
  unfold report
  split_ifs <;> rfl

end Sup

inductive Act where
  | common (c : Common)
  | decide (v : Verdict)

/-- The supervisor whose wait is one look. -/
def ideal (opts : Opts l) : Machine Sup Act where
  init := {}
  step s a :=
    match a with
    | .common c => s.step opts c
    | .decide v => if s.phase = .waiting ∧ s.Finds opts v then some (s.decide v) else none

namespace Opts

variable (opts : Opts l) {now later : ℕ}

theorem expiry_le : opts.expiry now ≤ max now opts.deadline := by
  unfold expiry
  split <;> omega

theorem expired_of_deadline_le (late : opts.deadline ≤ now) : opts.Expired now := by
  unfold Expired expiry
  split <;> omega

/-- A `poll` that has ended by itself leaves nothing of the window. -/
theorem expired_of_expiry_le (ended : opts.expiry now ≤ later) : opts.Expired later := by
  unfold Expired expiry at *
  split at * <;> omega

end Opts

namespace State

variable {e : Engine} {opts : Opts l} {s t : State}

/-- Which engine stands where. -/
def Place (e : Engine) (l : Language) : Wait → Prop
  | .head => True
  | .polling _ => l ≠ .go
  | .woken => e = .sigchld ∧ l ≠ .go
  | .checking => e = .sigchld

structure Inv (e : Engine) (opts : Opts l) (s : State) : Prop where
  place : Place e l s.wait
  polls : ∀ expiry, s.wait = .polling expiry →
    expiry ≤ max s.sup.clock opts.deadline ∧ ∀ now, expiry ≤ now → opts.Expired now
  heard : e = .sigchld → s.sup.phase = .waiting → s.sup.child.isDead = true →
    s.wait ≠ .checking → 0 < s.chld
  closed : s.closed = true → s.sup.phase = .waiting → s.sup.child.isDead = true

theorem notify_pos (l : Language) (n : ℕ) : 0 < notify l n := by
  unfold notify
  split_ifs <;> omega

namespace Inv

/-- Outside the wait nothing is promised but where the engine stands. -/
theorem of_phase_ne (inv : s.Inv e opts) {sup : Sup} (out : sup.phase ≠ .waiting)
    (clock : sup.clock = s.sup.clock) : ({ s with sup := sup } : State).Inv e opts where
  place := inv.place
  polls := clock ▸ inv.polls
  heard := fun _ here => absurd here out
  closed := fun _ here => absurd here out

theorem common (inv : s.Inv e opts) {c : Common} {sup : Sup}
    (stepped : s.sup.step opts c = some sup) (taken : s.after e l c sup = some t) :
    t.Inv e opts := by
  cases c with
  | pass ns =>
    cases stepped
    cases taken
    refine { inv with polls := fun expiry here => ?_ }
    obtain ⟨least, ended⟩ := inv.polls expiry here
    exact ⟨least.trans (max_le_max_right _ (Nat.le_add_right _ ns)), ended⟩
  | die st =>
    obtain ⟨-, made⟩ := Option.ite_none_right_eq_some.mp stepped
    cases made
    cases taken
    exact { inv with heard := fun _ _ _ _ => notify_pos l s.chld, closed := fun _ _ => rfl }
  | signal =>
    cases stepped
    cases taken
    exact { inv with }
  | spawn ok =>
    obtain ⟨-, made⟩ := Option.ite_none_right_eq_some.mp stepped
    cases taken
    refine { place := trivial, polls := fun _ here => (by cases here), heard := ?_,
             closed := fun shut => (by cases shut) }
    intro _ here dead
    cases ok with
    | true =>
      cases made
      cases dead
    | false =>
      cases made
      cases here
  | term =>
    simp only [Sup.step] at stepped
    split at stepped
    · cases stepped
      cases taken
      exact inv.of_phase_ne (by simp) rfl
    · cases stepped
  | reap =>
    obtain ⟨-, made⟩ := Option.ite_none_left_eq_some.mp taken
    cases made
    simp only [Sup.step] at stepped
    split at stepped
    · cases stepped
      exact inv.of_phase_ne (by simp) rfl
    · cases stepped
  | report =>
    cases taken
    simp only [Sup.step] at stepped
    split at stepped
    · cases stepped
      exact inv.of_phase_ne (Sup.report_phase opts _ _) (Sup.report_clock opts _ _)
    · cases stepped

theorem setPhase (inv : s.Inv e opts) {phase : Phase} (out : phase ≠ .waiting) :
    (s.setPhase phase).Inv e opts := inv.of_phase_ne out rfl

/-- A wait that does not stand before the question is moved. -/
theorem setWait (inv : s.Inv e opts) {wait : Wait} (place : Place e l wait)
    (polls : ∀ expiry, wait = .polling expiry → expiry = opts.expiry s.sup.clock)
    (before : s.wait ≠ .checking ∨ s.sup.child.isDead = false) :
    (s.setWait wait).Inv e opts where
  place := place
  polls := fun expiry here => by
    obtain rfl := polls expiry here
    exact ⟨opts.expiry_le, fun _ => opts.expired_of_expiry_le⟩
  heard := fun engine here dead _ => by
    rcases before with before | alive
    · exact inv.heard engine here dead before
    · cases alive.symm.trans dead
  closed := inv.closed

/-- A SIGCHLD is read. -/
theorem heardOne (inv : s.Inv .sigchld opts) :
    ({ s with wait := .checking, chld := s.chld - 1 } : State).Inv .sigchld opts where
  place := rfl
  polls := fun _ here => by cases here
  heard := fun _ _ _ other => absurd rfl other
  closed := inv.closed

theorem move (inv : s.Inv e opts) {m : Move} (taken : s.move e opts m = some t) :
    t.Inv e opts := by
  cases m with
  | poll =>
    obtain ⟨⟨lang, here⟩, made⟩ := Option.ite_none_right_eq_some.mp taken
    cases made
    exact inv.setWait lang (fun _ same => (Wait.polling.inj same).symm) (.inl (by simp [here]))
  | look =>
    simp only [State.move] at taken
    split at taken
    · split_ifs at taken <;> cases taken <;> exact inv.setPhase (by simp)
    · cases taken
  | wake =>
    simp only [State.move] at taken
    split at taken
    · rename_i here
      split_ifs at taken
      · cases taken
        have lang : l ≠ .go := by
          have place := inv.place
          rwa [here] at place
        exact inv.setWait ⟨rfl, lang⟩ (fun _ same => by cases same) (.inl (by simp [here]))
      · cases taken
        exact inv.setPhase (by simp)
    · cases taken
  | read =>
    obtain ⟨here, made⟩ := Option.ite_none_right_eq_some.mp taken
    obtain ⟨rfl, -⟩ : e = .sigchld ∧ l ≠ .go := by
      have place := inv.place
      rwa [here] at place
    split_ifs at made
    · cases made
      exact inv.setPhase (by simp)
    · cases made
      exact inv.heardOne
  | check =>
    obtain ⟨-, made⟩ := Option.ite_none_right_eq_some.mp taken
    split_ifs at made with dead
    · cases made
      exact inv.setPhase (by simp)
    · cases made
      exact inv.setWait trivial (fun _ same => by cases same) (.inr (by simpa using dead))
  | close =>
    obtain ⟨⟨-, -, dead⟩, made⟩ := Option.ite_none_right_eq_some.mp taken
    cases made
    exact { inv with closed := fun _ _ => dead }
  | pick case =>
    obtain ⟨-, made⟩ := Option.ite_none_right_eq_some.mp taken
    split at made
    · obtain ⟨-, made⟩ := Option.ite_none_right_eq_some.mp made
      cases made
      exact inv.setPhase (by simp)
    · obtain ⟨-, made⟩ := Option.ite_none_right_eq_some.mp made
      cases made
      exact inv.heardOne
    · obtain ⟨-, made⟩ := Option.ite_none_right_eq_some.mp made
      cases made
      exact inv.setPhase (by simp)
    · obtain ⟨-, made⟩ := Option.ite_none_right_eq_some.mp made
      cases made
      exact inv.setPhase (by simp)
    · cases made

theorem keeps (inv : s.Inv e opts) {a : Action} (taken : s.step e opts a = some t) :
    t.Inv e opts := by
  cases a with
  | common c =>
    obtain ⟨sup, stepped, taken⟩ := Option.bind_eq_some_iff.mp taken
    exact inv.common stepped taken
  | interrupted =>
    simp only [step] at taken
    split at taken
    · rename_i here
      cases taken
      exact inv.setWait trivial (fun _ same => by cases same) (.inl (by simp [here]))
    · cases taken
  | stale =>
    cases taken
    exact { inv with heard := fun _ _ _ _ => notify_pos l s.chld }
  | coalesce =>
    obtain ⟨two, made⟩ := Option.ite_none_right_eq_some.mp taken
    cases made
    exact { inv with heard := fun _ _ _ _ => Nat.sub_pos_of_lt two }
  | move m =>
    obtain ⟨-, made⟩ := Option.ite_none_right_eq_some.mp taken
    exact inv.move made

theorem init : State.Inv e opts (supervise e opts).init where
  place := trivial
  polls := fun _ here => by cases here
  heard := fun _ here => by cases here
  closed := fun shut => by cases shut

theorem of_run {acts : List Action} (run : (supervise e opts).run? acts = some s) :
    s.Inv e opts :=
  @Machine.run?_keeps _ _ (supervise e opts) (State.Inv e opts) init
    (fun _ _ _ inv taken => Inv.keeps inv taken) _ _ run

end Inv

end State

end LinuxSys.Pidfd
