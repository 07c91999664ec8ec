import LinuxSys.Pidfd.Progress

/-! # The engines of pmon ch13 agree

Both engines do what the ideal supervisor does, and can do whatever it does. So what can be seen of
one can be seen of the other.
-/

namespace LinuxSys.Pidfd

open Lib

variable {l : Language}

/-- No stop signal comes between the read of a stale SIGCHLD and the question whether the child has
exited. In Go it may. -/
def near (l : Language) (s : State) : Action → Prop
  | .common .signal =>
    l ≠ .go → s.sup.phase = .waiting → s.wait = .checking → s.sup.child.isDead = true
  | _ => True

/-- What can be seen of one engine can be seen of the other, whatever SIGCHLDs are merged or stale,
and in every state that is reached a wait that has something to find can end. -/
structure Agree (opts : Opts l) : Prop where
  same : ∀ trace,
    (∃ acts s, (supervise .pidfd opts).run? acts = some s ∧ s.sup.trace = trace) ↔
    ∃ acts s, (supervise .sigchld opts).run? acts = some s ∧
      (supervise .sigchld opts).Meets (near l) (supervise .sigchld opts).init acts ∧
      s.sup.trace = trace
  ends : ∀ e acts s, (supervise e opts).run? acts = some s → s.sup.phase = .waiting →
    s.sup.stop = true ∨ s.sup.child.isDead = true ∨ opts.deadline ≤ s.sup.clock →
    ∃ (moves : List Move) (t : State), (supervise e opts).runFrom? s (moves.map .move) = some t ∧
      t.sup.phase ≠ .waiting

namespace State

variable {e : Engine} {opts : Opts l} {s t : State}

/-- The wait stands before the question whether the child has exited, and it has. -/
def Found (l : Language) (s : State) : Prop :=
  l ≠ .go ∧ s.sup.phase = .waiting ∧ s.wait = .checking ∧ s.sup.child.isDead = true

instance (l : Language) (s : State) : Decidable (Found l s) :=
  inferInstanceAs (Decidable (_ ∧ _ ∧ _ ∧ _))

/-- The supervisor that an engine stands for: once a `poll` engine has read the SIGCHLD of an exit
the exit is decided, whatever comes before it asks. -/
def seen (l : Language) (s : State) : Sup :=
  if s.Found l then { s.sup with phase := .exited } else s.sup

/-- A SIGCHLD has been read only where no stop signal had come. -/
def Quiet (l : Language) (s : State) : Prop :=
  l ≠ .go → s.sup.phase = .waiting → s.wait = .checking → s.sup.child.isDead = false →
    s.sup.stop = false

theorem seen_trace : (s.seen l).trace = s.sup.trace := by
  unfold seen
  split_ifs <;> rfl

theorem seen_of_wait (other : s.wait ≠ .checking) : s.seen l = s.sup :=
  if_neg fun found => other found.2.2.1

theorem seen_of_phase (out : s.sup.phase ≠ .waiting) : s.seen l = s.sup :=
  if_neg fun found => out found.2.1

theorem seen_of_found (found : s.Found l) : s.seen l = { s.sup with phase := .exited } :=
  if_pos found

theorem quiet_of_wait (other : s.wait ≠ .checking) : s.Quiet l :=
  fun _ _ here => absurd here other

theorem quiet_of_phase (out : s.sup.phase ≠ .waiting) : s.Quiet l :=
  fun _ waiting => absurd waiting out

/-- The ideal supervisor stands where the engine is seen to stand. -/
def Matches (e : Engine) (opts : Opts l) (s : State) (t : Sup) : Prop :=
  s.Inv e opts ∧ s.Quiet l ∧ t = s.seen l

/-- The ideal supervisor has an answer to a step of the engine. -/
def Answered (opts : Opts l) (s t : State) : Prop :=
  t.Quiet l ∧ ∃ acts, (ideal opts).runFrom? (s.seen l) acts = some (t.seen l)

namespace Answered

/-- Nothing is seen. -/
theorem still (quiet : t.Quiet l) (same : t.seen l = s.seen l) : Answered opts s t :=
  ⟨quiet, [], congrArg some same.symm⟩

/-- The wait ends. -/
theorem decide (waiting : s.sup.phase = .waiting) (seen : s.seen l = s.sup) {v : Verdict}
    (finds : s.sup.Finds opts v) (made : t.sup = s.sup.decide v) : Answered opts s t := by
  have out : t.sup.phase ≠ .waiting := by
    rw [made]
    cases v <;> simp [Sup.decide]
  refine ⟨quiet_of_phase out, [.decide v], ?_⟩
  rw [seen, seen_of_phase out, made]
  have step : (ideal opts).step s.sup (.decide v) = some (s.sup.decide v) :=
    if_pos ⟨waiting, finds⟩
  exact Machine.runFrom?_cons step []

/-- A step outside the wait is the same step. -/
theorem common {c : Common} {sup : Sup} (quiet : t.Quiet l) (stepped : s.sup.step opts c = some sup)
    (before : s.seen l = s.sup) (after : t.seen l = sup) : Answered opts s t := by
  refine ⟨quiet, [.common c], ?_⟩
  rw [before, after]
  have step : (ideal opts).step s.sup (.common c) = some sup := stepped
  exact Machine.runFrom?_cons step []

theorem outside {c : Common} {sup : Sup} (stepped : s.sup.step opts c = some sup)
    (before : s.sup.phase ≠ .waiting) (after : sup.phase ≠ .waiting) :
    Answered opts s { s with sup := sup } :=
  common (quiet_of_phase after) stepped (seen_of_phase before) (seen_of_phase after)

/-- Time and stop signals pass an exit that has been found. -/
theorem beside {c : Common} {sup : Sup} (quiet : ({ s with sup := sup } : State).Quiet l)
    (stepped : s.sup.step opts c = some sup)
    (also : Sup.step opts { s.sup with phase := .exited } c = some { sup with phase := .exited })
    (phase : sup.phase = s.sup.phase) (child : sup.child = s.sup.child) :
    Answered opts s { s with sup := sup } := by
  have same : ({ s with sup := sup } : State).Found l ↔ s.Found l := by
    unfold Found
    rw [phase, child]
  by_cases found : s.Found l
  · refine ⟨quiet, [.common c], ?_⟩
    rw [seen_of_found found, seen_of_found (same.mpr found)]
    have step : (ideal opts).step { s.sup with phase := .exited } (.common c) =
      some { sup with phase := .exited } := also
    exact Machine.runFrom?_cons step []
  · exact common quiet stepped (if_neg found) (if_neg (same.not.mpr found))

end Answered

theorem seen_of_go : s.seen .go = s.sup := if_neg fun found => found.1 rfl

theorem seen_of_alive (alive : s.sup.child.isDead = false) : s.seen l = s.sup :=
  if_neg fun found => by cases alive.symm.trans found.2.2.2

namespace Inv

/-- Each step of a wait is no step, or the look that ends it. -/
theorem move_answered (inv : s.Inv e opts) (waiting : s.sup.phase = .waiting) {m : Move}
    (taken : s.move e opts m = some t) : Answered opts s t := by
  cases m with
  | poll =>
    obtain ⟨⟨-, here⟩, made⟩ := Option.ite_none_right_eq_some.mp taken
    cases made
    have other : s.wait ≠ .checking := by simp [here]
    exact .still (quiet_of_wait (by simp))
      ((seen_of_wait (by simp)).trans (seen_of_wait other).symm)
  | look =>
    simp only [State.move] at taken
    split at taken
    · rename_i expiry here
      have same : s.seen l = s.sup := seen_of_wait (by simp [here])
      split_ifs at taken with stop dead past
      · cases taken
        exact .decide waiting same (v := .signal) stop rfl
      · cases taken
        exact .decide waiting same (v := .exit) ⟨dead, fun _ => by simpa using stop⟩ rfl
      · cases taken
        exact .decide waiting same (v := .timeout) ⟨(inv.polls expiry here).2 _ past,
          fun _ => ⟨by simpa using stop, by simpa using dead⟩⟩ rfl
    · cases taken
  | wake =>
    simp only [State.move] at taken
    split at taken
    · rename_i expiry here
      have same : s.seen l = s.sup := seen_of_wait (by simp [here])
      split_ifs at taken with ready past
      · cases taken
        exact .still (quiet_of_wait (by simp))
          ((seen_of_wait (by simp)).trans same.symm)
      · cases taken
        obtain ⟨stop, none⟩ := not_or.mp ready
        have alive : s.sup.child.isDead = false := by
          by_contra dead
          exact none (inv.heard rfl waiting (by simpa using dead) (by simp [here]))
        exact .decide waiting same (v := .timeout) ⟨(inv.polls expiry here).2 _ past,
          fun _ => ⟨by simpa using stop, alive⟩⟩ rfl
    · cases taken
  | read =>
    obtain ⟨here, made⟩ := Option.ite_none_right_eq_some.mp taken
    have same : s.seen l = s.sup := seen_of_wait (by simp [here])
    have place := inv.place
    rw [here] at place
    split_ifs at made with stop
    · cases made
      exact .decide waiting same (v := .signal) stop rfl
    · cases made
      have calm : s.sup.stop = false := by simpa using stop
      let read : State := { s with wait := .checking, chld := s.chld - 1 }
      cases dead : s.sup.child.isDead with
      | true =>
        refine ⟨fun _ _ _ _ => calm, [.decide .exit], ?_⟩
        have found : read.Found l := ⟨place.2, waiting, rfl, dead⟩
        rw [same, seen_of_found found]
        have step : (ideal opts).step s.sup (.decide .exit) = some (s.sup.decide .exit) :=
          if_pos ⟨waiting, dead, fun _ => calm⟩
        exact Machine.runFrom?_cons step []
      | false =>
        have after : read.seen l = read.sup := seen_of_alive dead
        exact .still (fun _ _ _ _ => calm) (after.trans same.symm)
  | check =>
    obtain ⟨here, made⟩ := Option.ite_none_right_eq_some.mp taken
    split_ifs at made with dead
    · cases made
      by_cases lang : l = .go
      · subst lang
        exact .decide waiting seen_of_go (v := .exit) ⟨dead, fun other => absurd rfl other⟩ rfl
      · exact .still (quiet_of_phase (by simp))
          ((seen_of_phase (by simp)).trans
            (seen_of_found ⟨lang, waiting, here, dead⟩).symm)
    · cases made
      exact .still (quiet_of_wait (by simp))
        ((seen_of_wait (by simp)).trans (seen_of_alive (by simpa using dead)).symm)
  | close =>
    obtain ⟨⟨rfl, -⟩, made⟩ := Option.ite_none_right_eq_some.mp taken
    cases made
    exact .still (fun other => absurd rfl other) rfl
  | pick case =>
    obtain ⟨⟨rfl, -⟩, made⟩ := Option.ite_none_right_eq_some.mp taken
    split at made
    · obtain ⟨shut, made⟩ := Option.ite_none_right_eq_some.mp made
      cases made
      exact .decide waiting seen_of_go (v := .exit)
        ⟨inv.closed shut waiting, fun other => absurd rfl other⟩ rfl
    · obtain ⟨-, made⟩ := Option.ite_none_right_eq_some.mp made
      cases made
      exact .still (fun other => absurd rfl other) (seen_of_go.trans seen_of_go.symm)
    · obtain ⟨stop, made⟩ := Option.ite_none_right_eq_some.mp made
      cases made
      exact .decide waiting seen_of_go (v := .signal) stop rfl
    · obtain ⟨late, made⟩ := Option.ite_none_right_eq_some.mp made
      cases made
      exact .decide waiting seen_of_go (v := .timeout)
        ⟨opts.expired_of_deadline_le late, fun other => absurd rfl other⟩ rfl
    · cases made

theorem common_answered (quiet : s.Quiet l) {c : Common} (near : near l s (.common c))
    {sup : Sup} (stepped : s.sup.step opts c = some sup) (taken : s.after e l c sup = some t) :
    Answered opts s t := by
  cases c with
  | pass ns =>
    cases stepped
    cases taken
    exact .beside (c := .pass ns) quiet rfl rfl rfl rfl
  | signal =>
    cases stepped
    cases taken
    refine .beside (c := .signal) (fun lang waiting here alive => ?_) rfl rfl rfl rfl
    cases alive.symm.trans (near lang waiting here)
  | die st =>
    obtain ⟨alive, made⟩ := Option.ite_none_right_eq_some.mp stepped
    cases taken
    have living : s.sup.child.isDead = false := by simp [alive, Child.isDead]
    cases made
    let dead : State := { s with
      sup := { s.sup with child := .dead st, trace := s.sup.trace ++ [.died st] }
      chld := notify l s.chld }
    have calm : dead.Quiet l := fun _ _ _ other => by cases other
    by_cases found : dead.Found l
    · -- the exit comes after the read and before the question
      refine ⟨calm, [.common (.die st), .decide .exit], ?_⟩
      obtain ⟨lang, waiting, here, -⟩ := found
      have stop := quiet lang waiting here living
      have died : (ideal opts).step s.sup (.common (.die st)) = some dead.sup := stepped
      have decided : (ideal opts).step dead.sup (.decide .exit) = some (dead.sup.decide .exit) :=
        if_pos ⟨waiting, rfl, fun _ => stop⟩
      rw [seen_of_alive living, seen_of_found ⟨lang, waiting, here, rfl⟩]
      exact (Machine.runFrom?_cons died _).trans (Machine.runFrom?_cons decided [])
    · exact .common calm stepped (seen_of_alive living) (if_neg found)
  | spawn ok =>
    obtain ⟨starting, made⟩ := Option.ite_none_right_eq_some.mp stepped
    cases taken
    exact .common (quiet_of_wait (by simp)) stepped (seen_of_phase (by simp [starting]))
      (seen_of_wait (by simp))
  | term =>
    cases taken
    apply Answered.outside stepped
    all_goals
      simp only [Sup.step] at stepped
      split at stepped
      · rename_i here
        cases stepped
        simp [here]
      · cases stepped
  | reap =>
    obtain ⟨-, made⟩ := Option.ite_none_left_eq_some.mp taken
    cases made
    apply Answered.outside stepped
    all_goals
      simp only [Sup.step] at stepped
      split at stepped
      · rename_i here _
        cases stepped
        simp [here]
      · cases stepped
  | report =>
    cases taken
    apply Answered.outside stepped
    all_goals
      simp only [Sup.step] at stepped
      split at stepped
      · rename_i here _
        cases stepped
        simp [here, Sup.report_phase]
      · cases stepped

theorem answered (inv : s.Inv e opts) (quiet : s.Quiet l) {a : Action} (near : near l s a)
    (taken : s.step e opts a = some t) : Answered opts s t := by
  cases a with
  | common c =>
    obtain ⟨sup, stepped, taken⟩ := Option.bind_eq_some_iff.mp taken
    exact common_answered quiet near stepped taken
  | interrupted =>
    simp only [step] at taken
    split at taken
    · rename_i here
      cases taken
      have same : s.seen l = s.sup := seen_of_wait (by simp [here])
      exact .still (quiet_of_wait (by simp)) ((seen_of_wait (by simp)).trans same.symm)
    · cases taken
  | stale =>
    cases taken
    exact .still quiet rfl
  | coalesce =>
    obtain ⟨-, made⟩ := Option.ite_none_right_eq_some.mp taken
    cases made
    exact .still quiet rfl
  | move m =>
    obtain ⟨waiting | rfl, made⟩ := Option.ite_none_right_eq_some.mp taken
    · exact inv.move_answered waiting made
    · obtain ⟨-, made⟩ := Option.ite_none_right_eq_some.mp made
      cases made
      exact .still quiet rfl

end Inv

/-- What can be seen of an engine can be seen of the ideal supervisor. -/
theorem ideal_of_run {acts : List Action}
    (met : (supervise e opts).Meets (near l) (supervise e opts).init acts)
    (run : (supervise e opts).run? acts = some s) :
    ∃ others, (ideal opts).run? others = some (s.seen l) := by
  have start : State.Inv e opts (supervise e opts).init ∧ State.Quiet l (supervise e opts).init ∧
      (ideal opts).init = (supervise e opts).init.seen l :=
    ⟨Inv.init, quiet_of_wait (by simp [supervise]),
      (seen_of_phase (s := (supervise e opts).init) (by simp [supervise])).symm⟩
  obtain ⟨others, after, -, answer, -, -, same⟩ := @Machine.runFrom?_simulated _ _
    (supervise e opts) _ _ (ideal opts) (State.Matches e opts) (near l) (fun _ _ => True)
    (fun s t a next ⟨inv, quiet, same⟩ near taken => by
      obtain ⟨calm, others, run⟩ := inv.answered quiet near taken
      subst same
      exact ⟨others, _, Machine.meets_of_forall (fun _ _ _ => trivial) _, run,
        inv.keeps taken, calm, rfl⟩)
    _ _ _ _ start met run
  exact ⟨others, answer.trans (congrArg some same)⟩

/-- The engine stands before its wait, and no SIGCHLD is pending but that of an exit. -/
structure Calm (e : Engine) (s : State) : Prop where
  head : s.sup.phase = .waiting → s.wait = .head
  none : e = .sigchld → s.sup.phase = .starting ∨ s.sup.phase = .exited →
    s.sup.child ≠ .alive ∧ s.chld = 0
  one : e = .sigchld → s.sup.phase = .waiting → s.chld = if s.sup.child.isDead then 1 else 0

namespace Calm

/-- Once the supervisor leaves, nothing matters. -/
theorem of_over (past : s.sup.phase ≠ .waiting ∧ s.sup.phase ≠ .starting ∧ s.sup.phase ≠ .exited) :
    s.Calm e where
  head := fun here => absurd here past.1
  none := fun _ here => absurd here (not_or.mpr past.2)
  one := fun _ here => absurd here past.1

theorem setPhase (why : Stop) : (s.setPhase (.leaving why)).Calm e := of_over (by simp)

theorem exited (dead : s.sup.child.isDead = true) (none : e = .sigchld → s.chld = 0) :
    (s.setPhase .exited).Calm e where
  head := fun here => by cases here
  none := fun engine _ => by
    refine ⟨fun alive => ?_, none engine⟩
    change s.sup.child = .alive at alive
    rw [alive] at dead
    cases dead
  one := fun _ here => by cases here

/-- The engine in Go comes to each verdict that the look allows. -/
theorem picks {opts : Opts .go} (calm : s.Calm e) (waiting : s.sup.phase = .waiting) {v : Verdict}
    (finds : s.sup.Finds opts v) :
    ∃ t, s.Moves e opts t ∧ t.Calm e ∧ t.sup = s.sup.decide v := by
  have here := calm.head waiting
  cases v with
  | signal =>
    refine ⟨_, .one (.pick .stop) (.inl waiting) ?_, setPhase .signal, rfl⟩
    cases e <;> exact (if_pos ⟨rfl, here⟩).trans (if_pos finds)
  | timeout =>
    have late : opts.deadline ≤ s.sup.clock := (le_max_right _ _).trans finds.1
    refine ⟨_, .one (.pick .deadline) (.inl waiting) ?_, setPhase .timeout, rfl⟩
    cases e <;> exact (if_pos ⟨rfl, here⟩).trans (if_pos late)
  | exit =>
    have dead := finds.1
    cases e with
    | pidfd =>
      have close : s.move .pidfd opts .close = some { s with closed := true } :=
        if_pos ⟨rfl, rfl, dead⟩
      refine ⟨({ s with closed := true } : State).setPhase .exited, ?_,
        exited dead (fun engine => by cases engine), rfl⟩
      exact .cons .close (.inl waiting) close
        (.one (.pick .exited) (.inl waiting) ((if_pos ⟨rfl, here⟩).trans (if_pos rfl)))
    | sigchld =>
      have pending : s.chld = 1 := by simpa [dead] using calm.one rfl waiting
      have read : s.move .sigchld opts (.pick .chld) =
          some { s with wait := .checking, chld := 0 } := by
        simp [move, here, pending]
      refine ⟨({ s with wait := .checking, chld := 0 } : State).setPhase .exited, ?_,
        exited dead (fun _ => rfl), rfl⟩
      exact .cons (.pick .chld) (.inl waiting) read (.check waiting rfl dead)

/-- A `poll` beside the pidfd comes to the verdict that the look allows. -/
theorem looks (calm : s.Calm .pidfd) (lang : l ≠ .go) (waiting : s.sup.phase = .waiting)
    {v : Verdict} (finds : s.sup.Finds opts v) :
    ∃ t, s.Moves .pidfd opts t ∧ t.Calm .pidfd ∧ t.sup = s.sup.decide v := by
  have poll : s.move .pidfd opts .poll = some (s.setWait (.polling (opts.expiry s.sup.clock))) :=
    if_pos ⟨lang, calm.head waiting⟩
  cases v with
  | signal =>
    refine ⟨_, .cons .poll (.inl waiting) poll (.one .look (.inl waiting) (if_pos finds)),
      setPhase .signal, rfl⟩
  | exit =>
    obtain ⟨dead, first⟩ := finds
    have stop : ¬s.sup.stop = true := by simp [first lang]
    exact ⟨_, .cons .poll (.inl waiting) poll
      (.one .look (.inl waiting) ((if_neg stop).trans (if_pos dead))),
      exited dead (fun engine => by cases engine), rfl⟩
  | timeout =>
    obtain ⟨past, first⟩ := finds
    have stop : ¬s.sup.stop = true := by simp [(first lang).1]
    have alive : ¬s.sup.child.isDead = true := by simp [(first lang).2]
    exact ⟨_, .cons .poll (.inl waiting) poll (.one .look (.inl waiting)
      ((if_neg stop).trans ((if_neg alive).trans (if_pos past)))), setPhase .timeout, rfl⟩

/-- So does a `poll` on the signals alone, where no SIGCHLD is stale. -/
theorem wakes (calm : s.Calm .sigchld) (lang : l ≠ .go) (waiting : s.sup.phase = .waiting)
    {v : Verdict} (finds : s.sup.Finds opts v) :
    ∃ t, s.Moves .sigchld opts t ∧ t.Calm .sigchld ∧ t.sup = s.sup.decide v := by
  have pending := calm.one rfl waiting
  have poll : s.move .sigchld opts .poll =
      some (s.setWait (.polling (opts.expiry s.sup.clock))) := if_pos ⟨lang, calm.head waiting⟩
  cases v with
  | signal =>
    refine ⟨(s.setWait .woken).setPhase (.leaving .signal), ?_, setPhase .signal, rfl⟩
    exact .cons .poll (.inl waiting) poll
      (.cons .wake (.inl waiting) (if_pos (.inl finds)) (.read waiting rfl finds))
  | exit =>
    obtain ⟨dead, first⟩ := finds
    have stop : ¬s.sup.stop = true := by simp [first lang]
    rw [if_pos dead] at pending
    have read : (s.setWait .woken).move .sigchld opts .read =
        some { s with wait := .checking, chld := 0 } := by
      simp [move, setWait, stop, pending]
    refine ⟨({ s with wait := .checking, chld := 0 } : State).setPhase .exited, ?_,
      exited dead (fun _ => rfl), rfl⟩
    exact .cons .poll (.inl waiting) poll (.cons .wake (.inl waiting)
      (if_pos (.inr (by simp [setWait, pending])))
      (.cons .read (.inl waiting) read (.check waiting rfl dead)))
  | timeout =>
    obtain ⟨past, first⟩ := finds
    obtain ⟨stop, alive⟩ := first lang
    have none : s.chld = 0 := by simpa [alive] using pending
    have unready : ¬(s.sup.stop = true ∨ 0 < s.chld) := by simp [stop, none]
    exact ⟨_, .cons .poll (.inl waiting) poll (.one .wake (.inl waiting)
      ((if_neg unready).trans (if_pos past))), setPhase .timeout, rfl⟩

/-- The engine comes to each verdict that the look allows. -/
theorem decides (calm : s.Calm e) (waiting : s.sup.phase = .waiting) {v : Verdict}
    (finds : s.sup.Finds opts v) :
    ∃ t, s.Moves e opts t ∧ t.Calm e ∧ t.sup = s.sup.decide v := by
  by_cases lang : l = .go
  · subst lang
    exact calm.picks waiting finds
  · cases e with
    | pidfd => exact calm.looks lang waiting finds
    | sigchld => exact calm.wakes lang waiting finds

/-- A calm engine never stands before its question, where a stop signal would come between. -/
theorem near_common (calm : s.Calm e) (c : Common) : near l s (.common c) := by
  cases c with
  | signal =>
    intro _ waiting here
    cases here.symm.trans (calm.head waiting)
  | pass _ | die _ | spawn _ | term | reap | report => trivial

/-- Outside the wait the engine takes the same step. -/
theorem common (calm : s.Calm e) {c : Common} {sup : Sup} (stepped : s.sup.step opts c = some sup)
    (free : c ≠ .reap) : ∃ t, s.after e l c sup = some t ∧ t.Calm e ∧ t.sup = sup := by
  cases c with
  | pass ns =>
    cases stepped
    exact ⟨_, rfl, { calm with }, rfl⟩
  | die st =>
    obtain ⟨alive, made⟩ := Option.ite_none_right_eq_some.mp stepped
    cases made
    refine ⟨_, rfl, { head := calm.head, none := fun engine out => ?_,
                      one := fun engine here => ?_ }, rfl⟩
    · exact absurd alive (calm.none engine out).1
    · have before := calm.one engine here
      simp only [alive, Child.isDead, Bool.false_eq_true, if_false] at before
      simp [notify, before, Child.isDead]
  | signal =>
    cases stepped
    exact ⟨_, rfl, { calm with }, rfl⟩
  | spawn ok =>
    obtain ⟨starting, made⟩ := Option.ite_none_right_eq_some.mp stepped
    refine ⟨_, rfl, ?_, rfl⟩
    cases ok with
    | true =>
      cases made
      exact { head := fun _ => rfl
              none := fun _ out => by rcases out with here | here <;> cases here
              one := fun engine _ => (calm.none engine (.inl starting)).2 }
    | false =>
      cases made
      exact of_over (by simp)
  | term =>
    simp only [Sup.step] at stepped
    split at stepped
    · cases stepped
      exact ⟨_, rfl, of_over (by simp), rfl⟩
    · cases stepped
  | reap => exact absurd rfl free
  | report =>
    refine ⟨_, rfl, ?_, rfl⟩
    simp only [Sup.step] at stepped
    split at stepped
    · rename_i here _
      cases stepped
      unfold Sup.report
      split_ifs
      · exact of_over (by simp)
      · exact of_over (by simp)
      · exact { head := fun waiting => by cases waiting
                none := fun engine _ => ⟨by simp, (calm.none engine (.inr here)).2⟩
                one := fun _ waiting => by cases waiting }
    · cases stepped

/-- The engine in Go waits for its goroutine before it reaps. -/
theorem reap (calm : s.Calm e) {sup : Sup} (stepped : s.sup.step opts .reap = some sup) :
    ∃ acts t, (supervise e opts).Meets (near l) s acts ∧
      (supervise e opts).runFrom? s acts = some t ∧ t.Calm e ∧ t.sup = sup := by
  obtain ⟨dead, past⟩ : s.sup.child.isDead = true ∧ sup.phase = .returned 0 := by
    simp only [Sup.step] at stepped
    split at stepped
    · rename_i dead
      cases stepped
      simp [dead, Child.isDead]
    · cases stepped
  have still : ∀ closed, ({ s with sup := sup, closed := closed } : State).Calm e :=
    fun _ => of_over (by simp [past])
  by_cases open' : l = .go ∧ e = .pidfd ∧ s.closed = false
  · obtain ⟨rfl, rfl, -⟩ := open'
    have close : (supervise .pidfd opts).step s (.move .close) = some { s with closed := true } :=
      (if_pos (.inr rfl)).trans (if_pos ⟨rfl, rfl, dead⟩)
    have step : (supervise .pidfd opts).step { s with closed := true } (.common .reap) =
        some { s with sup := sup, closed := true } :=
      Option.bind_eq_some_iff.mpr ⟨sup, stepped, by simp [after]⟩
    exact ⟨[.move .close, .common .reap], _, ⟨trivial, fun _ _ => ⟨trivial, fun _ _ => trivial⟩⟩,
      (Machine.runFrom?_cons close _).trans (Machine.runFrom?_cons step []), still true, rfl⟩
  · have step : (supervise e opts).step s (.common .reap) = some { s with sup := sup } :=
      Option.bind_eq_some_iff.mpr ⟨sup, stepped, if_neg open'⟩
    exact ⟨[.common .reap], _, ⟨trivial, fun _ _ => trivial⟩, Machine.runFrom?_cons step [],
      still s.closed, rfl⟩

/-- Whatever the ideal supervisor does, each engine can do. -/
theorem answers (calm : s.Calm e) {a : Act} {sup : Sup}
    (taken : (ideal opts).step s.sup a = some sup) :
    ∃ acts t, (supervise e opts).Meets (near l) s acts ∧
      (supervise e opts).runFrom? s acts = some t ∧ t.Calm e ∧ t.sup = sup := by
  cases a with
  | common c =>
    by_cases free : c = .reap
    · subst free
      exact calm.reap taken
    · obtain ⟨t, after, still, same⟩ := calm.common (e := e) taken free
      have step : (supervise e opts).step s (.common c) = some t :=
        Option.bind_eq_some_iff.mpr ⟨sup, taken, after⟩
      exact ⟨[.common c], t, ⟨calm.near_common c, fun _ _ => trivial⟩,
        Machine.runFrom?_cons step [], still, same⟩
  | decide v =>
    obtain ⟨⟨waiting, finds⟩, made⟩ := Option.ite_none_right_eq_some.mp taken
    obtain ⟨t, ⟨moves, run⟩, still, same⟩ := calm.decides waiting finds
    refine ⟨moves.map .move, t, Machine.meets_of_forall (fun s a member => ?_) s, run, still,
      same.trans (Option.some.inj made)⟩
    obtain ⟨m, -, rfl⟩ := List.mem_map.mp member
    trivial

end Calm

/-- What can be seen of the ideal supervisor can be seen of each engine. -/
theorem run_of_ideal {acts : List Act} {sup : Sup} (run : (ideal opts).run? acts = some sup) :
    ∃ others t, (supervise e opts).Meets (near l) (supervise e opts).init others ∧
      (supervise e opts).run? others = some t ∧ t.sup = sup := by
  have start : (ideal opts).init = (supervise e opts).init.sup ∧
      (supervise e opts).init.Calm e :=
    ⟨rfl, fun _ => rfl, fun _ _ => ⟨by simp [supervise], rfl⟩, fun _ here => by cases here⟩
  obtain ⟨others, t, met, answer, same, -⟩ := @Machine.runFrom?_simulated _ _ (ideal opts) _ _
    (supervise e opts) (fun sup s => sup = s.sup ∧ s.Calm e) (fun _ _ => True) (near l)
    (fun sup s a next ⟨same, calm⟩ _ taken => by
      subst same
      obtain ⟨acts, t, met, run, still, made⟩ := calm.answers (e := e) taken
      exact ⟨acts, t, met, run, made.symm, still⟩)
    _ _ _ _ start (Machine.meets_of_forall (fun _ _ _ => trivial) _) run
  exact ⟨others, t, met, answer, same.symm⟩

end State

/-- A pidfd engine reads no SIGCHLD, so that nothing can come between. -/
theorem meets_near_pidfd (opts : Opts l) (acts : List Action) :
    (supervise .pidfd opts).Meets (near l) (supervise .pidfd opts).init acts := by
  refine (@Machine.meets_iff_meets _ _ (supervise .pidfd opts) (State.Inv .pidfd opts)
    (fun _ _ => True) (near l) (fun s a inv => ⟨fun _ => ?_, fun _ => trivial⟩)
    (fun _ _ _ inv _ taken => State.Inv.keeps inv taken) _ State.Inv.init acts).mp
      (Machine.meets_of_forall (fun _ _ _ => trivial) _)
  have elsewhere : s.wait ≠ .checking := by
    intro here
    have place := inv.place
    rw [here] at place
    cases place
  cases a with
  | common c =>
    cases c with
    | signal => exact fun _ _ here => absurd here elsewhere
    | pass _ | die _ | spawn _ | term | reap | report => trivial
  | interrupted | stale | coalesce | move _ => trivial

theorem pidfd_sigchld_agree (opts : Opts l) : Agree opts where
  same := fun trace => by
    constructor
    · rintro ⟨acts, s, run, rfl⟩
      obtain ⟨ideal, sup⟩ := State.ideal_of_run (meets_near_pidfd opts acts) run
      obtain ⟨others, t, met, answer, same⟩ := State.run_of_ideal (e := .sigchld) sup
      exact ⟨others, t, answer, met, by rw [same, State.seen_trace]⟩
    · rintro ⟨acts, s, run, met, rfl⟩
      obtain ⟨ideal, sup⟩ := State.ideal_of_run met run
      obtain ⟨others, t, -, answer, same⟩ := State.run_of_ideal (e := .pidfd) sup
      exact ⟨others, t, answer, by rw [same, State.seen_trace]⟩
  ends := fun e acts s run waiting due => by
    obtain ⟨t, ⟨moves, moved⟩, out⟩ := State.Ends.of_due (State.Inv.of_run run) waiting due
    exact ⟨moves, t, moved, out⟩

/-- The child is not to be restarted. -/
def once (l : Language) : Opts l where
  maxRestarts := 0
  accepted := by cases l <;> exact ⟨by decide, by decide, by decide⟩

def failed : ChildStatus := ⟨true, 1⟩

/-- The same child and the same stop signal, but the engines leave for different reasons and with
different codes: in C++ where the signal comes after the read of a stale SIGCHLD, in Go where both
the exit and the signal have come. -/
theorem engines_differ :
    (∃ s t, (supervise .pidfd (once .cpp)).run? [.common (.spawn true), .move .poll,
        .common .signal, .common (.die failed), .move .look, .common .term,
        .common .reap] = some s ∧
      (supervise .sigchld (once .cpp)).run? [.common (.spawn true), .move .poll, .stale,
        .move .wake, .move .read, .common .signal, .common (.die failed), .move .check,
        .common .report] = some t ∧
      s.sup.behaviour = t.sup.behaviour ∧
      s.sup.reported = [.printed (.exit failed), .printed (.exiting .signal), .left 0] ∧
      t.sup.reported = [.printed (.exit failed), .printed (.givingUp 0), .left 1]) ∧
    ∃ s t, (supervise .pidfd (once .go)).run? [.common (.spawn true), .common (.die failed),
        .common .signal, .move (.pick .stop), .common .term, .move .close, .common .reap] = some s ∧
      (supervise .sigchld (once .go)).run? [.common (.spawn true), .common (.die failed),
        .common .signal, .move (.pick .chld), .move .check, .common .report] = some t ∧
      s.sup.behaviour = t.sup.behaviour ∧
      s.sup.reported = [.printed (.exit failed), .printed (.exiting .signal), .left 0] ∧
      t.sup.reported = [.printed (.exit failed), .printed (.givingUp 0), .left 1] :=
  ⟨⟨_, _, rfl, rfl, rfl, rfl, rfl⟩, _, _, rfl, rfl, rfl, rfl, rfl⟩

end LinuxSys.Pidfd
