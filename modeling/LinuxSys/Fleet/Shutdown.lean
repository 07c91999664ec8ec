import LinuxSys.Fleet.Pmon

/-! # What a shutdown of pmon reaches

The signal thread sends SIGTERM to the pids it finds stored. It misses a child that is forked
after the pid of its service was read, which a supervisor does that was past its test of
`shutting_down` or still in its backoff; and it hits a reaped pid when `waitpid` collects the
child before the `kill`, or collected it long before. Each result names the steps that must not
be taken and holds in every run without them.
-/

namespace LinuxSys.Fleet.Pmon

open Lib

/-- The forwarding loop has started. -/
def Signal.started : Signal → Bool
  | .forwarding _ => true
  | .loaded .. => true
  | _ => false

/-- The pid of the service was read. -/
def Signal.visited : Signal → Service → Prop
  | .forwarding todo, i => i ∉ todo
  | .loaded _ _ todo, i => i ∉ todo
  | _, _ => False

/-- The pid of the service was read and signalled. -/
def Signal.forwarded : Signal → Service → Prop
  | .forwarding todo, i => i ∉ todo
  | .loaded j _ todo, i => i ∉ todo ∧ i ≠ j
  | _, _ => False

/-- A service's pid is read only between the store of its child's pid and the supervisor's next
test of `shutting_down`, or after the supervisor stopped. -/
def loadsCovered (s : State) : Action → Bool
  | .load i => (s.phase i).covered
  | _ => true

theorem mem_services (i : Service) : i ∈ services := by cases i <;> decide

theorem Signal.visited_of_forwarded {signal : Signal} {i : Service}
    (forwarded : signal.forwarded i) : signal.visited i := by
  cases signal with
  | forwarding todo => exact forwarded
  | loaded j p todo => exact forwarded.1
  | waiting => exact forwarded
  | raised => exact forwarded

theorem Signal.started_of_visited {signal : Signal} {i : Service} (visited : signal.visited i) :
    signal.started := by
  cases signal with
  | forwarding todo => rfl
  | loaded j p todo => rfl
  | waiting => cases visited
  | raised => cases visited

structure Reaches (s : State) : Prop where
  flag : s.signal.started → s.shuttingDown
  covered : ∀ i, s.signal.visited i → (s.phase i).covered
  current : ∀ i p todo, s.signal = .loaded i p todo →
    i ∉ todo ∧ ∀ q r e, s.proc q = some (.child i r e) → q = p
  sent : ∀ i, s.signal.forwarded i → ∀ q r e, s.proc q = some (.child i r e) → e = true

namespace Reaches

variable {s : State}

theorem init : Reaches {} := by
  constructor <;> simp [Signal.started, Signal.visited, Signal.forwarded]

/-- A step of another thread: it may not leave a visited service uncovered, nor start a child of
one. -/
theorem of_other (inv : Reaches s) {t : State} (signal : t.signal = s.signal)
    (flag : t.shuttingDown = s.shuttingDown)
    (covered : ∀ i, s.signal.visited i → (t.phase i).covered)
    (children : ∀ i, s.signal.visited i → ∀ q r e, t.proc q = some (.child i r e) →
      ∃ r, s.proc q = some (.child i r e)) : Reaches t := by
  constructor
  · rw [signal, flag]
    exact inv.flag
  · rw [signal]
    exact covered
  · intro i p todo loaded
    rw [signal] at loaded
    obtain ⟨outside, only⟩ := inv.current i p todo loaded
    have visited : s.signal.visited i := by
      rw [loaded]
      exact outside
    refine ⟨outside, fun q r e entry => ?_⟩
    obtain ⟨r', before⟩ := children i visited q r e entry
    exact only q r' e before
  · intro i forwarded q r e entry
    rw [signal] at forwarded
    obtain ⟨r', before⟩ := children i (Signal.visited_of_forwarded forwarded) q r e entry
    exact inv.sent i forwarded q r' e before

/-- A supervisor's step that neither forks nor collects a child, and stays covered. -/
theorem of_phase (inv : Reaches s) {t : State} {i : Service} {p : Phase}
    (signal : t.signal = s.signal) (flag : t.shuttingDown = s.shuttingDown)
    (phase : t.phase = Function.update s.phase i p) (proc : t.proc = s.proc)
    (stays : s.signal.visited i → (s.phase i).covered → p.covered) : Reaches t := by
  refine inv.of_other signal flag (fun j visited => ?_) fun j visited q r e entry => ⟨r, ?_⟩
  · rw [phase, Function.update_apply]
    split
    · next same =>
      subst same
      exact stays visited (inv.covered j visited)
    · exact inv.covered j visited
  · rwa [proc] at entry

/-- A step of a process that makes no new child, or none that was not signalled before. -/
theorem of_proc (inv : Reaches s) {p : ℕ} {entry : Option Proc}
    (children : ∀ i r e, entry = some (.child i r e) → ∃ r, s.proc p = some (.child i r e)) :
    Reaches (s.setProc p entry) := by
  refine inv.of_other rfl rfl inv.covered fun i visited q r e now => ?_
  simp only [State.setProc, Function.update_apply] at now
  split at now
  · next same =>
    rw [same]
    exact children i r e now
  · exact ⟨r, now⟩

/-- A visited service forks no child. -/
theorem forked (inv : Reaches s) {i : Service} (pid : ℕ) (starting : s.phase i = .starting) :
    Reaches ((s.setProc pid (some (.child i true false))).setPhase i (.forked pid)) := by
  have unvisited : ¬ s.signal.visited i := by
    intro visited
    have covered := inv.covered i visited
    rw [starting] at covered
    cases covered
  refine inv.of_other rfl rfl ?_ ?_
  · intro j visited
    have different : j ≠ i := fun same => unvisited (same ▸ visited)
    exact (congrArg Phase.covered (Function.update_of_ne different _ _)).trans
      (inv.covered j visited)
  · intro j visited q r e entry
    refine ⟨r, ?_⟩
    simp only [State.setProc, State.setPhase, Function.update_apply] at entry
    split at entry
    · cases entry
      exact absurd visited unvisited
    · exact entry

/-- A pid is read while the supervisor it belongs to is covered. -/
theorem loaded (inv : Reaches s) (tracked : Tracked s) {i : Service} {todo : List Service}
    (forwarding : s.signal = .forwarding todo) (guard : (s.phase i).covered) :
    Reaches { s with signal := .loaded i (s.pid i) (todo.filter (· ≠ i)) } := by
  have stored : (s.phase i).stored = (s.phase i).holds := by
    cases phase : s.phase i <;> simp_all [Phase.covered, Phase.stored, Phase.holds]
  constructor
  · intro _
    apply inv.flag
    rw [forwarding]
    rfl
  · intro j visited
    change j ∉ todo.filter _ at visited
    by_cases same : j = i
    · rw [same]
      exact guard
    · apply inv.covered j
      rw [forwarding]
      exact fun inside => visited (List.mem_filter.mpr ⟨inside, by simpa using same⟩)
  · rintro j p rest ⟨⟩
    refine ⟨by simp, fun q r e entry => ?_⟩
    have held := tracked.child i q r e entry
    rw [← stored] at held
    exact (tracked.pid i q held).symm
  · rintro j ⟨outside, different⟩ q r e entry
    refine inv.sent j ?_ q r e entry
    rw [forwarding]
    exact fun inside => outside (List.mem_filter.mpr ⟨inside, by simpa using different⟩)

/-- The pid that was read is signalled, unless it is 0: then its service has no child. -/
theorem signalled (inv : Reaches s) {i : Service} {pid : ℕ} {todo : List Service}
    (loaded : s.signal = .loaded i pid todo) {t : State} (signal : t.signal = .forwarding todo)
    (flag : t.shuttingDown = s.shuttingDown) (phase : t.phase = s.phase)
    (children : ∀ j q r e, t.proc q = some (.child j r e) →
      e = true ∨ (q ≠ pid ∧ s.proc q = some (.child j r e))) : Reaches t := by
  obtain ⟨-, only⟩ := inv.current i pid todo loaded
  constructor
  · intro _
    rw [flag]
    apply inv.flag
    rw [loaded]
    rfl
  · intro j visited
    rw [signal] at visited
    rw [phase]
    apply inv.covered j
    rw [loaded]
    exact visited
  · intro j p rest impossible
    rw [signal] at impossible
    cases impossible
  · intro j visited q r e entry
    rw [signal] at visited
    rcases children j q r e entry with termed | ⟨different, before⟩
    · exact termed
    · refine inv.sent j ?_ q r e before
      rw [loaded]
      refine ⟨visited, ?_⟩
      rintro rfl
      exact different (only q r e before)

theorem keeps (inv : Reaches s) (tracked : Tracked s) {a : Action} {t : State}
    (guard : loadsCovered s a) (taken : step s a = some t) : Reaches t := by
  cases effect_of_step taken with
  | fork starting => exact inv.forked _ starting
  | forkError starting =>
    refine inv.of_phase rfl rfl rfl rfl fun _ covered => ?_
    rw [starting] at covered
    cases covered
  | storePid => exact inv.of_phase rfl rfl rfl rfl fun _ _ => rfl
  | storeUp => exact inv.of_phase rfl rfl rfl rfl fun _ _ => rfl
  | @waitpid i pid waiting =>
    have collected : Reaches (s.setProc pid none) := inv.of_proc (by simp)
    exact collected.of_phase rfl rfl rfl rfl fun _ _ => rfl
  | check =>
    refine inv.of_phase rfl rfl rfl rfl fun visited _ => ?_
    rw [if_pos (inv.flag (Signal.started_of_visited visited))]
    rfl
  | storeDown => exact inv.of_phase rfl rfl rfl rfl fun _ _ => rfl
  | count counting =>
    refine inv.of_phase rfl rfl rfl rfl fun _ covered => ?_
    rw [counting] at covered
    cases covered
  | storeRestarting marking =>
    refine inv.of_phase rfl rfl rfl rfl fun _ covered => ?_
    rw [marking] at covered
    cases covered
  | wake sleeping =>
    refine inv.of_phase rfl rfl rfl rfl fun _ covered => ?_
    rw [sleeping] at covered
    cases covered
  | sigwait => constructor <;> simp [Signal.started, Signal.visited, Signal.forwarded]
  | storeFlag => constructor <;> simp [Signal.visited, Signal.forwarded, mem_services]
  | load forwarding => exact inv.loaded tracked forwarding guard
  | @kill i pid todo loaded positive =>
    refine inv.signalled loaded rfl rfl rfl fun j q r e entry => ?_
    simp only [State.setProc, Function.update_apply] at entry
    split at entry
    · obtain ⟨before, -, termed⟩ := Option.map_eq_some_iff.mp entry
      exact .inl (Proc.term_eq_child termed).1
    · next different => exact .inr ⟨different, entry⟩
  | @skip i todo loaded =>
    refine inv.signalled loaded rfl rfl rfl fun j q r e entry => .inr ⟨?_, entry⟩
    exact (tracked.positive j q r e entry).ne'
  | @exit i pid termed running =>
    apply inv.of_proc
    rintro j r e ⟨⟩
    exact ⟨true, running⟩
  | exitStranger => exact inv.of_proc (by simp)
  | recycle => exact inv.of_proc (by simp)

end Reaches

/-- In every run that reads each pid while its supervisor is covered, no child is alive without a
SIGTERM once the signal thread is done. -/
theorem forwards_to_all {acts : List Action} {s : State}
    (met : pmon.Meets (fun s a => loadsCovered s a) pmon.init acts)
    (run : pmon.run? acts = some s) (finished : s.signal = .forwarding []) :
    ∀ pid i termed, s.proc pid = some (.child i true termed) → termed = true := by
  have keeps (s : State) (a : Action) (t : State) (inv : Tracked s ∧ Reaches s)
      (guard : loadsCovered s a) (taken : step s a = some t) : Tracked t ∧ Reaches t :=
    ⟨inv.1.keeps taken, inv.2.keeps inv.1 guard taken⟩
  have reaches := (@Machine.run?_keeps_of_meets _ _ pmon (fun s => Tracked s ∧ Reaches s) _
    ⟨Tracked.init, Reaches.init⟩ keeps s acts met run).2
  intro pid i termed entry
  refine reaches.sent i ?_ pid true termed entry
  rw [finished]
  exact List.not_mem_nil

/-- A shutdown that finds all three services running. -/
def orderly : List Action :=
  [.fork .chatterd 10, .storePid .chatterd, .storeUp .chatterd,
    .fork .sysagent 11, .storePid .sysagent, .storeUp .sysagent,
    .fork .fwatch 12, .storePid .fwatch, .storeUp .fwatch,
    .sigwait, .storeFlag, .load .chatterd, .kill, .load .sysagent, .kill, .load .fwatch, .kill]

theorem forwards_to_all_orderly :
    ∃ s, pmon.run? orderly = some s ∧ s.kills.length = 3 ∧
      ∀ pid i termed, s.proc pid = some (.child i true termed) → termed = true := by
  have met : pmon.Meets (fun s a => loadsCovered s a) pmon.init orderly := by decide
  exact ⟨_, rfl, rfl, forwards_to_all met rfl rfl⟩

/-- `chatterd` exits, its supervisor backs off, the shutdown forwards to the stored pids, and the
supervisor starts a child that is never signalled. -/
theorem not_forwards_to_all_backoff :
    ∃ s, pmon.run?
        [.fork .chatterd 10, .storePid .chatterd, .storeUp .chatterd,
          .fork .sysagent 11, .storePid .sysagent, .storeUp .sysagent,
          .fork .fwatch 12, .storePid .fwatch, .storeUp .fwatch,
          .exit 10, .waitpid .chatterd, .check .chatterd, .count .chatterd,
          .storeRestarting .chatterd, .sigwait, .storeFlag, .load .chatterd, .kill,
          .load .sysagent, .kill, .load .fwatch, .kill, .wake .chatterd, .fork .chatterd 13] =
        some s ∧
      s.signal = .forwarding [] ∧ s.proc 13 = some (.child .chatterd true false) :=
  ⟨_, rfl, rfl, rfl⟩

/-- A pid is read only while it is 0 or that of a child not collected, and the child is not
collected between the read and the `kill`. -/
def loadsLive (s : State) : Action → Bool
  | .load i => s.pid i = 0 || (s.phase i).stored.isSome
  | .waitpid i =>
    match s.signal with
    | .loaded j _ _ => i ≠ j
    | _ => true
  | _ => true

structure Aimed (s : State) : Prop where
  loaded : ∀ i p todo, s.signal = .loaded i p todo → p = 0 ∨ (s.phase i).stored = some p
  kills : ∀ k ∈ s.kills, ∃ i r e, k.2 = some (.child i r e)

namespace Aimed

variable {s : State}

theorem init : Aimed {} := by
  constructor <;> simp

theorem of_phase (inv : Aimed s) {t : State} {i : Service} {p : Phase}
    (signal : t.signal = s.signal) (kills : t.kills = s.kills)
    (phase : t.phase = Function.update s.phase i p)
    (stays : (∃ q todo, s.signal = .loaded i q todo) → p.stored = (s.phase i).stored ∨
      (s.phase i).stored = none) : Aimed t := by
  constructor
  · intro j q todo loaded
    rw [signal] at loaded
    rcases inv.loaded j q todo loaded with zero | stored
    · exact .inl zero
    · refine .inr ?_
      rw [phase, Function.update_apply]
      split
      · next same =>
        subst same
        rcases stays ⟨q, todo, loaded⟩ with kept | absent
        · rw [kept, stored]
        · rw [absent] at stored
          cases stored
      · exact stored
  · rw [kills]
    exact inv.kills

theorem holds_of_stored {phase : Phase} {p : ℕ} (stored : phase.stored = some p) :
    phase.holds = some p := by
  cases phase <;> simp_all [Phase.stored, Phase.holds]

theorem keeps (inv : Aimed s) (tracked : Tracked s) {a : Action} {t : State}
    (guard : loadsLive s a) (taken : step s a = some t) : Aimed t := by
  cases effect_of_step taken with
  | fork starting => exact inv.of_phase rfl rfl rfl fun _ => .inr (by rw [starting]; rfl)
  | forkError starting => exact inv.of_phase rfl rfl rfl fun _ => .inr (by rw [starting]; rfl)
  | storePid forked => exact inv.of_phase rfl rfl rfl fun _ => .inr (by rw [forked]; rfl)
  | storeUp published => exact inv.of_phase rfl rfl rfl fun _ => .inl (by rw [published]; rfl)
  | waitpid =>
    -- no child is collected while its pid is about to be signalled
    refine inv.of_phase rfl rfl rfl ?_
    rintro ⟨q, todo, loaded⟩
    simp [loadsLive, loaded] at guard
  | check reaped => exact inv.of_phase rfl rfl rfl fun _ => .inr (by rw [reaped]; rfl)
  | storeDown stopping => exact inv.of_phase rfl rfl rfl fun _ => .inr (by rw [stopping]; rfl)
  | count counting => exact inv.of_phase rfl rfl rfl fun _ => .inr (by rw [counting]; rfl)
  | storeRestarting marking =>
    exact inv.of_phase rfl rfl rfl fun _ => .inr (by rw [marking]; rfl)
  | wake sleeping => exact inv.of_phase rfl rfl rfl fun _ => .inr (by rw [sleeping]; rfl)
  | sigwait => exact ⟨by simp, inv.kills⟩
  | storeFlag => exact ⟨by simp, inv.kills⟩
  | @load i todo forwarding =>
    refine ⟨?_, inv.kills⟩
    rintro j p rest ⟨⟩
    simp only [loadsLive, Bool.or_eq_true, decide_eq_true_eq] at guard
    rcases guard with zero | live
    · exact .inl zero
    · obtain ⟨p, stored⟩ := Option.isSome_iff_exists.mp live
      exact .inr (by rw [stored, tracked.pid i p stored])
  | @kill i pid todo loaded positive =>
    refine ⟨by simp, fun k member => ?_⟩
    rcases List.mem_append.mp member with before | last
    · exact inv.kills k before
    · rw [List.mem_singleton.mp last]
      rcases inv.loaded i pid todo loaded with zero | stored
      · omega
      · obtain ⟨r, e, entry⟩ := tracked.held i pid (holds_of_stored stored)
        exact ⟨i, r, e, entry⟩
  | skip => exact ⟨by simp, inv.kills⟩
  | exit => exact ⟨inv.loaded, inv.kills⟩
  | exitStranger => exact ⟨inv.loaded, inv.kills⟩
  | recycle => exact ⟨inv.loaded, inv.kills⟩

end Aimed

/-- In every run that reads and signals only pids of children not collected, each `kill` of the
shutdown hits a child of pmon. -/
theorem kills_children {acts : List Action} {s : State}
    (met : pmon.Meets (fun s a => loadsLive s a) pmon.init acts)
    (run : pmon.run? acts = some s) :
    ∀ k ∈ s.kills, ∃ i running termed, k.2 = some (.child i running termed) := by
  have keeps (s : State) (a : Action) (t : State) (inv : Tracked s ∧ Aimed s)
      (guard : loadsLive s a) (taken : step s a = some t) : Tracked t ∧ Aimed t :=
    ⟨inv.1.keeps taken, inv.2.keeps inv.1 guard taken⟩
  exact (@Machine.run?_keeps_of_meets _ _ pmon (fun s => Tracked s ∧ Aimed s) _
    ⟨Tracked.init, Aimed.init⟩ keeps s acts met run).2.kills

theorem kills_children_orderly :
    ∃ s, pmon.run? orderly = some s ∧ s.kills.length = 3 ∧
      ∀ k ∈ s.kills, ∃ i running termed, k.2 = some (.child i running termed) := by
  have met : pmon.Meets (fun s a => loadsLive s a) pmon.init orderly := by decide
  exact ⟨_, rfl, rfl, kills_children met rfl⟩

/-- `chatterd` exits and is collected, its pid goes to a stranger, and the shutdown signals the
pid that is still stored. -/
theorem not_kills_children_recycled :
    ∃ s, pmon.run?
        [.fork .chatterd 10, .storePid .chatterd, .storeUp .chatterd, .exit 10,
          .waitpid .chatterd, .recycle 10, .sigwait, .storeFlag, .load .chatterd, .kill] = some s ∧
      s.kills = [(10, some .stranger)] :=
  ⟨_, rfl, rfl⟩

end LinuxSys.Fleet.Pmon
