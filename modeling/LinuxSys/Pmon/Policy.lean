import LinuxSys.Lib.Machine
import Mathlib.Algebra.Order.Ring.Int

/-! # The restart policy of pmon ch42

`policy.lua` and `policy-v2.lua` are one function over two tables. A host hands `on_exit` what it
knows of the child and feeds the delay of the last restart back; a reload exchanges the table. A
delay is doubled and capped, but only a first one is lifted to the base.
-/

namespace LinuxSys.Pmon.Policy

open Lib

/-- `CONFIG` -/
structure Config where
  baseBackoffMs : ℤ
  maxBackoffMs : ℤ
  maxRestarts : ℤ
  fastCrashMs : ℤ
  fastCrashStreak : ℤ
deriving DecidableEq, Repr

inductive Version where
  | v1
  | v2
deriving DecidableEq, Repr

def Version.config : Version → Config
  | .v1 => ⟨500, 30000, 8, 2000, 3⟩
  | .v2 => ⟨100, 30000, 2, 2000, 3⟩

/-- The table that a host hands to `on_exit`; a field that is absent is nil. -/
structure Info where
  name : Option String
  exitCode : Option ℤ
  signal : Option String
  restarts : Option ℤ
  consecutiveFailures : Option ℤ
  uptimeMs : Option ℤ
  lastBackoffMs : Option ℤ
deriving DecidableEq, Repr

/-- What a policy answers. Both forms of escalation are one action. -/
inductive Kind where
  | stop
  | escalate
  | restart
deriving DecidableEq, Repr

structure Decision where
  action : Kind
  delayMs : ℤ
  reason : String
deriving DecidableEq, Repr

/-- `tostring` of an exit code. -/
def tostring : Option ℤ → String
  | none => "nil"
  | some n => toString n

namespace Config

variable (c : Config)

def nextBackoffMs (lastBackoffMs : Option ℤ) : ℤ :=
  let delay :=
    match lastBackoffMs with
    | none => c.baseBackoffMs
    | some last => if last ≤ 0 then c.baseBackoffMs else last * 2
  if delay > c.maxBackoffMs then c.maxBackoffMs else delay

end Config

namespace Info

variable (i : Info)

def clean : Bool := i.signal = none && i.exitCode = some 0

def how : String :=
  match i.signal with
  | some signal => "signal " ++ signal
  | none => "exit code " ++ tostring i.exitCode

def failures : ℤ := i.consecutiveFailures.getD 0 + 1

/-- Several fast failures in a row. -/
def crashLooping (c : Config) : Bool :=
  0 ≤ i.uptimeMs.getD (-1) && i.uptimeMs.getD (-1) < c.fastCrashMs && c.fastCrashStreak ≤ i.failures

/-- The budget of restarts is used up. -/
def spent (c : Config) : Bool := c.maxRestarts ≤ i.restarts.getD 0

end Info

def Config.onExit (c : Config) (i : Info) : Decision :=
  let name := i.name.getD "?"
  let uptime := toString (i.uptimeMs.getD (-1))
  let restarts := i.restarts.getD 0
  if i.clean then ⟨.stop, 0, name ++ " exited 0: clean shutdown, not restarting"⟩
  else if i.crashLooping c then
    ⟨.escalate, 0, name ++ ": " ++ toString i.failures ++ " fast failures in a row (last " ++
      i.how ++ " after " ++ uptime ++ "ms uptime) -- crash-looping, paging"⟩
  else if i.spent c then
    ⟨.escalate, 0, name ++ ": giving up after " ++ toString restarts ++ " restarts (last " ++
      i.how ++ ")"⟩
  else
    let delay := c.nextBackoffMs (some (i.lastBackoffMs.getD 0))
    ⟨.restart, delay, name ++ ": restart " ++ toString (restarts + 1) ++ " after " ++ i.how ++
      " (uptime " ++ uptime ++ "ms), backing off " ++ toString delay ++ "ms"⟩

/-! Hosts. -/

/-- How the child ended. -/
structure Exit where
  exitCode : Option ℤ
  signal : Option String
  uptimeMs : Option ℤ
deriving DecidableEq, Repr

/-- One answer: under which table, to what, the delay before it since the last reload, and what. -/
structure Turn where
  config : Config
  info : Info
  previous : Option ℤ
  decision : Decision
deriving DecidableEq, Repr

/-- A host that supervises one child. `turns` is history. -/
structure Host where
  name : String
  config : Config
  restarts : ℤ := 0
  consecutiveFailures : ℤ := 0
  lastBackoffMs : ℤ := 0
  previous : Option ℤ := none
  turns : List Turn := []
deriving DecidableEq, Repr

inductive Action where
  | exit (e : Exit)
  | reload (v : Version)
deriving DecidableEq, Repr

namespace Host

def info (h : Host) (e : Exit) : Info where
  name := some h.name
  exitCode := e.exitCode
  signal := e.signal
  restarts := some h.restarts
  consecutiveFailures := some h.consecutiveFailures
  uptimeMs := e.uptimeMs
  lastBackoffMs := some h.lastBackoffMs

/-- A delay is used where the child is restarted; a clean exit ends a row of failures. -/
def follow (h : Host) (i : Info) (d : Decision) : Host :=
  { h with
    turns := h.turns ++ [⟨h.config, i, h.previous, d⟩]
    consecutiveFailures := if i.clean then 0 else h.consecutiveFailures + 1
    restarts := if d.action = .restart then h.restarts + 1 else h.restarts
    lastBackoffMs := if d.action = .restart then d.delayMs else h.lastBackoffMs
    previous := if d.action = .restart then some d.delayMs else h.previous }

def step (h : Host) : Action → Option Host
  | .exit e => some (h.follow (h.info e) (h.config.onExit (h.info e)))
  | .reload v => some { h with config := v.config, previous := none }

end Host

/-- `pmon` with the policy it starts with. -/
def program (name : String) (first : Version) : Machine Host Action where
  init := { name := name, config := first.config }
  step := Host.step

/-! What the policy promises. -/

structure Turn.Right (t : Turn) : Prop where
  stop : t.decision.action = .stop → t.info.signal = none ∧ t.info.exitCode = some 0
  budget : ∀ n, t.info.restarts = some n → t.config.maxRestarts ≤ n → t.decision.action ≠ .restart
  floor : t.decision.action = .restart → t.config.baseBackoffMs ≤ t.decision.delayMs
  cap : t.decision.action = .restart → t.decision.delayMs ≤ t.config.maxBackoffMs
  grows : t.decision.action = .restart → ∀ before, t.previous = some before →
    before ≤ t.decision.delayMs

def Host.Right (h : Host) : Prop := ∀ t ∈ h.turns, t.Right

/-- No restart is due behind a delay of less than half the base. -/
def Host.Fine (h : Host) : Action → Prop
  | .exit e => (h.info e).clean = false → (h.info e).crashLooping h.config = false →
      (h.info e).spent h.config = false → 0 < h.lastBackoffMs →
      h.config.baseBackoffMs ≤ h.lastBackoffMs * 2
  | .reload _ => True

/-! One answer. -/

section Answer

variable {c : Config} {i : Info}

theorem onExit_action (c : Config) (i : Info) : (c.onExit i).action =
    if i.clean then .stop else if i.crashLooping c then .escalate else if i.spent c then .escalate
      else .restart := by
  unfold Config.onExit
  simp only
  split_ifs <;> rfl

theorem action_eq_stop_iff : (c.onExit i).action = .stop ↔ i.clean = true := by
  rw [onExit_action]
  split_ifs with clean <;> simp [clean]

theorem action_eq_restart_iff : (c.onExit i).action = .restart ↔
    i.clean = false ∧ i.crashLooping c = false ∧ i.spent c = false := by
  rw [onExit_action]
  split_ifs with clean looping spent <;> simp [*]

theorem delayMs_of_restart (restart : (c.onExit i).action = .restart) :
    (c.onExit i).delayMs = c.nextBackoffMs (some (i.lastBackoffMs.getD 0)) := by
  obtain ⟨clean, looping, spent⟩ := action_eq_restart_iff.mp restart
  simp [Config.onExit, clean, looping, spent]

end Answer

/-- A base that is not above the cap. -/
structure Config.Sound (c : Config) : Prop where
  positive : 0 < c.baseBackoffMs
  order : c.baseBackoffMs ≤ c.maxBackoffMs

theorem Version.sound (v : Version) : v.config.Sound := by
  cases v <;> exact ⟨by decide, by decide⟩

section Delay

variable {c : Config} {last : ℤ}

theorem nextBackoffMs_le (c : Config) (last : Option ℤ) : c.nextBackoffMs last ≤ c.maxBackoffMs := by
  cases last with
  | none =>
    simp only [Config.nextBackoffMs]
    split_ifs <;> omega
  | some last =>
    simp only [Config.nextBackoffMs]
    split_ifs <;> omega

theorem nextBackoffMs_pos (sound : c.Sound) (last : Option ℤ) : 0 < c.nextBackoffMs last := by
  have positive := sound.positive
  have order := sound.order
  cases last with
  | none =>
    simp only [Config.nextBackoffMs]
    split_ifs <;> omega
  | some last =>
    simp only [Config.nextBackoffMs]
    split_ifs <;> omega

/-- The base bounds a delay but for one that doubles less than half of it. -/
theorem base_le_nextBackoffMs_iff (sound : c.Sound) :
    c.baseBackoffMs ≤ c.nextBackoffMs (some last) ↔ (0 < last → c.baseBackoffMs ≤ last * 2) := by
  have order := sound.order
  simp only [Config.nextBackoffMs]
  split_ifs <;> omega

theorem le_nextBackoffMs (positive : 0 < last) (below : last ≤ c.maxBackoffMs) :
    last ≤ c.nextBackoffMs (some last) := by
  simp only [Config.nextBackoffMs]
  split_ifs <;> omega

end Delay

/-! Runs. -/

structure Host.Inv (h : Host) : Prop where
  sound : h.config.Sound
  last : 0 ≤ h.lastBackoffMs
  previous : ∀ before, h.previous = some before →
    before = h.lastBackoffMs ∧ 0 < before ∧ before ≤ h.config.maxBackoffMs

namespace Host.Inv

variable {h next : Host} {a : Action}

theorem start (name : String) (first : Version) : (program name first).init.Inv where
  sound := first.sound
  last := le_rfl
  previous := nofun

theorem follow (inv : h.Inv) (e : Exit) :
    (h.follow (h.info e) (h.config.onExit (h.info e))).Inv := by
  by_cases restart : (h.config.onExit (h.info e)).action = .restart
  · have delay := delayMs_of_restart restart
    have positive := nextBackoffMs_pos inv.sound (some ((h.info e).lastBackoffMs.getD 0))
    rw [← delay] at positive
    refine ⟨inv.sound, ?_, ?_⟩
    · simp only [Host.follow, if_pos restart]
      exact positive.le
    · simp only [Host.follow, if_pos restart]
      rintro before ⟨⟩
      exact ⟨rfl, positive, delay ▸ nextBackoffMs_le _ _⟩
  · refine ⟨inv.sound, ?_, ?_⟩
    · simp only [Host.follow, if_neg restart]
      exact inv.last
    · simp only [Host.follow, if_neg restart]
      exact inv.previous

theorem step (h : Host) (a : Action) (next : Host) (inv : h.Inv) (taken : h.step a = some next) :
    next.Inv := by
  cases a with
  | exit e =>
    cases taken
    exact inv.follow e
  | reload v =>
    cases taken
    exact ⟨v.sound, inv.last, nofun⟩

/-- An answer is right exactly when the delay before it was large enough. -/
theorem turn_right_iff (inv : h.Inv) (e : Exit) :
    Turn.Right ⟨h.config, h.info e, h.previous, h.config.onExit (h.info e)⟩ ↔ h.Fine (.exit e) := by
  constructor
  · intro right clean looping spent
    have restart := action_eq_restart_iff.mpr ⟨clean, looping, spent⟩
    have floor := right.floor restart
    rw [delayMs_of_restart restart] at floor
    exact (base_le_nextBackoffMs_iff inv.sound).mp floor
  · intro fine
    refine ⟨?_, ?_, ?_, ?_, ?_⟩
    · intro stop
      simpa [Info.clean] using action_eq_stop_iff.mp stop
    · intro n known spent restart
      have budget := (action_eq_restart_iff.mp restart).2.2
      cases known
      exact of_decide_eq_false budget spent
    · intro restart
      obtain ⟨clean, looping, spent⟩ := action_eq_restart_iff.mp restart
      rw [delayMs_of_restart restart]
      exact (base_le_nextBackoffMs_iff inv.sound).mpr (fine clean looping spent)
    · intro restart
      rw [delayMs_of_restart restart]
      exact nextBackoffMs_le _ _
    · intro restart before known
      obtain ⟨rfl, positive, below⟩ := inv.previous before known
      rw [delayMs_of_restart restart]
      exact le_nextBackoffMs positive below

theorem right_iff (h : Host) (a : Action) (next : Host) (inv : h.Inv)
    (taken : h.step a = some next) : next.Right ↔ h.Right ∧ h.Fine a := by
  cases a with
  | exit e =>
    cases taken
    rw [← inv.turn_right_iff e]
    simp [Host.Right, Host.follow, or_imp, forall_and]
  | reload v =>
    cases taken
    exact (and_iff_left trivial).symm

end Host.Inv

/-- All answers of a run are right exactly when no restart is due behind a delay that the other
policy left below half the base. -/
theorem answers_right_iff (name : String) (first : Version) (acts : List Action) (h : Host)
    (run : (program name first).run? acts = some h) :
    h.Right ↔ (program name first).Meets Host.Fine (program name first).init acts := by
  have exact' := Machine.runFrom?_iff_meets Host.Inv.step Host.Inv.right_iff
    (Host.Inv.start name first) run
  refine exact'.trans (and_iff_right ?_)
  intro t member
  cases member

theorem answers_right_iff_once :
    ∃ h, (program "worker" .v1).run? [.exit ⟨some 1, none, some 9000⟩] = some h ∧
    (h.Right ↔ (program "worker" .v1).Meets Host.Fine (program "worker" .v1).init
      [.exit ⟨some 1, none, some 9000⟩]) :=
  ⟨_, rfl, answers_right_iff "worker" .v1 _ _ rfl⟩

/-- A first delay of `policy-v2.lua`, doubled by `policy.lua`. -/
theorem not_always_floored :
    ¬ ∀ name first acts h, (program name first).run? acts = some h → h.Right := by
  intro always
  have right := always "worker" .v2
    [.exit ⟨some 1, none, some 9000⟩, .reload .v1, .exit ⟨some 1, none, some 9000⟩] _ rfl
  have second := (right _ (List.mem_cons_of_mem _ List.mem_cons_self)).floor (by decide)
  revert second
  decide

end LinuxSys.Pmon.Policy
