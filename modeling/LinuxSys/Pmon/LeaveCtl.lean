import LinuxSys.Pmon.Leave

/-! # How the supervisor of pmon ch19 leaves

The accept loop serves commands while a reaper thread waits for the child and restarts it. The
command `stop` tells the reaper to end and waits until it has; an `accept` that fails leads to
`return 1`, whose `jthread` waits for a reaper that nobody has told anything.
-/

namespace LinuxSys.Pmon.LeaveCtl

open Lib

inductive Command where
  | status
  | logfd
  | stop
  | unknown
deriving DecidableEq, Repr

inductive Accepted where
  | command (c : Command)
  | interrupted
  | failed
deriving DecidableEq, Repr

/-- What `waitpid` says. -/
inductive Reap where
  | status
  | interrupted
  | failed
deriving DecidableEq, Repr

/-- In `joining` the destructor of the `jthread` waits for the reaper. -/
inductive Main where
  | log
  | listen
  | spawning
  | serving
  | killing (child : ℕ)
  | waiting
  | joining (code : ℕ)
  | returned (code : ℕ)
deriving DecidableEq, Repr

inductive Reaper where
  | absent
  | starting
  | waiting (pid : ℕ)
  | collected
  | backoff
  | spawning
  | spawned (pid : ℕ)
  | undoing (pid : ℕ)
  | undoWaiting (pid : ℕ)
  | ended
deriving DecidableEq, Repr

structure State where
  main : Main := .log
  reaper : Reaper := .absent
  child : ℕ := 0
  live : List ℕ := []
  restarts : ℕ := 0
  stopping : Bool := false
  childDone : Bool := false
deriving DecidableEq, Repr

/-- The main thread's and then the reaper's. -/
inductive Action where
  | opened (ok : Bool)
  | spawned (pid : ℕ)
  | spawnFailed
  | accepted (r : Accepted)
  | killed
  | woken
  | joined
  | started
  | reaped (r : Reap)
  | checked
  | sawStop
  | expired
  | respawned (pid : ℕ)
  | respawnFailed
  | adopted
  | undoKilled
  | undoReaped (ok : Bool)
deriving DecidableEq, Repr

namespace State

def finish (s : State) : State := { s with childDone := true, reaper := .ended }

def collect (s : State) (pid : ℕ) : State := { s with live := s.live.erase pid }

def accept (s : State) : Accepted → State
  | .command .stop => { s with stopping := true, main := .killing s.child }
  | .command _ => s
  | .interrupted => s
  | .failed => { s with main := .joining 1 }

def reap (s : State) (pid : ℕ) : Reap → State
  | .status => { s.collect pid with reaper := .collected }
  | .interrupted => s
  | .failed => s.finish

/-- A stop that comes during a respawn undoes it. -/
def adopt (s : State) (pid : ℕ) : State :=
  if s.stopping then { s with reaper := .undoing pid }
  else { s with child := pid, restarts := s.restarts + 1, reaper := .waiting pid }

def step (s : State) : Action → Option State
  | .opened ok =>
    match s.main with
    | .log => some { s with main := if ok then .listen else .returned 1 }
    | .listen => some { s with main := if ok then .spawning else .returned 1 }
    | _ => none
  | .spawned pid =>
    if s.main = .spawning then
      some { s with main := .serving, reaper := .starting, child := pid, live := pid :: s.live }
    else none
  | .spawnFailed => if s.main = .spawning then some { s with main := .returned 1 } else none
  | .accepted r => if s.main = .serving then some (s.accept r) else none
  | .killed =>
    match s.main with
    | .killing _ => some { s with main := .waiting }
    | _ => none
  | .woken => if s.main = .waiting ∧ s.childDone then some { s with main := .joining 0 } else none
  | .joined =>
    match s.main, s.reaper with
    | .joining code, .ended => some { s with main := .returned code }
    | _, _ => none
  | .started => if s.reaper = .starting then some { s with reaper := .waiting s.child } else none
  | .reaped r =>
    match s.reaper with
    | .waiting pid => some (s.reap pid r)
    | _ => none
  | .checked =>
    if s.reaper = .collected then
      if s.stopping then some s.finish else some { s with reaper := .backoff }
    else none
  | .sawStop => if s.reaper = .backoff ∧ s.stopping then some s.finish else none
  | .expired =>
    if s.reaper = .backoff ∧ s.stopping = false then some { s with reaper := .spawning } else none
  | .respawned pid =>
    if s.reaper = .spawning then some { s with reaper := .spawned pid, live := pid :: s.live }
    else none
  | .respawnFailed => if s.reaper = .spawning then some s.finish else none
  | .adopted =>
    match s.reaper with
    | .spawned pid => some (s.adopt pid)
    | _ => none
  | .undoKilled =>
    match s.reaper with
    | .undoing pid => some { s with reaper := .undoWaiting pid }
    | _ => none
  | .undoReaped ok =>
    match s.reaper with
    | .undoWaiting pid => some (if ok then (s.collect pid).finish else s.finish)
    | _ => none

end State

def program : Machine State Action := ⟨{}, State.step⟩

/-- No child is left behind, and a return is not held up by a reaper that goes on supervising. -/
structure Right (s : State) : Prop where
  clean : ∀ code, s.main = .returned code → s.live = []
  free : ∀ code, s.main = .joining code → s.stopping ∨ s.reaper = .ended

/-- `waitpid` does not fail for good, the one that undoes a respawn not at all, and `accept` fails
for good only when the reaper has ended. -/
def Fine (s : State) : Action → Prop
  | .accepted .failed => s.reaper = .ended
  | .reaped .failed => False
  | .undoReaped ok => ok = true
  | _ => True

/-- The child that the reaper is about. -/
def Reaper.holds (child : ℕ) : Reaper → List ℕ
  | .starting => [child]
  | .waiting pid | .spawned pid | .undoing pid | .undoWaiting pid => [pid]
  | .absent | .collected | .backoff | .spawning | .ended => []

/-- The main thread is on its way out. -/
def Main.Leaves : Main → Prop
  | .killing _ | .waiting | .joining _ => True
  | _ => False

/-- There is no child yet. -/
def Main.Prepares : Main → Prop
  | .log | .listen | .spawning => True
  | _ => False

structure State.Inv (s : State) : Prop where
  live : s.live = s.reaper.holds s.child
  absent : s.reaper = .absent → s.main.Prepares ∨ s.main = .returned 1
  present : s.main.Prepares → s.reaper = .absent
  told : s.main.Leaves → s.stopping ∨ s.reaper = .ended
  gone : ∀ code, s.main = .returned code → s.reaper = .ended ∨ s.reaper = .absent
  done : s.reaper = .ended → s.childDone

section Leave

variable {s t : State} {a : Action}

theorem inv_init : program.init.Inv where
  live := rfl
  absent := fun _ => .inl trivial
  present := fun _ => rfl
  told := nofun
  gone := nofun
  done := nofun

theorem State.Inv.live_of (inv : s.Inv) {reaper : Reaper} (here : s.reaper = reaper) :
    s.live = reaper.holds s.child := here ▸ inv.live

/-- A step of the reaper. -/
theorem State.Inv.move (inv : s.Inv) {reaper : Reaper} (here : s.reaper = reaper)
    (present : reaper ≠ .absent) (active : reaper ≠ .ended) (main : t.main = s.main)
    (stopping : t.stopping = s.stopping) (goes : t.reaper ≠ .absent)
    (live : t.live = t.reaper.holds t.child) (done : t.reaper = .ended → t.childDone) : t.Inv where
  live := live
  absent := fun absent => absurd absent goes
  present := fun prepares => absurd (here ▸ inv.present (main ▸ prepares)) present
  told := by
    rw [main, stopping]
    exact fun leaves => .inl ((inv.told leaves).resolve_right (here ▸ active))
  gone := by
    intro code returned
    rw [main] at returned
    exact ((inv.gone code returned).elim (here ▸ active) (here ▸ present)).elim
  done := done

/-- A step of the main thread. -/
theorem State.Inv.advance (inv : s.Inv) {main : Main} (present : s.reaper ≠ .absent)
    (going : ¬ main.Prepares) (told : main.Leaves → s.stopping ∨ s.reaper = .ended)
    (gone : ∀ code, main = .returned code → s.reaper = .ended) : State.Inv { s with main := main } :=
  { inv with
    absent := fun absent => absurd absent present
    present := fun prepares => absurd prepares going
    told := told
    gone := fun code returned => .inl (gone code returned) }

theorem State.Inv.present_of (inv : s.Inv) {main : Main} (here : s.main = main)
    (going : ¬ main.Prepares) (stays : main ≠ .returned 1) : s.reaper ≠ .absent := by
  intro absent
  rcases inv.absent absent with prepares | returned
  · exact going (here ▸ prepares)
  · exact stays (here ▸ returned)

/-- A step before there is a reaper. -/
theorem State.Inv.prepare (inv : s.Inv) {main next : Main} (here : s.main = main)
    (prepares : main.Prepares) (ok : Bool) (goes : next.Prepares) :
    State.Inv { s with main := if ok then next else .returned 1 } := by
  have absent := inv.present (here ▸ prepares)
  cases ok with
  | true =>
    refine { inv with
      absent := fun _ => .inl goes
      present := fun _ => absent
      told := fun leaves => ?_
      gone := fun code returned => .inr absent }
    cases next with
    | log | listen | spawning => cases leaves
    | _ => cases goes
  | false =>
    exact { inv with
      absent := fun _ => .inr rfl
      present := nofun
      told := nofun
      gone := fun _ _ => .inr absent }

/-- The child that the reaper was about is waited for. -/
theorem State.Inv.collected (inv : s.Inv) {pid : ℕ} {reaper : Reaper} (here : s.reaper = reaper)
    (holds : reaper.holds s.child = [pid]) : s.live.erase pid = [] := by
  rw [inv.live_of here, holds, List.erase_cons_head]

theorem State.Inv.keeps (inv : s.Inv) (fine : Fine s a) (taken : s.step a = some t) : t.Inv := by
  cases a with
  | opened ok =>
    simp only [State.step] at taken
    split at taken
    · next log =>
      cases taken
      exact inv.prepare log trivial ok trivial
    · next listen =>
      cases taken
      exact inv.prepare listen trivial ok trivial
    · cases taken
  | spawned pid =>
    obtain ⟨spawning, same⟩ := Option.ite_none_right_eq_some.mp taken
    cases same
    have live : s.live = [] := inv.live_of (inv.present (by rw [spawning]; trivial))
    exact ⟨congrArg (pid :: ·) live, nofun, nofun, nofun, nofun, nofun⟩
  | spawnFailed =>
    obtain ⟨spawning, same⟩ := Option.ite_none_right_eq_some.mp taken
    cases same
    have next : Main.Prepares .spawning := trivial
    exact inv.prepare spawning trivial false next
  | accepted r =>
    obtain ⟨serving, same⟩ := Option.ite_none_right_eq_some.mp taken
    cases same
    have present : s.reaper ≠ .absent := inv.present_of serving nofun nofun
    cases r with
    | command c =>
      cases c with
      | stop =>
        have told : State.Inv { s with stopping := true } := { inv with told := fun _ => .inl rfl }
        exact told.advance present nofun (fun _ => .inl rfl) nofun
      | _ => exact inv
    | interrupted => exact inv
    | failed => exact inv.advance present nofun (fun _ => .inr fine) nofun
  | killed =>
    simp only [State.step] at taken
    split at taken
    · next killing =>
      cases taken
      have told := inv.told (by rw [killing]; trivial)
      exact inv.advance (inv.present_of killing nofun nofun) nofun (fun _ => told) nofun
    · cases taken
  | woken =>
    obtain ⟨⟨waiting, -⟩, same⟩ := Option.ite_none_right_eq_some.mp taken
    cases same
    have told := inv.told (by rw [waiting]; trivial)
    exact inv.advance (inv.present_of waiting nofun nofun) nofun (fun _ => told) nofun
  | joined =>
    simp only [State.step] at taken
    split at taken
    · next code _ ended =>
      cases taken
      exact inv.advance (by rw [ended]; nofun) nofun nofun fun _ _ => ended
    · cases taken
  | started =>
    obtain ⟨starting, same⟩ := Option.ite_none_right_eq_some.mp taken
    cases same
    have live := inv.live_of starting
    exact inv.move starting nofun nofun rfl rfl nofun live nofun
  | reaped r =>
    simp only [State.step] at taken
    split at taken
    · next pid waiting =>
      cases taken
      cases r with
      | status =>
        exact inv.move waiting nofun nofun rfl rfl nofun (inv.collected waiting rfl) nofun
      | interrupted => exact inv
      | failed => cases fine
    · cases taken
  | checked =>
    obtain ⟨collected, same⟩ := Option.ite_none_right_eq_some.mp taken
    have live := inv.live_of collected
    split at same
    · cases same
      exact inv.move collected nofun nofun rfl rfl nofun live fun _ => rfl
    · cases same
      exact inv.move collected nofun nofun rfl rfl nofun live nofun
  | sawStop =>
    obtain ⟨⟨backoff, -⟩, same⟩ := Option.ite_none_right_eq_some.mp taken
    cases same
    have live := inv.live_of backoff
    exact inv.move backoff nofun nofun rfl rfl nofun live fun _ => rfl
  | expired =>
    obtain ⟨⟨backoff, -⟩, same⟩ := Option.ite_none_right_eq_some.mp taken
    cases same
    have live := inv.live_of backoff
    exact inv.move backoff nofun nofun rfl rfl nofun live nofun
  | respawned pid =>
    obtain ⟨spawning, same⟩ := Option.ite_none_right_eq_some.mp taken
    cases same
    have live := inv.live_of spawning
    exact inv.move spawning nofun nofun rfl rfl nofun (congrArg (pid :: ·) live) nofun
  | respawnFailed =>
    obtain ⟨spawning, same⟩ := Option.ite_none_right_eq_some.mp taken
    cases same
    have live := inv.live_of spawning
    exact inv.move spawning nofun nofun rfl rfl nofun live fun _ => rfl
  | adopted =>
    simp only [State.step] at taken
    split at taken
    · next pid spawned =>
      cases taken
      have live := inv.live_of spawned
      unfold State.adopt
      split
      · exact inv.move spawned nofun nofun rfl rfl nofun live nofun
      · exact inv.move spawned nofun nofun rfl rfl nofun live nofun
    · cases taken
  | undoKilled =>
    simp only [State.step] at taken
    split at taken
    · next pid undoing =>
      cases taken
      have live := inv.live_of undoing
      exact inv.move undoing nofun nofun rfl rfl nofun live nofun
    · cases taken
  | undoReaped ok =>
    simp only [State.step] at taken
    split at taken
    · next pid waiting =>
      obtain rfl : ok = true := fine
      cases taken
      exact inv.move waiting nofun nofun rfl rfl nofun (inv.collected waiting rfl) fun _ => rfl
    · cases taken

theorem State.Inv.right (inv : s.Inv) : Right s where
  clean := by
    intro code returned
    rcases inv.gone code returned with ended | absent
    · exact inv.live_of ended
    · exact inv.live_of absent
  free := by
    intro code joining
    exact inv.told (by rw [joining]; trivial)

/-! Once the main thread is on its way out. -/

structure State.Leaving (s : State) : Prop where
  main : s.main.Leaves ∨ ∃ code, s.main = .returned code
  told : s.stopping ∨ s.reaper = .ended
  there : s.reaper ≠ .absent
  done : s.reaper = .ended → s.childDone

def Main.left : Main → ℕ
  | .killing _ => 3
  | .waiting => 2
  | .joining _ => 1
  | .log | .listen | .spawning | .serving | .returned _ => 0

/-- The steps to the end of a reaper that is to stop. -/
def Reaper.left : Reaper → ℕ
  | .spawning => 4
  | .starting | .spawned _ => 3
  | .waiting _ | .undoing _ => 2
  | .collected | .backoff | .undoWaiting _ => 1
  | .absent | .ended => 0

def State.left (s : State) : ℕ := s.main.left + s.reaper.left

def Action.counts (a : Action) : Bool := a ≠ .reaped .interrupted

theorem State.left_le (s : State) : s.left ≤ 7 := by
  have main : s.main.left ≤ 3 := by
    cases s.main with
    | _ => simp [Main.left]
  have reaper : s.reaper.left ≤ 4 := by
    cases s.reaper with
    | _ => simp [Reaper.left]
  exact Nat.add_le_add main reaper

theorem State.Inv.leaving (inv : s.Inv) (leaves : s.main.Leaves) : s.Leaving where
  main := .inl leaves
  told := inv.told leaves
  there := by
    intro absent
    rcases inv.absent absent with prepares | returned
    · cases main : s.main with
      | killing | waiting | joining => rw [main] at prepares; cases prepares
      | _ => rw [main] at leaves; cases leaves
    · rw [returned] at leaves
      cases leaves
  done := inv.done

theorem State.Leaving.elsewhere (leaving : s.Leaving) {main : Main} (here : s.main = main)
    (going : ¬ main.Leaves) (stays : ∀ code, main ≠ .returned code) : False := by
  rcases leaving.main with leaves | ⟨code, returned⟩
  · exact going (here ▸ leaves)
  · exact stays code (here ▸ returned)

/-- A step of the reaper. -/
theorem State.Leaving.move (leaving : s.Leaving) {reaper : Reaper} (here : s.reaper = reaper)
    (active : reaper ≠ .ended) (main : t.main = s.main) (stopping : t.stopping = s.stopping)
    (there : t.reaper ≠ .absent) (done : t.reaper = .ended → t.childDone)
    (less : t.reaper.left < reaper.left) : t.Leaving ∧ t.left + 1 ≤ s.left := by
  constructor
  · exact {
      main := by rw [main]; exact leaving.main
      told := by
        rw [stopping]
        exact .inl (leaving.told.resolve_right (here ▸ active))
      there := there
      done := done }
  · rw [State.left, State.left, main, here]
    omega

/-- A step of the main thread. -/
theorem State.Leaving.advance (leaving : s.Leaving) {here next : Main} (same : s.main = here)
    (goes : next.Leaves ∨ ∃ code, next = .returned code) (less : next.left < here.left) :
    State.Leaving { s with main := next } ∧ State.left { s with main := next } + 1 ≤ s.left := by
  constructor
  · exact { leaving with main := goes }
  · simp only [State.left, same]
    omega

/-- Every step but an interrupted wait brings it nearer to the return. -/
theorem State.Leaving.falls (leaving : s.Leaving) (taken : s.step a = some t) :
    t.Leaving ∧ t.left + (if a.counts then 1 else 0) ≤ s.left := by
  cases a with
  | opened ok =>
    simp only [State.step] at taken
    split at taken
    · next log => exact (leaving.elsewhere log nofun nofun).elim
    · next listen => exact (leaving.elsewhere listen nofun nofun).elim
    · cases taken
  | spawned pid =>
    obtain ⟨spawning, -⟩ := Option.ite_none_right_eq_some.mp taken
    exact (leaving.elsewhere spawning nofun nofun).elim
  | spawnFailed =>
    obtain ⟨spawning, -⟩ := Option.ite_none_right_eq_some.mp taken
    exact (leaving.elsewhere spawning nofun nofun).elim
  | accepted r =>
    obtain ⟨serving, -⟩ := Option.ite_none_right_eq_some.mp taken
    exact (leaving.elsewhere serving nofun nofun).elim
  | killed =>
    simp only [State.step] at taken
    split at taken
    · next killing =>
      cases taken
      exact leaving.advance killing (.inl trivial) (Nat.lt_succ_self 2)
    · cases taken
  | woken =>
    obtain ⟨⟨waiting, -⟩, same⟩ := Option.ite_none_right_eq_some.mp taken
    cases same
    exact leaving.advance waiting (.inl trivial) (Nat.lt_succ_self 1)
  | joined =>
    simp only [State.step] at taken
    split at taken
    · next joining _ =>
      cases taken
      exact leaving.advance joining (.inr ⟨_, rfl⟩) Nat.one_pos
    · cases taken
  | started =>
    obtain ⟨starting, same⟩ := Option.ite_none_right_eq_some.mp taken
    cases same
    exact leaving.move starting nofun rfl rfl nofun nofun (Nat.lt_succ_self 2)
  | reaped r =>
    simp only [State.step] at taken
    split at taken
    · next pid waiting =>
      cases taken
      cases r with
      | status => exact leaving.move waiting nofun rfl rfl nofun nofun (Nat.lt_succ_self 1)
      | interrupted => exact ⟨leaving, Nat.le_refl _⟩
      | failed => exact leaving.move waiting nofun rfl rfl nofun (fun _ => rfl) Nat.two_pos
    · cases taken
  | checked =>
    obtain ⟨collected, same⟩ := Option.ite_none_right_eq_some.mp taken
    have stopping : s.stopping := leaving.told.resolve_right (by rw [collected]; nofun)
    rw [if_pos stopping] at same
    cases same
    exact leaving.move collected nofun rfl rfl nofun (fun _ => rfl) Nat.one_pos
  | sawStop =>
    obtain ⟨⟨backoff, -⟩, same⟩ := Option.ite_none_right_eq_some.mp taken
    cases same
    exact leaving.move backoff nofun rfl rfl nofun (fun _ => rfl) Nat.one_pos
  | expired =>
    obtain ⟨⟨backoff, going⟩, -⟩ := Option.ite_none_right_eq_some.mp taken
    have stopping : s.stopping := leaving.told.resolve_right (by rw [backoff]; nofun)
    rw [going] at stopping
    cases stopping
  | respawned pid =>
    obtain ⟨spawning, same⟩ := Option.ite_none_right_eq_some.mp taken
    cases same
    exact leaving.move spawning nofun rfl rfl nofun nofun (Nat.lt_succ_self 3)
  | respawnFailed =>
    obtain ⟨spawning, same⟩ := Option.ite_none_right_eq_some.mp taken
    cases same
    exact leaving.move spawning nofun rfl rfl nofun (fun _ => rfl) (Nat.succ_pos 3)
  | adopted =>
    simp only [State.step] at taken
    split at taken
    · next pid spawned =>
      cases taken
      have stopping : s.stopping := leaving.told.resolve_right (by rw [spawned]; nofun)
      rw [State.adopt, if_pos stopping]
      exact leaving.move spawned nofun rfl rfl nofun nofun (Nat.lt_succ_self 2)
    · cases taken
  | undoKilled =>
    simp only [State.step] at taken
    split at taken
    · next pid undoing =>
      cases taken
      exact leaving.move undoing nofun rfl rfl nofun nofun (Nat.lt_succ_self 1)
    · cases taken
  | undoReaped ok =>
    simp only [State.step] at taken
    split at taken
    · next pid waiting =>
      cases taken
      cases ok with
      | true => exact leaving.move waiting nofun rfl rfl nofun (fun _ => rfl) Nat.one_pos
      | false => exact leaving.move waiting nofun rfl rfl nofun (fun _ => rfl) Nat.one_pos
    · cases taken

/-- A reaper that was told to stop has a next step until it has ended. -/
theorem State.Leaving.reaps (leaving : s.Leaving) (active : s.reaper ≠ .ended) :
    ∃ a t, a.counts ∧ s.step a = some t := by
  have stopping : s.stopping := leaving.told.resolve_right active
  cases reaper : s.reaper with
  | absent => exact absurd reaper leaving.there
  | starting => exact ⟨.started, _, rfl, if_pos reaper⟩
  | waiting pid => exact ⟨.reaped .status, _, rfl, by simp only [State.step, reaper]; rfl⟩
  | collected => exact ⟨.checked, s.finish, rfl, (if_pos reaper).trans (if_pos stopping)⟩
  | backoff => exact ⟨.sawStop, s.finish, rfl, if_pos ⟨reaper, stopping⟩⟩
  | spawning => exact ⟨.respawnFailed, s.finish, rfl, if_pos reaper⟩
  | spawned pid => exact ⟨.adopted, _, rfl, by simp only [State.step, reaper]; rfl⟩
  | undoing pid => exact ⟨.undoKilled, _, rfl, by simp only [State.step, reaper]; rfl⟩
  | undoWaiting pid => exact ⟨.undoReaped true, _, rfl, by simp only [State.step, reaper]; rfl⟩
  | ended => exact absurd reaper active

theorem State.Leaving.ready (leaving : s.Leaving) :
    (∃ code, s.main = .returned code) ∨ ∃ a t, a.counts ∧ s.step a = some t := by
  by_cases ended : s.reaper = .ended
  · rcases leaving.main with leaves | returned
    · right
      cases main : s.main with
      | killing child => exact ⟨.killed, _, rfl, by simp only [State.step, main]; rfl⟩
      | waiting => exact ⟨.woken, _, rfl, if_pos ⟨main, leaving.done ended⟩⟩
      | joining code => exact ⟨.joined, _, rfl, by simp only [State.step, main, ended]; rfl⟩
      | log | listen | spawning | serving | returned => rw [main] at leaves; cases leaves
    · exact .inl returned
  · exact .inr (leaving.reaps ended)

/-- After seven steps, interrupted waits aside, the return is reached. -/
theorem State.Leaving.ends (leaving : s.Leaving) {acts : List Action}
    (run : program.runFrom? s acts = some t) :
    (acts.filter Action.counts).length ≤ 7 ∧
      ((∃ code, t.main = .returned code) ∨ ∃ a next, a.counts ∧ program.step t a = some next) := by
  have falls : ∀ s a t, State.Leaving s → program.step s a = some t →
      t.Leaving ∧ t.left + (if a.counts then 1 else 0) ≤ s.left :=
    fun s a t leaving taken => leaving.falls taken
  obtain ⟨still, few⟩ := Machine.count_le_measure State.left falls leaving run
  exact ⟨(Nat.le_add_right _ _).trans (few.trans s.left_le), still.ready⟩

end Leave

/-- A stop that comes during a respawn. -/
def stopped : List Action :=
  [.opened true, .opened true, .spawned 7, .started, .reaped .status, .checked, .expired,
    .accepted (.command .stop), .killed, .respawned 8, .adopted, .undoKilled, .undoReaped true,
    .woken, .joined]

end LinuxSys.Pmon.LeaveCtl
