import LinuxSys.Lib.Machine
import LinuxSys.Lib.Table
import Mathlib.Algebra.Order.Group.Multiset

/-! # The first process of a container, ch34

`app serve` supervises a worker and short jobs, and inherits the children of every process of the
container that ends before them. Deaths come as one signal that does not count; a pass of `reap_all`
waits until nothing is left. At a stop the program hands SIGTERM on to the number of the worker and
waits for it.
-/

namespace LinuxSys.App.Pid1

open Lib

abbrev Pid := ℕ

inductive Fate where
  | exited (status : ℕ)
  | signaled (sig : ℕ)
deriving DecidableEq, Repr

inductive Life where
  | alive
  | zombie (fate : Fate)
deriving DecidableEq, Repr

/-- A process of the container besides the first: `child` if it is one of that, `worker` for the
process that `spawn_worker` has made. -/
structure Proc where
  pid : Pid
  child : Bool
  worker : Bool
  life : Life
deriving DecidableEq, Repr

inductive Stop where
  | sigint
  | sigterm
deriving DecidableEq, Repr

/-- Where the loop of `serve` stands. -/
inductive Main where
  | polls
  | reaps
  | kills (stop : Stop)
  | waits (stop : Stop)
  | joins (stop : Stop)
  | returned (stop : Stop)
deriving DecidableEq, Repr

/-- The thread behind the jobs. -/
inductive Spawner where
  | sleeps
  | forks
  | ended
deriving DecidableEq, Repr

inductive Line where
  | reaped (pid : Pid) (fate : Fate)
  | shuttingDown (stop : Stop)
deriving DecidableEq, Repr

/-- `died` remembers the ends of children, `waited` the one that was waited for by its number, and
`signalled` the process that has been sent SIGTERM. -/
structure State where
  workerPid : Pid
  procs : Table Proc.pid
  sigint : Bool := false
  sigterm : Bool := false
  sigchld : Bool := false
  main : Main := .polls
  spawner : Spawner := .sleeps
  stopRequested : Bool := false
  out : List Line := []
  died : List (Pid × Fate) := []
  waited : List (Pid × Fate) := []
  signalled : Option Proc := none
deriving DecidableEq

/-- `fork`, `die`, `adopt` and `vanish` are the other processes: one starts a child, one ends, one
loses its parent, one is reaped by a parent of its own. -/
inductive Act where
  | fork (pid : Pid)
  | die (pid : Pid) (fate : Fate)
  | adopt (pid : Pid)
  | vanish (pid : Pid)
  | signal (stop : Stop)
  | spawner (pid : Pid)
  | read
  | reap (pid : Pid)
  | reaped
  | kill
  | wait
  | join
deriving DecidableEq, Repr

namespace State

variable (s : State)

/-- A process comes with a number that nobody has. -/
def start (p : Proc) : Option State :=
  if fresh : s.procs.find p.pid = none then
    if p.pid = 1 then none else some { s with procs := s.procs.insert p fresh }
  else none

def set (p : Proc) : State := { s with procs := s.procs.set p }

def remove (pid : Pid) : State := { s with procs := s.procs.remove pid }

/-- The parent of a dead child gets a signal. -/
def tellsParent (p : Proc) (fate : Fate) : State :=
  { s with sigchld := true, died := s.died ++ [(p.pid, fate)] }

/-- The other processes of the container. -/
def world : Act → Option State
  | .fork pid => s.start ⟨pid, false, false, .alive⟩
  | .die pid fate =>
    match s.procs.find pid with
    | some ⟨_, child, worker, .alive⟩ =>
      let s := s.set ⟨pid, child, worker, .zombie fate⟩
      some (if child then s.tellsParent ⟨pid, child, worker, .alive⟩ fate else s)
    | _ => none
  | .adopt pid =>
    match s.procs.find pid with
    | some ⟨_, false, worker, life⟩ =>
      let s := s.set ⟨pid, true, worker, life⟩
      match life with
      | .alive => some s
      | .zombie fate => some (s.tellsParent ⟨pid, true, worker, life⟩ fate)
    | _ => none
  | .vanish pid =>
    match s.procs.find pid with
    | some ⟨_, false, _, .zombie _⟩ => some (s.remove pid)
    | _ => none
  | .signal .sigint => some { s with sigint := true }
  | .signal .sigterm => some { s with sigterm := true }
  | _ => none

/-- The jobs: a stop is seen before the `fork`, or only after it. -/
def jobs (pid : Pid) : Option State :=
  match s.spawner with
  | .sleeps => some { s with spawner := if s.stopRequested then .ended else .forks }
  | .forks => { s with spawner := .sleeps }.start ⟨pid, true, false, .alive⟩
  | .ended => none

/-- `signalfd` hands out the pending signal with the lowest number. -/
def read : Option State :=
  if s.sigint then
    some { s with sigint := false, stopRequested := true, main := .kills .sigint }
  else if s.sigterm then
    some { s with sigterm := false, stopRequested := true, main := .kills .sigterm }
  else if s.sigchld then some { s with sigchld := false, main := .reaps }
  else none

/-- `waitpid` would find a child. -/
def HasZombie : Prop := ∃ p ∈ s.procs.entries, p.child ∧ p.life ≠ .alive

instance : Decidable s.HasZombie := inferInstanceAs (Decidable (∃ p ∈ s.procs.entries, _))

/-- The loop of `serve`. `reap` is a `waitpid` that finds a child, `reaped` the one that does not. -/
def serve : Act → Option State
  | .read =>
    match s.main with
    | .polls => s.read
    | _ => none
  | .reap pid =>
    match s.main, s.procs.find pid with
    | .reaps, some ⟨_, true, _, .zombie fate⟩ =>
      some { s.remove pid with out := s.out ++ [.reaped pid fate] }
    | _, _ => none
  | .reaped =>
    match s.main with
    | .reaps => if s.HasZombie then none else some { s with main := .polls }
    | _ => none
  | .kill =>
    match s.main with
    | .kills stop => some { s with signalled := s.procs.find s.workerPid, main := .waits stop }
    | _ => none
  | .wait =>
    match s.main, s.procs.find s.workerPid with
    | .waits stop, some ⟨pid, true, _, .zombie fate⟩ =>
      some { s.remove pid with
        waited := s.waited ++ [(pid, fate)]
        out := s.out ++ [.shuttingDown stop]
        main := .joins stop }
    | .waits _, some ⟨_, true, _, .alive⟩ => none
    | .waits stop, _ =>
      some { s with out := s.out ++ [.shuttingDown stop], main := .joins stop }
    | _, _ => none
  | .join =>
    match s.main, s.spawner with
    | .joins stop, .ended => some { s with main := .returned stop }
    | _, _ => none
  | _ => none

/-- With the return of the first process the container is gone. -/
def step (a : Act) : Option State :=
  match s.main, a with
  | .returned _, _ => none
  | _, .spawner pid => s.jobs pid
  | _, a =>
    match s.world a with
    | some t => some t
    | none => s.serve a

end State

/-- From the start of the worker on. -/
def serve (workerPid : Pid) : Machine State Act :=
  ⟨{ workerPid := workerPid,
     procs := ⟨[⟨workerPid, true, true, .alive⟩], List.nodup_singleton _⟩ }, State.step⟩

/-! What every state keeps. -/

/-- A dead child that nobody has waited for. -/
def Proc.unreaped (p : Proc) : Multiset (Pid × Fate) :=
  match p.child, p.life with
  | true, .zombie fate => {(p.pid, fate)}
  | _, _ => 0

def State.unreaped (s : State) : Multiset (Pid × Fate) := s.procs.sum Proc.unreaped

def Line.pair : Line → Option (Pid × Fate)
  | .reaped pid fate => some (pid, fate)
  | .shuttingDown _ => none

/-- The deaths that have been printed. -/
def State.reported (s : State) : Multiset (Pid × Fate) := s.out.filterMap Line.pair

/-- SIGTERM has been handed on. -/
def Main.killed : Main → Bool
  | .waits _ | .joins _ | .returned _ => true
  | _ => false

/-- The worker has been waited for, or was gone. -/
def Main.passed : Main → Bool
  | .joins _ | .returned _ => true
  | _ => false

structure Inv (s : State) : Prop where
  account : s.died = s.unreaped + s.reported + s.waited
  pending : s.main = .polls → s.HasZombie → s.sigchld
  worker : ∀ p ∈ s.procs, p.worker → p.pid = s.workerPid ∧ p.child
  gone : s.main.passed → ∀ p ∈ s.procs, p.worker = false
  number : ∀ p, s.signalled = some p → p.pid = s.workerPid
  reached : s.main.killed → ∀ p ∈ s.procs, p.worker → ∃ q, s.signalled = some q ∧ q.worker
  fate : (∃ p ∈ s.procs, p.worker) ∨ ∃ fate, (s.workerPid, fate) ∈ s.reported + s.waited

section Steps

variable {s t : State} {p : Proc} {pid : Pid}

theorem unreaped_insert {fresh : s.procs.find p.pid = none} (alive : p.life = .alive) :
    ({ s with procs := s.procs.insert p fresh } : State).unreaped = s.unreaped := by
  have none : p.unreaped = 0 := by
    rw [Proc.unreaped, alive]
    cases p.child <;> rfl
  rw [State.unreaped, Table.sum_insert, none, zero_add]
  rfl

theorem Inv.start (inv : Inv s) (started : s.start p = some t) (alive : p.life = .alive)
    (other : p.worker = false) : Inv t := by
  rw [State.start] at started
  split_ifs at started with fresh one
  rw [← Option.some.inj started]
  refine ⟨?_, fun polls zombie => ?_, fun q member works => ?_, fun passed q member => ?_,
    inv.number, fun killed q member works => ?_, ?_⟩
  · rw [unreaped_insert alive]
    exact inv.account
  · refine inv.pending polls ?_
    obtain ⟨q, member, child, dead⟩ := zombie
    rcases (Table.mem_insert fresh).mp member with rfl | member
    · exact absurd alive dead
    · exact ⟨q, member, child, dead⟩
  · rcases (Table.mem_insert fresh).mp member with rfl | member
    · exact absurd (other.symm.trans works) Bool.false_ne_true
    · exact inv.worker q member works
  · rcases (Table.mem_insert fresh).mp member with rfl | member
    · exact other
    · exact inv.gone passed q member
  · rcases (Table.mem_insert fresh).mp member with rfl | member
    · exact absurd (other.symm.trans works) Bool.false_ne_true
    · exact inv.reached killed q member works
  · refine inv.fate.imp_left ?_
    rintro ⟨q, member, works⟩
    exact ⟨q, (Table.mem_insert fresh).mpr (.inr member), works⟩

/-- The worker stays what it is while its record changes. -/
theorem worker_set {q : Proc} (here : s.procs.find p.pid = some q) (works : p.worker = q.worker)
    (there : ∃ r ∈ s.procs, r.worker) : ∃ r ∈ s.procs.set p, r.worker := by
  obtain ⟨r, member, worker⟩ := there
  by_cases same : r.pid = p.pid
  · have found := (Table.find_eq_some_iff.mpr ⟨member, same⟩).symm.trans here
    rw [Option.some.inj found] at worker
    exact ⟨p, (Table.mem_set here).mpr (.inl rfl), works.trans worker⟩
  · exact ⟨r, (Table.mem_set here).mpr (.inr ⟨member, same⟩), worker⟩

/-- A record takes the place of the one with its number; nobody dies. -/
theorem Inv.set {q : Proc} (inv : Inv s) (here : s.procs.find p.pid = some q)
    (works : p.worker = q.worker) (child : q.child → p.child)
    (dead : p.unreaped = q.unreaped) (zombie : p.child → p.life ≠ .alive → q.life ≠ .alive ∧ q.child) :
    Inv (s.set p) := by
  have there := Table.find_eq_some_iff.mp here
  refine ⟨?_, fun polls zombies => ?_, fun r member worker => ?_, fun passed r member => ?_,
    inv.number, fun killed r member worker => ?_, inv.fate.imp_left (worker_set here works)⟩
  · have sum := Table.sum_set Proc.unreaped here
    rw [dead] at sum
    have same : (s.set p).unreaped = s.unreaped := add_right_cancel sum
    rw [same]
    exact inv.account
  · refine inv.pending polls ?_
    obtain ⟨r, member, isChild, ended⟩ := zombies
    rcases (Table.mem_set here).mp member with rfl | member
    · exact ⟨q, there.1, (zombie isChild ended).2, (zombie isChild ended).1⟩
    · exact ⟨r, member.1, isChild, ended⟩
  · rcases (Table.mem_set here).mp member with rfl | member
    · obtain ⟨number, isChild⟩ := inv.worker q there.1 (works ▸ worker)
      exact ⟨there.2.symm.trans number, child isChild⟩
    · exact inv.worker r member.1 worker
  · rcases (Table.mem_set here).mp member with rfl | member
    · rw [works]
      exact inv.gone passed q there.1
    · exact inv.gone passed r member.1
  · rcases (Table.mem_set here).mp member with rfl | member
    · exact inv.reached killed q there.1 (works ▸ worker)
    · exact inv.reached killed r member.1 worker

/-- The death of a child is told. -/
theorem Inv.tell {q : Proc} {fate : Fate} (inv : Inv s) (here : s.procs.find p.pid = some q)
    (works : p.worker = q.worker) (child : p.child = true) (life : p.life = .zombie fate)
    (before : q.unreaped = 0) : Inv ((s.set p).tellsParent p fate) := by
  have there := Table.find_eq_some_iff.mp here
  refine ⟨?_, fun _ _ => rfl, fun r member worker => ?_, fun passed r member => ?_,
    inv.number, fun killed r member worker => ?_, inv.fate.imp_left (worker_set here works)⟩
  · have sum := Table.sum_set Proc.unreaped here
    have dead : p.unreaped = {(p.pid, fate)} := by
      rw [Proc.unreaped, child, life]
    rw [before, add_zero, dead] at sum
    have more : ((s.set p).tellsParent p fate).unreaped = s.unreaped + {(p.pid, fate)} := sum
    have died : (((s.set p).tellsParent p fate).died : Multiset (Pid × Fate)) =
        s.died + {(p.pid, fate)} := rfl
    rw [more, died, inv.account]
    change _ = s.unreaped + {(p.pid, fate)} + s.reported + (s.waited : Multiset (Pid × Fate))
    abel
  · rcases (Table.mem_set here).mp member with rfl | member
    · exact ⟨there.2.symm.trans (inv.worker q there.1 (works ▸ worker)).1, child⟩
    · exact inv.worker r member.1 worker
  · rcases (Table.mem_set here).mp member with rfl | member
    · rw [works]
      exact inv.gone passed q there.1
    · exact inv.gone passed r member.1
  · rcases (Table.mem_set here).mp member with rfl | member
    · exact inv.reached killed q there.1 (works ▸ worker)
    · exact inv.reached killed r member.1 worker

theorem hasZombie_remove (zombie : (s.remove pid).HasZombie) : s.HasZombie := by
  obtain ⟨q, member, rest⟩ := zombie
  exact ⟨q, (Table.mem_remove.mp member).1, rest⟩

theorem Inv.world {a : Act} (inv : Inv s) (taken : s.world a = some t) : Inv t := by
  cases a with
  | fork pid => exact inv.start taken rfl rfl
  | die pid fate =>
    simp only [State.world] at taken
    split at taken
    case h_1 number child worker here =>
      have there := (Table.find_eq_some_iff.mp here).2
      cases child with
      | true =>
        rw [← Option.some.inj taken]
        exact inv.tell here rfl rfl rfl rfl
      | false =>
        rw [← Option.some.inj taken]
        exact inv.set here rfl id rfl fun isChild => absurd isChild Bool.false_ne_true
    case h_2 => cases taken
  | adopt pid =>
    simp only [State.world] at taken
    split at taken
    case h_1 number worker life here =>
      cases life with
      | alive =>
        rw [← Option.some.inj taken]
        exact inv.set here rfl (fun _ => rfl) rfl fun _ dead => absurd rfl dead
      | zombie fate =>
        rw [← Option.some.inj taken]
        exact inv.tell here rfl rfl rfl rfl
    case h_2 => cases taken
  | vanish pid =>
    simp only [State.world] at taken
    split at taken
    case h_1 number worker fate here =>
      rw [← Option.some.inj taken]
      refine ⟨?_, fun polls zombie => inv.pending polls (hasZombie_remove zombie),
        fun q member => inv.worker q (Table.mem_remove.mp member).1,
        fun passed q member => inv.gone passed q (Table.mem_remove.mp member).1, inv.number,
        fun killed q member => inv.reached killed q (Table.mem_remove.mp member).1,
        inv.fate.imp_left ?_⟩
      swap
      · -- it is not the worker, which is a child
        rintro ⟨q, member, works⟩
        refine ⟨q, Table.mem_remove.mpr ⟨member, fun same => ?_⟩, works⟩
        have found := (Table.find_eq_some_iff.mpr ⟨member, same⟩).symm.trans here
        have child := (inv.worker q member works).2
        rw [Option.some.inj found] at child
        cases child
      have sum := Table.sum_remove Proc.unreaped here
      have same : (s.remove pid).unreaped = s.unreaped := (add_zero _).symm.trans sum
      rw [same]
      exact inv.account
    case h_2 => cases taken
  | signal stop =>
    cases stop with
    | sigint =>
      cases taken
      exact ⟨inv.account, inv.pending, inv.worker, inv.gone, inv.number, inv.reached, inv.fate⟩
    | sigterm =>
      cases taken
      exact ⟨inv.account, inv.pending, inv.worker, inv.gone, inv.number, inv.reached, inv.fate⟩
  | _ => cases taken

theorem Inv.jobs (inv : Inv s) (taken : s.jobs pid = some t) : Inv t := by
  rw [State.jobs] at taken
  split at taken
  case h_1 =>
    cases taken
    exact ⟨inv.account, inv.pending, inv.worker, inv.gone, inv.number, inv.reached, inv.fate⟩
  case h_2 =>
    have waits : Inv { s with spawner := .sleeps } :=
      ⟨inv.account, inv.pending, inv.worker, inv.gone, inv.number, inv.reached, inv.fate⟩
    exact waits.start taken rfl rfl
  case h_3 => cases taken

/-- A step of the loop that is neither in nor behind the stop. -/
theorem Inv.loop {main : Main} (inv : Inv s) (sigint sigterm sigchld stop : Bool)
    (pending : main = .polls → s.HasZombie → sigchld) (before : main.killed = false)
    (short : main.passed = false) :
    Inv { s with
      sigint := sigint, sigterm := sigterm, sigchld := sigchld, stopRequested := stop
      main := main } := by
  refine ⟨inv.account, pending, inv.worker, fun passed => ?_, inv.number, fun killed => ?_, inv.fate⟩
  · exact absurd (short.symm.trans passed) Bool.false_ne_true
  · exact absurd (before.symm.trans killed) Bool.false_ne_true

theorem Inv.read (inv : Inv s) (taken : s.read = some t) : Inv t := by
  rw [State.read] at taken
  split_ifs at taken with int term chld
  all_goals rw [← Option.some.inj taken]
  · exact inv.loop _ _ _ _ (by simp) rfl rfl
  · exact inv.loop _ _ _ _ (by simp) rfl rfl
  · exact inv.loop _ _ _ _ (by simp) rfl rfl

/-- A child that has been waited for. -/
theorem unreaped_remove {number : Pid} {worker : Bool} {fate : Fate}
    (here : s.procs.find pid = some ⟨number, true, worker, .zombie fate⟩) :
    (s.remove pid).unreaped + {(number, fate)} = s.unreaped :=
  Table.sum_remove Proc.unreaped here

theorem reported_reaped (s : State) (number : Pid) (fate : Fate) :
    State.reported { s with out := s.out ++ [.reaped number fate] } =
      s.reported + {(number, fate)} := by
  simp only [State.reported, List.filterMap_append]
  exact (Multiset.coe_add _ _).symm

/-- If the worker is taken out, its death is known. -/
theorem fate_remove {number : Pid} {worker : Bool} {fate : Fate} (inv : Inv s)
    (here : s.procs.find pid = some ⟨number, true, worker, .zombie fate⟩)
    {known : Multiset (Pid × Fate)} (more : known = s.reported + s.waited + {(number, fate)}) :
    (∃ p ∈ s.procs.remove pid, p.worker) ∨ ∃ fate, (s.workerPid, fate) ∈ known := by
  rcases inv.fate with ⟨q, member, works⟩ | ⟨fate, before⟩
  · by_cases same : q.pid = pid
    · have found := (Table.find_eq_some_iff.mpr ⟨member, same⟩).symm.trans here
      have number := (inv.worker q member works).1
      rw [Option.some.inj found] at number
      refine .inr ⟨fate, ?_⟩
      rw [more, ← number]
      exact Multiset.mem_add.mpr (.inr (Multiset.mem_singleton_self _))
    · exact .inl ⟨q, Table.mem_remove.mpr ⟨member, same⟩, works⟩
  · rw [more]
    exact .inr ⟨fate, Multiset.mem_add.mpr (.inl before)⟩

theorem Inv.reap {number : Pid} {worker : Bool} {fate : Fate} (inv : Inv s)
    (reaps : s.main = .reaps)
    (here : s.procs.find pid = some ⟨number, true, worker, .zombie fate⟩) :
    Inv { s.remove pid with out := s.out ++ [.reaped number fate] } := by
  refine ⟨?_, fun polls => ?_, fun q member => inv.worker q (Table.mem_remove.mp member).1,
    fun passed => ?_, inv.number, fun killed => ?_, ?_⟩
  · change (s.died : Multiset (Pid × Fate)) = (s.remove pid).unreaped +
      State.reported { s with out := s.out ++ [.reaped number fate] } + s.waited
    rw [reported_reaped, inv.account, ← unreaped_remove here]
    abel
  · exact absurd (reaps.symm.trans polls) (by simp)
  · exact absurd passed (by simp [State.remove, reaps, Main.passed])
  · exact absurd killed (by simp [State.remove, reaps, Main.killed])
  · refine fate_remove inv here ?_
    change State.reported { s with out := s.out ++ [.reaped number fate] } + s.waited = _
    rw [reported_reaped]
    abel

/-- SIGTERM goes to whoever has the number of the worker; nobody else has it while the worker does. -/
theorem Inv.kill (inv : Inv s) (stop : Stop) :
    Inv { s with signalled := s.procs.find s.workerPid, main := .waits stop } := by
  refine ⟨inv.account, fun polls => ?_, inv.worker, fun passed => ?_, fun p found => ?_,
    fun _ p member works => ?_, inv.fate⟩
  · cases polls
  · cases passed
  · exact (Table.find_eq_some_iff.mp found).2
  · exact ⟨p, Table.find_eq_some_iff.mpr ⟨member, (inv.worker p member works).1⟩, works⟩

theorem reported_shuttingDown (s : State) (stop : Stop) :
    State.reported { s with out := s.out ++ [.shuttingDown stop] } = s.reported := by
  have none : [Line.shuttingDown stop].filterMap Line.pair = [] := rfl
  rw [State.reported, List.filterMap_append, none, List.append_nil]
  rfl

/-- The number has nobody to wait for: the worker is gone. -/
theorem Inv.echild {stop : Stop} (inv : Inv s) (waits : s.main = .waits stop)
    (nobody : ∀ p, s.procs.find s.workerPid = some p → p.child = false) :
    Inv { s with out := s.out ++ [.shuttingDown stop], main := .joins stop } := by
  have killed : s.main.killed := by rw [waits]; rfl
  refine ⟨?_, fun polls => (by cases polls), inv.worker, fun _ p member => ?_, inv.number,
    fun _ => inv.reached killed, ?_⟩
  · change _ = s.unreaped + State.reported { s with out := s.out ++ [.shuttingDown stop] } + _
    rw [reported_shuttingDown]
    exact inv.account
  · rw [Bool.eq_false_iff]
    intro works
    obtain ⟨number, child⟩ := inv.worker p member works
    have other := nobody p (Table.find_eq_some_iff.mpr ⟨member, number⟩)
    exact absurd (other.symm.trans child) Bool.false_ne_true
  · change _ ∨ ∃ fate, _ ∈ State.reported { s with out := s.out ++ [.shuttingDown stop] } + _
    rw [reported_shuttingDown]
    exact inv.fate

/-- With the number of the worker waited for, the worker is gone. -/
theorem Inv.wait {stop : Stop} (inv : Inv s) (waits : s.main = .waits stop)
    (taken : s.serve .wait = some t) : Inv t := by
  simp only [State.serve, waits] at taken
  cases found : s.procs.find s.workerPid with
  | none =>
    rw [found] at taken
    rw [← Option.some.inj taken]
    exact inv.echild waits fun p same => by rw [found] at same; cases same
  | some p =>
    obtain ⟨number, child, worker, life⟩ := p
    rw [found] at taken
    cases child with
    | false =>
      rw [← Option.some.inj taken]
      exact inv.echild waits fun p same => by rw [found] at same; cases same; rfl
    | true =>
      cases life with
      | alive => cases taken
      | zombie fate =>
        obtain rfl : number = s.workerPid := (Table.find_eq_some_iff.mp found).2
        rw [← Option.some.inj taken]
        have killed : s.main.killed := by rw [waits]; rfl
        refine ⟨?_, fun polls => (by cases polls),
          fun q member => inv.worker q (Table.mem_remove.mp member).1, fun _ q member => ?_,
          inv.number, fun _ q member => inv.reached killed q (Table.mem_remove.mp member).1, ?_⟩
        · change (s.died : Multiset (Pid × Fate)) = (s.remove s.workerPid).unreaped +
            State.reported { s with out := s.out ++ [.shuttingDown stop] } +
              ((s.waited ++ [(s.workerPid, fate)] : List (Pid × Fate)) : Multiset (Pid × Fate))
          rw [reported_shuttingDown, ← Multiset.coe_add, inv.account, ← unreaped_remove found]
          change _ = _ + _ + (_ + {(s.workerPid, fate)})
          abel
        · obtain ⟨there, other⟩ := Table.mem_remove.mp member
          rw [Bool.eq_false_iff]
          intro works
          exact other (inv.worker q there works).1
        · refine fate_remove inv found ?_
          change State.reported { s with out := s.out ++ [.shuttingDown stop] } +
              ((s.waited ++ [(s.workerPid, fate)] : List (Pid × Fate)) : Multiset (Pid × Fate)) = _
          rw [reported_shuttingDown, ← Multiset.coe_add, add_assoc]
          rfl

theorem Inv.serve {a : Act} (inv : Inv s) (taken : s.serve a = some t) : Inv t := by
  cases a with
  | read =>
    simp only [State.serve] at taken
    split at taken
    · exact inv.read taken
    · cases taken
  | reap pid =>
    simp only [State.serve] at taken
    split at taken
    case h_1 reaps here =>
      rw [← Option.some.inj taken]
      obtain rfl := (Table.find_eq_some_iff.mp here).2
      exact inv.reap reaps here
    case h_2 => cases taken
  | reaped =>
    simp only [State.serve] at taken
    split at taken
    · split_ifs at taken with zombie
      rw [← Option.some.inj taken]
      exact inv.loop _ _ _ _ (fun _ still => absurd still zombie) rfl rfl
    · cases taken
  | kill =>
    simp only [State.serve] at taken
    split at taken
    case h_1 stop _ =>
      rw [← Option.some.inj taken]
      exact inv.kill stop
    case h_2 => cases taken
  | wait =>
    cases main : s.main with
    | waits stop => exact inv.wait main taken
    | _ => simp [State.serve, main] at taken
  | join =>
    simp only [State.serve] at taken
    split at taken
    case h_1 stop joins _ =>
      rw [← Option.some.inj taken]
      exact ⟨inv.account, fun polls => (by cases polls), inv.worker,
        fun _ => inv.gone (by rw [joins]; rfl), inv.number,
        fun _ => inv.reached (by rw [joins]; rfl), inv.fate⟩
    case h_2 => cases taken
  | _ => cases taken

theorem Inv.step {a : Act} (inv : Inv s) (taken : s.step a = some t) : Inv t := by
  unfold State.step at taken
  split at taken
  case h_1 => cases taken
  case h_2 => exact inv.jobs taken
  case h_3 =>
    split at taken
    case h_1 next moved =>
      rw [← Option.some.inj taken]
      exact inv.world moved
    case h_2 => exact inv.serve taken

theorem inv_of_run {workerPid : Pid} {acts : List Act}
    (run : (serve workerPid).run? acts = some s) : Inv s := by
  refine Machine.run?_keeps ?_ (fun s a t inv taken => inv.step taken) run
  refine ⟨rfl, fun _ zombie => ?_, fun p member _ => ?_, fun passed => ?_, fun p found => ?_,
    fun killed => ?_, .inl ⟨_, List.mem_singleton_self _, rfl⟩⟩
  · obtain ⟨p, member, -, dead⟩ := zombie
    rw [List.mem_singleton.mp member] at dead
    exact absurd rfl dead
  · rw [List.mem_singleton.mp member]
    exact ⟨rfl, rfl⟩
  · cases passed
  · cases found
  · cases killed

end Steps

/-- However deaths, orphans and signals come: what has died is still to be reaped, has been printed or
is the one that the stop has waited for, each once; and the loop never sleeps on a dead child. -/
theorem reaped_once (workerPid : Pid) (acts : List Act) (s : State)
    (run : (serve workerPid).run? acts = some s) :
    s.died = s.unreaped + s.reported + s.waited ∧
      (s.main = .polls → s.sigchld = false → ¬ s.HasZombie) := by
  have inv := inv_of_run run
  refine ⟨inv.account, fun polls quiet zombie => ?_⟩
  exact absurd (quiet.symm.trans (inv.pending polls zombie)) Bool.false_ne_true

/-- A job and an orphan that die behind one signal. -/
theorem reaped_once_two :
    ∃ s, (serve 2).run? [.spawner 3, .spawner 3, .die 3 (.exited 0), .fork 4, .die 4 (.signaled 9),
        .adopt 4, .read, .reap 4, .reap 3, .reaped] = some s ∧
      s.out = [.reaped 4 (.signaled 9), .reaped 3 (.exited 0)] ∧
      s.died = s.unreaped + s.reported + s.waited ∧
        (s.main = .polls → s.sigchld = false → ¬ s.HasZombie) := by
  obtain ⟨s, run, out⟩ : ∃ s, (serve 2).run? [.spawner 3, .spawner 3, .die 3 (.exited 0), .fork 4,
      .die 4 (.signaled 9), .adopt 4, .read, .reap 4, .reap 3, .reaped] = some s ∧
      s.out = [.reaped 4 (.signaled 9), .reaped 3 (.exited 0)] := ⟨_, rfl, rfl⟩
  exact ⟨s, run, out, reaped_once 2 _ _ run⟩

/-- When the program stops, the worker has been reaped and its end is known; SIGTERM went to the
number of the worker, and to the worker if that had not been reaped before. -/
theorem worker_reaped (workerPid : Pid) (acts : List Act) (s : State)
    (run : (serve workerPid).run? acts = some s) :
    (s.main.passed → (∀ p ∈ s.procs, p.worker = false) ∧
      ∃ fate, (s.workerPid, fate) ∈ s.reported + s.waited) ∧
    (s.main.killed → (∃ p ∈ s.procs, p.worker) → ∃ p, s.signalled = some p ∧ p.worker) ∧
    (∀ p, s.signalled = some p → p.pid = s.workerPid) := by
  have inv := inv_of_run run
  refine ⟨fun passed => ⟨inv.gone passed, ?_⟩, ?_, inv.number⟩
  · refine inv.fate.resolve_left ?_
    rintro ⟨p, member, works⟩
    exact absurd ((inv.gone passed p member).symm.trans works) Bool.false_ne_true
  · rintro killed ⟨p, member, works⟩
    exact inv.reached killed p member works

/-- A stop with a job that is seen no more. -/
theorem worker_reaped_sigterm :
    ∃ s, (serve 2).run? [.spawner 3, .spawner 3, .signal .sigterm, .read, .kill, .die 3 (.exited 0),
        .die 2 (.signaled 15), .wait, .spawner 4, .join] = some s ∧ s.main = .returned .sigterm ∧
      (s.main.passed → (∀ p ∈ s.procs, p.worker = false) ∧
        ∃ fate, (s.workerPid, fate) ∈ s.reported + s.waited) ∧
      (s.main.killed → (∃ p ∈ s.procs, p.worker) → ∃ p, s.signalled = some p ∧ p.worker) ∧
      (∀ p, s.signalled = some p → p.pid = s.workerPid) := by
  obtain ⟨s, run, returned⟩ : ∃ s, (serve 2).run? [.spawner 3, .spawner 3, .signal .sigterm, .read,
      .kill, .die 3 (.exited 0), .die 2 (.signaled 15), .wait, .spawner 4, .join] = some s ∧
      s.main = .returned .sigterm := ⟨_, rfl, rfl⟩
  exact ⟨s, run, returned, worker_reaped 2 _ _ run⟩

end LinuxSys.App.Pid1
