import LinuxSys.Lib.Progress

/-! # The exec pipe of pmon ch11

`pmon run` forks and lets the child tell over a pipe when `execvp` fails. Both ends close at an
`execvp`, so the parent reads the error or, as soon as nobody can write any more, the end of file. The
two processes and the signals that kill the child take turns in any order.
-/

namespace LinuxSys.Pmon.Run

open Lib

/-- What `waitpid` says of a child that has ended. -/
inductive Fate where
  | exited (status : ℕ)
  | signaled (sig : ℕ)
deriving DecidableEq, Repr

/-- Where the child stands: its end of the pipe is open up to `command`. -/
inductive Child where
  | forked
  | execs
  | refused (errno : ℕ)
  | told
  | command
  | zombie (fate : Fate)
  | reaped
deriving DecidableEq, Repr

/-- How `main` returns. -/
inductive Report where
  | exec (errno : ℕ)
  | exited (status : ℕ)
  | killed (sig : ℕ)
  | noChild
deriving DecidableEq, Repr

inductive Parent where
  | forked
  | reads
  | waits (word : Option ℕ)
  | returned (report : Report)
deriving DecidableEq, Repr

/-- `attempt` remembers what `execvp` has answered, `sent` what the child has told, `fate` how it has
ended. -/
structure State where
  parent : Parent := .forked
  child : Child := .forked
  pipe : List ℕ := []
  attempt : Option (Option ℕ) := none
  sent : Option ℕ := none
  fate : Option Fate := none
deriving DecidableEq, Repr

/-- Who takes a step. A finished command chooses its fate; a signal comes from anywhere. -/
inductive Act where
  | closeWrite
  | read
  | wait
  | interrupt
  | closeRead
  | execvp (errno : Option ℕ)
  | write
  | exit
  | finish (fate : Fate)
  | kill (sig : ℕ)
deriving DecidableEq, Repr

def Child.holdsPipe : Child → Bool
  | .forked | .execs | .refused _ | .told => true
  | .command | .zombie _ | .reaped => false

def Parent.holdsPipe : Parent → Bool
  | .forked => true
  | _ => false

def Child.alive : Child → Bool
  | .zombie _ | .reaped => false
  | _ => true

/-- The report of a child that could be waited for. -/
def report (word : Option ℕ) (fate : Fate) : Report :=
  match word, fate with
  | some errno, _ => .exec errno
  | none, .exited status => .exited status
  | none, .signaled sig => .killed sig

def Report.code : Report → ℕ
  | .exec _ => 127
  | .exited status => status
  | .killed sig => 128 + sig
  | .noChild => 1

/-- The names are the same in the three programs. -/
def signalName (sig : ℕ) : String :=
  if sig = 0 then "SIG0"
  else
    (["", "HUP", "INT", "QUIT", "ILL", "TRAP", "ABRT", "BUS", "FPE", "KILL", "USR1", "SEGV", "USR2",
      "PIPE", "ALRM", "TERM", "STKFLT", "CHLD", "CONT", "STOP", "TSTP", "TTIN", "TTOU", "URG",
      "XCPU", "XFSZ", "VTALRM", "PROF", "WINCH", "IO", "PWR", "SYS"][sig]?).getD
      ("SIG" ++ toString sig)

/-- The line in front of the resource usage, or the error. -/
def Report.line (cmd : String) (pid : ℕ) (strerror : ℕ → String) : Report → String
  | .exec errno => "pmon: exec " ++ cmd ++ ": " ++ strerror errno
  | .exited status => "pmon: pid " ++ toString pid ++ " exited status " ++ toString status
  | .killed sig => "pmon: pid " ++ toString pid ++ " killed by signal " ++ toString sig ++ " (" ++
      signalName sig ++ ")"
  | .noChild => "pmon: waitpid: No child processes"

namespace State

variable (s : State)

def dies (fate : Fate) : State := { s with child := .zombie fate, fate := some fate }

/-- The parent. Where SIGCHLD is ignored, the kernel reaps the child, and `waitpid` finds none. -/
def parentStep (ignored : Bool) : Act → Option State
  | .closeWrite =>
    match s.parent with
    | .forked => some { s with parent := .reads }
    | _ => none
  | .read =>
    match s.parent, s.pipe with
    | .reads, word :: rest => some { s with parent := .waits (some word), pipe := rest }
    | .reads, [] => if s.child.holdsPipe then none else some { s with parent := .waits none }
    | _, _ => none
  | .wait =>
    match s.parent, s.child with
    | .waits word, .zombie fate =>
      some { s with
        parent := .returned (if ignored then .noChild else report word fate)
        child := .reaped }
    | _, _ => none
  | .interrupt =>
    match s.parent with
    | .reads | .waits _ => some s
    | _ => none
  | _ => none

def childStep : Act → Option State
  | .closeRead =>
    match s.child with
    | .forked => some { s with child := .execs }
    | _ => none
  | .execvp errno =>
    match s.child, errno with
    | .execs, none => some { s with child := .command, attempt := some none }
    | .execs, some errno => some { s with child := .refused errno, attempt := some (some errno) }
    | _, _ => none
  | .write =>
    match s.child with
    | .refused errno => some { s with child := .told, pipe := s.pipe ++ [errno], sent := some errno }
    | _ => none
  | .exit =>
    match s.child with
    | .told => some (s.dies (.exited 127))
    | _ => none
  | .finish fate =>
    match s.child with
    | .command => some (s.dies fate)
    | _ => none
  | .kill sig => if s.child.alive then some (s.dies (.signaled sig)) else none
  | _ => none

def step (ignored : Bool) (a : Act) : Option State :=
  match s.parentStep ignored a with
  | some t => some t
  | none => s.childStep a

end State

/-- From the fork on. -/
def run (ignored : Bool) : Machine State Act :=
  ⟨{}, fun s a => s.step ignored a⟩

/-! What is reported. -/

/-- The parent has read what the child has told, once nobody can tell any more. -/
def Heard (ignored : Bool) (s : State) : Prop :=
  match s.parent with
  | .forked | .reads => s.pipe = s.sent.toList ∧ s.child ≠ .reaped
  | .waits word => s.pipe = [] ∧ word = s.sent ∧ s.child ≠ .reaped ∧
      (word = none → s.child.holdsPipe = false)
  | .returned r => s.child = .reaped ∧ ∃ fate, s.fate = some fate ∧
      r = if ignored then .noChild else report s.sent fate

/-- What the child has done so far. -/
def Told (s : State) : Prop :=
  match s.child with
  | .forked | .execs => s.attempt = none ∧ s.sent = none ∧ s.fate = none
  | .refused errno => s.attempt = some (some errno) ∧ s.sent = none ∧ s.fate = none
  | .told => s.sent ≠ none ∧ s.fate = none
  | .command => s.attempt = some none ∧ s.fate = none
  | .zombie fate => s.fate = some fate
  | .reaped => True

structure Inv (ignored : Bool) (s : State) : Prop where
  heard : Heard ignored s
  told : Told s
  sent : ∀ errno, s.sent = some errno → s.attempt = some (some errno)
  exited : ∀ status, s.fate = some (.exited status) → s.attempt = some none ∨ s.sent ≠ none

section Steps

variable {ignored : Bool} {s t : State} {a : Act}

theorem Inv.parentStep (inv : Inv ignored s) (taken : s.parentStep ignored a = some t) :
    Inv ignored t := by
  obtain ⟨heard, told, sent, exited⟩ := inv
  cases a with
  | closeWrite =>
    simp only [State.parentStep] at taken
    split at taken
    case h_1 parent =>
      cases taken
      rw [Heard, parent] at heard
      exact ⟨heard, told, sent, exited⟩
    case h_2 => cases taken
  | read =>
    simp only [State.parentStep] at taken
    split at taken
    case h_1 word rest parent pipe =>
      cases taken
      rw [Heard, parent] at heard
      obtain ⟨data, alive⟩ := heard
      obtain ⟨rfl, told'⟩ : rest = [] ∧ some word = s.sent := by
        rw [pipe] at data
        cases word' : s.sent with
        | none =>
          rw [word'] at data
          cases data
        | some errno =>
          rw [word'] at data
          cases data
          exact ⟨rfl, rfl⟩
      refine ⟨⟨rfl, told', alive, fun none => by cases none⟩, told, sent, exited⟩
    case h_2 parent pipe =>
      split_ifs at taken with holds
      cases taken
      rw [Heard, parent] at heard
      have silent : none = s.sent := by
        have data := heard.1
        rw [pipe] at data
        exact (Option.toList_eq_nil_iff.mp data.symm).symm
      exact ⟨⟨pipe, silent, heard.2, fun _ => Bool.eq_false_of_not_eq_true holds⟩, told, sent,
        exited⟩
    case h_3 => cases taken
  | wait =>
    simp only [State.parentStep] at taken
    split at taken
    case h_1 word fate parent child =>
      cases taken
      rw [Heard, parent] at heard
      rw [Told, child] at told
      exact ⟨⟨rfl, fate, told, by rw [heard.2.1]⟩, trivial, sent, exited⟩
    case h_2 => cases taken
  | interrupt =>
    simp only [State.parentStep] at taken
    split at taken
    case h_1 =>
      cases taken
      exact ⟨heard, told, sent, exited⟩
    case h_2 =>
      cases taken
      exact ⟨heard, told, sent, exited⟩
    case h_3 => cases taken
  | _ => cases taken

/-- A step of the child that tells nothing leaves what the parent has heard. -/
theorem heard_of_silent (heard : Heard ignored s) (parent : t.parent = s.parent)
    (pipe : t.pipe = s.pipe) (sent : t.sent = s.sent) (before : s.child ≠ .reaped)
    (after : t.child ≠ .reaped) (holds : t.child.holdsPipe → s.child.holdsPipe) :
    Heard ignored t := by
  rw [Heard] at heard ⊢
  rw [parent]
  cases phase : s.parent with
  | forked | reads =>
    rw [phase] at heard
    exact ⟨by rw [pipe, sent, heard.1], after⟩
  | waits word =>
    rw [phase] at heard
    obtain ⟨empty, same, -, closed⟩ := heard
    refine ⟨pipe.trans empty, same.trans sent.symm, after, fun none => ?_⟩
    rw [Bool.eq_false_iff]
    exact fun still => absurd (closed none) (by rw [holds still]; simp)
  | returned r =>
    rw [phase] at heard
    exact absurd heard.1 before

theorem Inv.dies (inv : Inv ignored s) (alive : s.child.alive) (fate : Fate)
    (exits : ∀ status, fate = .exited status → s.attempt = some none ∨ s.sent ≠ none) :
    Inv ignored (s.dies fate) := by
  refine ⟨heard_of_silent inv.heard rfl rfl rfl ?_ ?_ ?_, rfl, inv.sent, fun status ends => ?_⟩
  · rintro reaped
    rw [reaped] at alive
    cases alive
  · rintro ⟨⟩
  · intro holds
    cases holds
  · exact exits status (Option.some.inj ends)

theorem Inv.childStep (inv : Inv ignored s) (taken : s.childStep a = some t) : Inv ignored t := by
  have told := inv.told
  rw [Told] at told
  cases a with
  | closeRead =>
    simp only [State.childStep] at taken
    split at taken
    case h_1 child =>
      cases taken
      rw [child] at told
      exact ⟨heard_of_silent inv.heard rfl rfl rfl (by simp [child]) (by simp)
        (fun _ => by rw [child]; rfl), told, inv.sent, inv.exited⟩
    case h_2 => cases taken
  | execvp errno =>
    simp only [State.childStep] at taken
    split at taken
    case h_1 child =>
      cases taken
      rw [child] at told
      obtain ⟨-, silent, lives⟩ := told
      refine ⟨heard_of_silent inv.heard rfl rfl rfl (by simp [child]) (by simp)
        (fun _ => by rw [child]; rfl), ⟨rfl, lives⟩, fun errno known => ?_, fun _ _ => .inl rfl⟩
      exact absurd (silent.symm.trans known) (by simp)
    case h_2 errno child =>
      cases taken
      rw [child] at told
      obtain ⟨-, silent, lives⟩ := told
      refine ⟨heard_of_silent inv.heard rfl rfl rfl (by simp [child]) (by simp)
        (fun _ => by rw [child]; rfl), ⟨rfl, silent, lives⟩, fun errno known => ?_,
        fun status ends => ?_⟩
      · exact absurd (silent.symm.trans known) (by simp)
      · exact absurd (lives.symm.trans ends) (by simp)
    case h_3 => cases taken
  | write =>
    simp only [State.childStep] at taken
    split at taken
    case h_1 errno child =>
      cases taken
      rw [child] at told
      obtain ⟨tried, silent, lives⟩ := told
      refine ⟨?_, ⟨by simp, lives⟩, fun errno known => ?_, fun status ends => ?_⟩
      · have heard := inv.heard
        rw [Heard] at heard ⊢
        cases phase : s.parent with
        | forked | reads =>
          rw [phase] at heard
          have empty : s.pipe = [] := by
            rw [heard.1, silent]
            rfl
          exact ⟨by rw [empty]; rfl, by simp⟩
        | waits word =>
          -- the parent cannot have read the end of a pipe that the child holds
          rw [phase] at heard
          have closed := heard.2.2.2 (heard.2.1.trans silent)
          rw [child] at closed
          cases closed
        | returned r =>
          rw [phase, child] at heard
          cases heard.1
      · rw [← Option.some.inj known]
        exact tried
      · exact absurd (lives.symm.trans ends) (by simp)
    case h_2 => cases taken
  | exit =>
    simp only [State.childStep] at taken
    split at taken
    case h_1 child =>
      cases taken
      rw [child] at told
      exact inv.dies (by rw [child]; rfl) _ fun _ _ => .inr told.1
    case h_2 => cases taken
  | finish fate =>
    simp only [State.childStep] at taken
    split at taken
    case h_1 child =>
      cases taken
      rw [child] at told
      exact inv.dies (by rw [child]; rfl) _ fun _ _ => .inl told.1
    case h_2 => cases taken
  | kill sig =>
    simp only [State.childStep] at taken
    split_ifs at taken with alive
    cases taken
    exact inv.dies alive _ fun status ends => by cases ends
  | _ => cases taken

theorem Inv.step (inv : Inv ignored s) (taken : s.step ignored a = some t) : Inv ignored t := by
  rw [State.step] at taken
  split at taken
  case h_1 next parent =>
    rw [← Option.some.inj taken]
    exact inv.parentStep parent
  case h_2 => exact inv.childStep taken

theorem inv_of_run {acts : List Act} (reached : (run ignored).run? acts = some s) :
    Inv ignored s := by
  refine Machine.run?_keeps ?_ (fun s a t inv taken => inv.step taken) reached
  refine ⟨⟨rfl, by simp [run]⟩, ⟨rfl, rfl, rfl⟩, fun _ known => ?_, fun _ ends => ?_⟩
  · cases known
  · cases ends

end Steps

/-- What `pmon run` returns, in whatever order the processes went and whenever the child was killed:
the error of a failed `execvp`, the status of a command that has run, or the signal that ended a child
before it could tell. With SIGCHLD ignored it is always the error of `waitpid`. -/
theorem run_returned_iff (ignored : Bool) (acts : List Act) (s : State) (r : Report)
    (reached : (run ignored).run? acts = some s) (returned : s.parent = .returned r) :
    if ignored then r = .noChild
    else
      (∀ errno, r = .exec errno ↔ s.attempt = some (some errno) ∧ s.sent = some errno) ∧
      (∀ status, r = .exited status ↔ s.attempt = some none ∧ s.fate = some (.exited status)) ∧
      (∀ sig, r = .killed sig ↔ s.sent = none ∧ s.fate = some (.signaled sig)) ∧ r ≠ .noChild := by
  have inv := inv_of_run reached
  have heard := inv.heard
  rw [Heard, returned] at heard
  obtain ⟨-, fate, ended, rfl⟩ := heard
  cases ignored with
  | true => rfl
  | false =>
    simp only [Bool.false_eq_true, if_false]
    cases told : s.sent with
    | some errno =>
      have tried := inv.sent errno told
      simp [report, tried]
    | none =>
      cases fate with
      | exited status =>
        have ran := (inv.exited status ended).resolve_right (not_not.mpr told)
        simp [report, ran, ended]
      | signaled sig => simp [report, ended]

/-- One command that fails to start, with the parent slow to close its end. -/
theorem run_returned_iff_enoent :
    (run false).run? [.closeRead, .execvp (some 2), .write, .exit, .closeWrite, .read, .wait] =
        some ⟨.returned (.exec 2), .reaped, [], some (some 2), some 2, some (.exited 127)⟩ ∧
      ∀ status, Report.exec 2 = .exited status ↔
        some (some 2) = some none ∧ some (Fate.exited 127) = some (.exited status) := by
  have reached : (run false).run? [.closeRead, .execvp (some 2), .write, .exit, .closeWrite, .read,
    .wait] = some ⟨.returned (.exec 2), .reaped, [], some (some 2), some 2, some (.exited 127)⟩ :=
    rfl
  have both := run_returned_iff false _ _ _ reached rfl
  rw [if_neg Bool.false_ne_true] at both
  exact ⟨reached, both.2.1⟩

/-! That it returns. -/

def Parent.rank : Parent → ℕ
  | .forked => 3
  | .reads => 2
  | .waits _ => 1
  | .returned _ => 0

def Child.rank : Child → ℕ
  | .forked => 5
  | .execs => 4
  | .refused _ => 3
  | .told | .command => 2
  | .zombie _ | .reaped => 1

def State.rank (s : State) : ℕ := s.parent.rank + s.child.rank

section Progress

variable {ignored : Bool} {s t : State} {a : Act}

theorem rank_of_parentStep (taken : s.parentStep ignored a = some t) :
    t.rank + (if a = .interrupt then 0 else 1) = s.rank := by
  cases a with
  | closeWrite =>
    simp only [State.parentStep] at taken
    split at taken
    case h_1 parent =>
      cases taken
      simp only [State.rank, parent, Parent.rank, reduceCtorEq, if_false]
      omega
    case h_2 => cases taken
  | read =>
    simp only [State.parentStep] at taken
    split at taken
    case h_1 parent _ =>
      cases taken
      simp only [State.rank, parent, Parent.rank, reduceCtorEq, if_false]
      omega
    case h_2 parent _ =>
      split_ifs at taken
      cases taken
      simp only [State.rank, parent, Parent.rank, reduceCtorEq, if_false]
      omega
    case h_3 => cases taken
  | wait =>
    simp only [State.parentStep] at taken
    split at taken
    case h_1 parent child =>
      cases taken
      simp [State.rank, parent, child, Parent.rank, Child.rank]
    case h_2 => cases taken
  | interrupt =>
    simp only [State.parentStep] at taken
    split at taken
    case h_1 => cases taken; rfl
    case h_2 => cases taken; rfl
    case h_3 => cases taken
  | _ => cases taken

theorem rank_dies (alive : s.child.alive) (fate : Fate) : (s.dies fate).rank + 1 ≤ s.rank := by
  simp only [State.rank, State.dies]
  cases child : s.child <;> simp_all [Child.alive, Child.rank]

theorem rank_of_childStep (taken : s.childStep a = some t) : t.rank + 1 ≤ s.rank := by
  cases a with
  | closeRead | write =>
    simp only [State.childStep] at taken
    split at taken
    case h_1 child =>
      cases taken
      simp [State.rank, child, Child.rank]
    case h_2 => cases taken
  | execvp errno =>
    simp only [State.childStep] at taken
    split at taken
    case h_1 child =>
      cases taken
      simp [State.rank, child, Child.rank]
    case h_2 child =>
      cases taken
      simp [State.rank, child, Child.rank]
    case h_3 => cases taken
  | exit | finish fate =>
    simp only [State.childStep] at taken
    split at taken
    case h_1 child =>
      cases taken
      exact rank_dies (by rw [child]; rfl) _
    case h_2 => cases taken
  | kill sig =>
    simp only [State.childStep] at taken
    split_ifs at taken with alive
    cases taken
    exact rank_dies alive _
  | _ => cases taken

theorem rank_of_step (taken : s.step ignored a = some t) :
    t.rank + (if a = .interrupt then 0 else 1) ≤ s.rank := by
  rw [State.step] at taken
  split at taken
  case h_1 next parent =>
    rw [← Option.some.inj taken]
    exact (rank_of_parentStep parent).le
  case h_2 =>
    have falls := rank_of_childStep taken
    split <;> omega

/-- Somebody can go on: the parent, or the child it waits for. -/
theorem exists_step (inv : Inv ignored s) (short : ∀ r, s.parent ≠ .returned r) :
    ∃ a, a ≠ .interrupt ∧ (∀ sig, a ≠ .kill sig) ∧ (s.step ignored a).isSome := by
  have heard := inv.heard
  rw [Heard] at heard
  cases child : s.child with
  | forked =>
    refine ⟨.closeRead, by simp, by simp, ?_⟩
    simp [State.step, State.parentStep, State.childStep, child]
  | execs =>
    refine ⟨.execvp none, by simp, by simp, ?_⟩
    simp [State.step, State.parentStep, State.childStep, child]
  | refused errno =>
    refine ⟨.write, by simp, by simp, ?_⟩
    simp [State.step, State.parentStep, State.childStep, child]
  | told =>
    refine ⟨.exit, by simp, by simp, ?_⟩
    simp [State.step, State.parentStep, State.childStep, child]
  | command =>
    refine ⟨.finish (.exited 0), by simp, by simp, ?_⟩
    simp [State.step, State.parentStep, State.childStep, child]
  | zombie fate =>
    cases parent : s.parent with
    | forked =>
      refine ⟨.closeWrite, by simp, by simp, ?_⟩
      simp [State.step, State.parentStep, parent]
    | reads =>
      refine ⟨.read, by simp, by simp, ?_⟩
      cases pipe : s.pipe <;>
        simp [State.step, State.parentStep, parent, pipe, child, Child.holdsPipe]
    | waits word =>
      refine ⟨.wait, by simp, by simp, ?_⟩
      simp [State.step, State.parentStep, parent, child]
    | returned r => exact absurd parent (short r)
  | reaped =>
    cases parent : s.parent with
    | forked | reads =>
      rw [parent] at heard
      exact absurd child heard.2
    | waits word =>
      rw [parent] at heard
      exact absurd child heard.2.2.1
    | returned r => exact absurd parent (short r)

end Progress

/-- Besides interrupted calls no run has more than seven steps, and none stops before the parent has
returned: neither process waits for the other forever. -/
theorem run_ends (ignored : Bool) (acts : List Act) (s : State)
    (reached : (run ignored).run? acts = some s) :
    (acts.filter (· ≠ .interrupt)).length ≤ 7 ∧
      ((∀ r, s.parent ≠ .returned r) →
        ∃ a, a ≠ .interrupt ∧ (∀ sig, a ≠ .kill sig) ∧ ((run ignored).step s a).isSome) := by
  refine ⟨?_, exists_step (inv_of_run reached)⟩
  have falls (s : State) (a : Act) (t : State) (_ : True) (taken : (run ignored).step s a = some t) :
      True ∧ t.rank + (if decide (a ≠ .interrupt) then 1 else 0) ≤ s.rank := by
    have falls := rank_of_step taken
    refine ⟨trivial, ?_⟩
    by_cases interrupt : a = .interrupt <;> simp_all
  have count := (Machine.count_le_measure State.rank falls trivial reached).2
  have start : (run ignored).init.rank = 8 := rfl
  have last : 1 ≤ s.rank := by
    rw [State.rank]
    cases s.child <;> simp only [Child.rank] <;> omega
  omega

/-- A child that has not told yet, and a parent that was interrupted. -/
theorem run_ends_refused :
    ([Act.closeRead, .execvp (some 2), .closeWrite, .interrupt].filter (· ≠ .interrupt)).length ≤ 7 ∧
      ((∀ r, Parent.reads ≠ .returned r) →
        ∃ a, a ≠ .interrupt ∧ (∀ sig, a ≠ .kill sig) ∧
          ((run false).step ⟨.reads, .refused 2, [], some (some 2), none, none⟩ a).isSome) :=
  run_ends false [.closeRead, .execvp (some 2), .closeWrite, .interrupt] _ rfl

end LinuxSys.Pmon.Run
