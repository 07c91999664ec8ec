import LinuxSys.Lib.Machine
import LinuxSys.Lib.Socket

/-! # The C++ control server of ch19

`cmd_supervise` serves one control connection at a time: it reads a command, replies and closes.
A reaper thread collects the supervised child and restarts it after a backoff. The command `stop`
is the stop path: reply, set `stopping`, signal the child and wait until the reaper is done.
-/

namespace LinuxSys.Servers.Control

open Lib

def statusCommand : Bytes := [0x73, 0x74, 0x61, 0x74, 0x75, 0x73]
def logfdCommand : Bytes := [0x6C, 0x6F, 0x67, 0x66, 0x64]
def stopCommand : Bytes := [0x73, 0x74, 0x6F, 0x70]

def newline : UInt8 := 0x0A

/-- `stopping\n` -/
def stoppingReply : Bytes := stopCommand ++ [0x70, 0x69, 0x6E, 0x67, newline]

/-- `err unknown command\n` -/
def unknownReply : Bytes :=
  [0x65, 0x72, 0x72, 0x20, 0x75, 0x6E, 0x6B, 0x6E, 0x6F, 0x77, 0x6E, 0x20, 0x63, 0x6F, 0x6D, 0x6D,
    0x61, 0x6E, 0x64, newline]

def digits (n : ℕ) : Bytes := (Nat.toDigits 10 n).map fun c => UInt8.ofNat c.toNat

/-- `child={} uptime={}s restarts={}\n` -/
def statusReply (child uptime restarts : ℕ) : Bytes :=
  [0x63, 0x68, 0x69, 0x6C, 0x64, 0x3D] ++ digits child ++
    [0x20, 0x75, 0x70, 0x74, 0x69, 0x6D, 0x65, 0x3D] ++ digits uptime ++
    [0x73, 0x20, 0x72, 0x65, 0x73, 0x74, 0x61, 0x72, 0x74, 0x73, 0x3D] ++ digits restarts ++
    [newline]

/-- What the commands do, from what was read. -/
inductive Command where
  | status
  | logfd
  | stop
  | unknown
deriving DecidableEq, Repr

def parse (cmd : Bytes) : Command :=
  if cmd = statusCommand then .status
  else if cmd = logfdCommand then .logfd
  else if cmd = stopCommand then .stop
  else .unknown

/-- Where the control loop stands, with the bytes of a reply that are left to write. -/
inductive Main where
  | accepting
  | reading (cmd : Bytes)
  | replying (command : Command) (left : Bytes)
  | sendingFd
  | stopping
  | awaiting
  | returned (code : ℕ)
deriving DecidableEq, Repr

/-- Where the reaper stands. -/
inductive Reaper where
  | waiting (pid : ℕ)
  | reaped
  | backoff
  | spawning
  | spawned (pid : ℕ)
  | undoing
  | ended
deriving DecidableEq, Repr

structure State where
  status : Status := .running
  main : Main := .accepting
  /-- The socket of the current control connection. -/
  sock : Sock := {}
  /-- A `stop` was read from a client. -/
  asked : Bool := false
  reaper : Reaper
  child : ℕ
  restarts : ℕ := 0
  stopping : Bool := false
  childDone : Bool := false
  /-- The pids `stop` and the reaper sent SIGTERM to. -/
  termed : List ℕ := []

inductive Action where
  | accept
  | acceptError
  | disconnect
  | read (b : UInt8)
  | readEnd (uptime : ℕ)
  | write (w : Wrote)
  | sendmsg (w : Wrote)
  | setStopping
  | awaitChild
  | exit
  | waitpid
  | waitpidError
  | checkStopping
  | backoffEnd (elapsed : Bool)
  | spawn (pid : ℕ)
  | spawnError
  | recordChild
  | undo
deriving DecidableEq, Repr

/-- The reply to `status` is written with the mutex held. -/
def State.locked (s : State) : Bool :=
  match s.main with
  | .replying .status _ => true
  | _ => false

/-- A command is dispatched; the uptime is read off a clock. -/
def dispatch (s : State) (cmd : Bytes) (uptime : ℕ) : State :=
  match parse cmd with
  | .status => { s with main := .replying .status (statusReply s.child uptime s.restarts) }
  | .logfd => { s with main := .sendingFd }
  | .stop => { s with main := .replying .stop stoppingReply, asked := true }
  | .unknown => { s with main := .replying .unknown unknownReply }

/-- The reply is written or given up, and the connection is closed. -/
def afterReply : Command → Main
  | .stop => .stopping
  | _ => .accepting

def ended (s : State) : State := { s with reaper := .ended, childDone := true }

/-- What a running server does. -/
def act (s : State) : Action → Option State
  | .accept => if s.main = .accepting then some { s with main := .reading [], sock := {} } else none
  | .acceptError => if s.main = .accepting then some { s with main := .returned 1 } else none
  | .disconnect => some { s with sock := { s.sock with gone := true } }
  | .read b =>
    match s.main with
    | .reading cmd =>
      if cmd.length < 64 ∧ b ≠ newline then some { s with main := .reading (cmd ++ [b]) } else none
    | _ => none
  | .readEnd uptime =>
    match s.main with
    | .reading cmd => some (dispatch s cmd uptime)
    | _ => none
  | .write w =>
    match s.main with
    | .replying command left =>
      if w.possible s.sock left then
        if w = .pipe then some { s with status := .killed }
        else match w.rest left with
        | some (b :: rest) => some { s with main := .replying command (b :: rest) }
        | _ => some { s with main := afterReply command }
      else none
    | _ => none
  | .sendmsg w =>
    if s.main = .sendingFd ∧ w.possible s.sock [0x6F, 0x6B, newline] then
      if w = .pipe then some { s with status := .killed } else some { s with main := .accepting }
    else none
  | .setStopping =>
    if s.main = .stopping then
      some { s with main := .awaiting, stopping := true, termed := s.termed ++ [s.child] }
    else none
  | .awaitChild =>
    if s.main = .awaiting ∧ s.childDone then some { s with main := .returned 0 } else none
  | .exit =>
    match s.main with
    | .returned code => if s.reaper = .ended then some { s with status := .exited code } else none
    | _ => none
  | .waitpid =>
    match s.reaper with
    | .waiting _ => some { s with reaper := .reaped }
    | _ => none
  | .waitpidError =>
    match s.reaper with
    | .waiting _ => if s.locked then none else some (ended s)
    | _ => none
  | .checkStopping =>
    if s.reaper = .reaped ∧ s.locked = false then
      some (if s.stopping then ended s else { s with reaper := .backoff })
    else none
  | .backoffEnd elapsed =>
    if s.reaper = .backoff ∧ s.locked = false then
      if s.stopping then some (ended s)
      else if elapsed then some { s with reaper := .spawning } else none
    else none
  | .spawn pid => if s.reaper = .spawning then some { s with reaper := .spawned pid } else none
  | .spawnError => if s.reaper = .spawning ∧ s.locked = false then some (ended s) else none
  | .recordChild =>
    match s.reaper with
    | .spawned pid =>
      if s.locked then none
      else if s.stopping then some { s with reaper := .undoing, termed := s.termed ++ [pid] }
      else some { s with reaper := .waiting pid, child := pid, restarts := s.restarts + 1 }
    | _ => none
  | .undo => if s.reaper = .undoing ∧ s.locked = false then some (ended s) else none

def step (s : State) (a : Action) : Option State :=
  if s.status = .running then act s a else none

/-- The server listening, with its first child started. -/
def control (child : ℕ) : Machine State Action where
  init := { reaper := .waiting child, child := child }
  step := step

/-- No reply to a client that is gone, and no failing `accept`. -/
def spared (s : State) : Action → Bool
  | .write _ => !s.sock.broken
  | .sendmsg _ => !s.sock.broken
  | .acceptError => false
  | _ => true

/-- The control loop is past the command `stop`. -/
def Main.past : Main → Bool
  | .replying .stop _ => true
  | .stopping => true
  | .awaiting => true
  | .returned _ => true
  | _ => false

/-- The server was not killed, it returns only with status 0, and it leaves its loop only for a
client that sent `stop`. -/
structure Survives (s : State) : Prop where
  alive : s.status ≠ .killed
  exit : ∀ code, s.status = .exited code → code = 0 ∧ s.asked
  main : ∀ code, s.main = .returned code → code = 0
  asked : s.main.past → s.asked

namespace Survives

variable {s : State}

theorem init (child : ℕ) : Survives { reaper := .waiting child, child := child } := by
  constructor <;> simp [Main.past]

/-- A step of the reaper. -/
theorem of_reaper (inv : Survives s) {t : State} (status : t.status = s.status)
    (main : t.main = s.main) (asked : t.asked = s.asked) : Survives t := by
  refine ⟨?_, ?_, ?_, ?_⟩
  · rw [status]
    exact inv.alive
  · rw [status, asked]
    exact inv.exit
  · rw [main]
    exact inv.main
  · rw [main, asked]
    exact inv.asked

/-- A step of the control loop that stays before `stop`, or is taken behind it. -/
theorem of_main (inv : Survives s) {t : State} (status : t.status = s.status)
    (asked : s.asked → t.asked) (returned : ∀ code, t.main = .returned code → code = 0)
    (past : t.main.past → t.asked) : Survives t := by
  refine ⟨?_, ?_, returned, past⟩
  · rw [status]
    exact inv.alive
  · intro code ended
    rw [status] at ended
    obtain ⟨zero, before⟩ := inv.exit code ended
    exact ⟨zero, asked before⟩

theorem keeps (inv : Survives s) {a : Action} {t : State} (guard : spared s a)
    (taken : step s a = some t) : Survives t := by
  unfold step at taken
  split at taken
  swap
  · cases taken
  cases a <;> simp only [act] at taken
  case accept =>
    split_ifs at taken
    cases taken
    exact inv.of_main rfl id (by simp) (by simp [Main.past])
  case acceptError => cases guard
  case disconnect =>
    cases taken
    exact inv.of_reaper rfl rfl rfl
  case read b =>
    split at taken
    · split_ifs at taken
      cases taken
      exact inv.of_main rfl id (by simp) (by simp [Main.past])
    · cases taken
  case readEnd uptime =>
    split at taken
    · cases taken
      unfold dispatch
      split
      · exact inv.of_main rfl id (by simp) (by simp [Main.past])
      · exact inv.of_main rfl id (by simp) (by simp [Main.past])
      · exact inv.of_main rfl (fun _ => rfl) (by simp) fun _ => rfl
      · exact inv.of_main rfl id (by simp) (by simp [Main.past])
    · cases taken
  case write w =>
    split at taken
    · next command left replying =>
      split_ifs at taken with possible failed
      · exact absurd failed (Wrote.ne_pipe_of_possible possible (by simpa [spared] using guard))
      · have before : command = .stop → s.asked := by
          rintro rfl
          exact inv.asked (by rw [replying]; rfl)
        split at taken
        · cases taken
          refine inv.of_main rfl id (by simp) fun past => ?_
          cases command <;> first | exact before rfl | cases past
        · cases taken
          refine inv.of_main rfl id ?_ fun past => ?_
          · cases command <;> simp [afterReply]
          · cases command <;> first | exact before rfl | cases past
    · cases taken
  case sendmsg w =>
    split_ifs at taken with ready failed
    · exact absurd failed (Wrote.ne_pipe_of_possible ready.2 (by simpa [spared] using guard))
    · cases taken
      exact inv.of_main rfl id (by simp) (by simp [Main.past])
  case setStopping =>
    split_ifs at taken with stopping
    cases taken
    exact inv.of_main rfl id (by simp) fun _ => inv.asked (by rw [stopping]; rfl)
  case awaitChild =>
    split_ifs at taken with awaiting
    cases taken
    exact inv.of_main rfl id (by simp) fun _ => inv.asked (by rw [awaiting.1]; rfl)
  case exit =>
    split at taken
    · next code returned =>
      split_ifs at taken
      cases taken
      refine ⟨by simp, ?_, inv.main, inv.asked⟩
      rintro code' ⟨⟩
      exact ⟨inv.main code returned, inv.asked (by rw [returned]; rfl)⟩
    · cases taken
  case waitpid =>
    split at taken
    · cases taken
      exact inv.of_reaper rfl rfl rfl
    · cases taken
  case waitpidError =>
    split at taken
    · split_ifs at taken
      cases taken
      exact inv.of_reaper rfl rfl rfl
    · cases taken
  case checkStopping =>
    split_ifs at taken
    · cases taken
      exact inv.of_reaper rfl rfl rfl
    · cases taken
      exact inv.of_reaper rfl rfl rfl
  case backoffEnd elapsed =>
    split_ifs at taken
    · cases taken
      exact inv.of_reaper rfl rfl rfl
    · cases taken
      exact inv.of_reaper rfl rfl rfl
  case spawn pid =>
    split_ifs at taken
    cases taken
    exact inv.of_reaper rfl rfl rfl
  case spawnError =>
    split_ifs at taken
    cases taken
    exact inv.of_reaper rfl rfl rfl
  case recordChild =>
    split at taken
    · split_ifs at taken
      · cases taken
        exact inv.of_reaper rfl rfl rfl
      · cases taken
        exact inv.of_reaper rfl rfl rfl
    · cases taken
  case undo =>
    split_ifs at taken
    cases taken
    exact inv.of_reaper rfl rfl rfl

end Survives

end LinuxSys.Servers.Control
