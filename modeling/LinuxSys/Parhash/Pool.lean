import LinuxSys.Lib.Machine
import LinuxSys.Parhash.Walk

/-! # The worker pool of parhash

A walker hands the files of the tree to workers, which hash them. C++ has a queue with a condition
variable that a stop token wakes, Rust a channel whose receiver is behind a mutex, Go channels
without a buffer. A critical section is one step, and so is the reading of a file.
-/

namespace LinuxSys.Parhash

open Lib

def kFnvOffset : UInt64 := 0xcbf29ce484222325
def kFnvPrime : UInt64 := 0x00000100000001b3
def kBuf : ℕ := 64 * 1024

def fnvByte (hash : UInt64) (b : UInt8) : UInt64 := (hash ^^^ b.toUInt64) * kFnvPrime

/-- The loop of `hash_file` over what its reads return. -/
def hashFile (reads : List Bytes) : UInt64 :=
  reads.foldl (fun hash buf => buf.foldl fnvByte hash) kFnvOffset

/-- FNV-1a of a content. -/
def fnv1a (content : Bytes) : UInt64 := content.foldl fnvByte kFnvOffset

/-- The reads of a file return its content, up to a buffer at a time. -/
def Reads (content : Bytes) (reads : List Bytes) : Prop :=
  reads.flatten = content ∧ ∀ buf ∈ reads, buf ≠ [] ∧ buf.length ≤ kBuf

instance (content : Bytes) (reads : List Bytes) : Decidable (Reads content reads) :=
  inferInstanceAs (Decidable (_ ∧ _))

/-- A line of the output. -/
structure Line where
  rel : Bytes
  hash : UInt64
deriving DecidableEq, Repr

/-- Where a worker stands: at the head of its loop; asleep on the condition variable, before the
receiver's mutex or in its second `select`; in `recv`; with a file, or with its result before the
channel. -/
inductive Worker where
  | looking
  | waiting
  | receiving
  | hashing (rel : Bytes)
  | sending (line : Line)
  | finished
deriving DecidableEq, Repr

/-- Where the walker stands: between two entries; with a file that it is to hand over; before
`notify_one`; at the end of the walk; before the `notify_all` of `close`. -/
inductive Walker where
  | walking
  | handing (rel : Bytes)
  | notifying
  | closing
  | closed
  | ended
deriving DecidableEq, Repr

/-- The thread that waits for SIGINT in C++: before it, with the flag set, behind `request_stop` but
before its `notify_all`. -/
inductive Watcher where
  | watching
  | flagged
  | stopping
  | ended
deriving DecidableEq, Repr

/-- What is printed, the count if the run was not interrupted, and the exit status. -/
structure Report where
  lines : List Line
  files : Option ℕ
  status : ℕ
deriving DecidableEq, Repr

structure State where
  todo : List Visit
  walker : Walker := .walking
  queue : List Bytes := []
  worker : ℕ → Worker := fun _ => .looking
  /-- The worker that holds the receiver's mutex. -/
  holder : Option ℕ := none
  interrupted : Bool := false
  watcher : Watcher := .watching
  results : List Line := []
  /-- The main thread has all results. -/
  collected : Bool := false
  report : Option Report := none

/-- `target` is the sleeper that is woken, or the worker that receives. -/
inductive Action where
  | walk
  | hand (target : ℕ)
  | notify (target : ℕ)
  | look (w : ℕ)
  | receive (w : ℕ)
  | hash (w : ℕ) (reads : List Bytes)
  | send (w : ℕ)
  | sigint
  | watch
  | collect
  | check
  | spurious (w : ℕ)
deriving DecidableEq, Repr

/-- Sorted by path, bytewise. -/
def sortLines (lines : List Line) : List Line :=
  lines.mergeSort fun one other => decide (one.rel ≤ other.rel)

/-- A sleeper that is woken. -/
def Worker.wake : Worker → Worker
  | .waiting => .looking
  | w => w

namespace State

def setWorker (s : State) (w : ℕ) (x : Worker) : State :=
  { s with worker := Function.update s.worker w x }

def wakeAll (s : State) : State := { s with worker := fun w => (s.worker w).wake }

/-- The queue is closed, or the sending side of the channel is. -/
def shut (s : State) : Bool := s.walker = .closed || s.walker = .ended

/-- `request_stop` has been called. -/
def stopped (s : State) : Bool := s.watcher = .stopping || s.watcher = .ended && s.interrupted

/-- The walker's next step. It looks at the flag before each entry. -/
def walk (lang : Language) (s : State) : Option State :=
  match s.walker with
  | .walking =>
    if s.interrupted then some { s with walker := .closing, todo := [] }
    else
      match s.todo with
      | [] => some { s with walker := .closing }
      | .file rel :: rest => some { s with walker := .handing rel, todo := rest }
      | _ :: rest => some { s with todo := rest }
  | .closing => some { s with walker := if lang = .cpp then .closed else .ended }
  | .handing _ =>
    -- Go's `select` may take `ctx.Done` instead.
    if lang = .go ∧ s.interrupted then some { s with walker := .closing, todo := [] } else none
  | _ => none

/-- A file is handed over: into the queue, in Go to a worker that receives. -/
def hand (lang : Language) (workers : ℕ) (s : State) (target : ℕ) : Option State :=
  match s.walker with
  | .handing rel =>
    match lang with
    | .cpp => some { s with walker := .notifying, queue := s.queue ++ [rel] }
    | .rust => some { s with walker := .walking, queue := s.queue ++ [rel] }
    | .go =>
      if target < workers ∧ s.worker target = .waiting then
        some { s.setWorker target (.hashing rel) with walker := .walking }
      else none
  | _ => none

/-- `notify_one` wakes a sleeper if there is one, `notify_all` all of them. -/
def notify (workers : ℕ) (s : State) (target : ℕ) : Option State :=
  match s.walker with
  | .notifying =>
    if target < workers ∧ s.worker target = .waiting then
      some { s.setWorker target .looking with walker := .walking }
    else if ∀ w < workers, s.worker w ≠ .waiting then some { s with walker := .walking }
    else none
  | .closed => some { s.wakeAll with walker := .ended }
  | _ => none

/-- The head of a worker's loop: in C++ `pop`, which goes to sleep or does not. -/
def look (lang : Language) (s : State) (w : ℕ) : State :=
  match lang with
  | .cpp =>
    if s.stopped then s.setWorker w .finished
    else
      match s.queue with
      | rel :: rest => { s.setWorker w (.hashing rel) with queue := rest }
      | [] => s.setWorker w (if s.shut then .finished else .waiting)
  | _ => s.setWorker w (if s.interrupted then .finished else .waiting)

/-- A worker that waits takes the mutex, or one that has it receives; in Go it sees that the context
is cancelled or the channel closed. -/
def receive (lang : Language) (s : State) (w : ℕ) : Option State :=
  match lang, s.worker w with
  | .rust, .waiting =>
    if s.holder = none then some { s.setWorker w .receiving with holder := some w } else none
  | .rust, .receiving =>
    match s.queue with
    | rel :: rest => some { s.setWorker w (.hashing rel) with queue := rest, holder := none }
    | [] => if s.shut then some { s.setWorker w .finished with holder := none } else none
  | .go, .waiting => if s.interrupted ∨ s.shut then some (s.setWorker w .finished) else none
  | _, _ => none

/-- A file that cannot be read is skipped. -/
def hash (lang : Language) (root : Root) (s : State) (w : ℕ) (reads : List Bytes) :
    Option State :=
  match s.worker w with
  | .hashing rel =>
    match root.content rel with
    | none => some (s.setWorker w .looking)
    | some content =>
      if Reads content reads then
        let line := ⟨rel, hashFile reads⟩
        if lang = .go then some (s.setWorker w (.sending line))
        else some { s.setWorker w .looking with results := s.results ++ [line] }
      else none
  | _ => none

/-- All workers have returned and, in C++ and Rust, the walk, which is the main thread's. C++ then
stops the watcher. -/
def Joined (lang : Language) (workers : ℕ) (s : State) : Prop :=
  (∀ w < workers, s.worker w = .finished) ∧ (lang ≠ .go → s.walker = .ended) ∧
    s.watcher ≠ .flagged ∧ s.watcher ≠ .stopping

instance (lang : Language) (workers : ℕ) (s : State) : Decidable (s.Joined lang workers) :=
  inferInstanceAs (Decidable (_ ∧ _))

def finalCheck (s : State) : Report :=
  if s.interrupted then ⟨sortLines s.results, none, 130⟩
  else ⟨sortLines s.results, some s.results.length, 0⟩

def step (lang : Language) (workers : ℕ) (root : Root) (s : State) (a : Action) : Option State :=
  if s.report = none then
    match a with
    | .walk => s.walk lang
    | .hand target => s.hand lang workers target
    | .notify target => s.notify workers target
    | .look w => if w < workers ∧ s.worker w = .looking then some (s.look lang w) else none
    | .receive w => if w < workers then s.receive lang w else none
    | .hash w reads => if w < workers then s.hash lang root w reads else none
    | .send w =>
      if w < workers then
        match s.worker w with
        | .sending line => some { s.setWorker w .looking with results := s.results ++ [line] }
        | _ => none
      else none
    | .sigint =>
      if s.interrupted = false ∧ s.watcher = .watching then
        some { s with
          interrupted := true
          watcher := if lang = .cpp then .flagged else .watching }
      else none
    | .watch =>
      match s.watcher with
      | .flagged => some { s with watcher := .stopping }
      | .stopping => some { s.wakeAll with watcher := .ended }
      | _ => none
    | .collect =>
      if s.collected = false ∧ s.Joined lang workers then
        some { s with
          collected := true
          watcher := if lang = .cpp then .ended else s.watcher }
      else none
    | .check => if s.collected then some { s with report := some s.finalCheck } else none
    | .spurious w =>
      if lang = .cpp ∧ w < workers ∧ s.worker w = .waiting then some (s.setWorker w .looking)
      else none
  else none

end State

def pool (lang : Language) (workers : ℕ) (root : Root) : Machine State Action where
  init := { todo := root.walk lang }
  step := State.step lang workers root

end LinuxSys.Parhash
