import LinuxSys.Lib.Condvar

/-! # The bounded queue of workq

Producers push the payloads of their share of the indices, consumers pop and fold them, and the main
thread joins the producers, closes the queue and joins the consumers: the run without `--buggy`. A
queue is one mutex and two condition variables. C++ notifies before it releases the mutex, Rust
afterwards. `pushed` and `popped` are history, and so is an item's index.
-/

namespace LinuxSys.Workq

open Lib

def kGolden : UInt64 := 0x9E3779B97F4A7C15
def kMix1 : UInt64 := 0xBF58476D1CE4E5B9
def kMix2 : UInt64 := 0x94D049BB133111EB

def payload (seed i : UInt64) : UInt64 :=
  let x := seed + (i + 1) * kGolden
  let x := (x ^^^ (x >>> 30)) * kMix1
  let x := (x ^^^ (x >>> 27)) * kMix2
  x ^^^ (x >>> 31)

/-- What `parse` accepts. -/
structure Config where
  producers : ℕ
  consumers : ℕ
  items : ℕ
  cap : ℕ
  seed : UInt64
  someProducer : 1 ≤ producers
  someConsumer : 1 ≤ consumers
  someRoom : 1 ≤ cap

inductive Impl where
  | cpp
  | rust
deriving DecidableEq, Repr

inductive Thread where
  | producer (p : ℕ)
  | consumer (c : ℕ)
  | main
deriving DecidableEq, Repr

structure Item where
  index : ℕ
  value : UInt64
deriving DecidableEq, Repr

/-- Where a producer stands with index `i`: before `push`, in its critical section, on `not_full`,
and behind `push_back`. -/
inductive Producer where
  | loop (i : ℕ)
  | checking (i : ℕ)
  | waiting (i : ℕ)
  | woken (i : ℕ)
  | pushed (i : ℕ)
  | notified (i : ℕ)
  | unlocked (i : ℕ)
  | returned (i : ℕ)
  | finished (i : ℕ)
deriving DecidableEq, Repr

/-- Where a consumer stands, with the item that it has popped. -/
inductive Consumer where
  | loop
  | checking
  | waiting
  | woken
  | popped (item : Item)
  | notified (item : Item)
  | unlocked (item : Item)
  | returned (item : Item)
  | finished
deriving DecidableEq, Repr

/-- Where the main thread stands; `locked` is in `close`, `unlocked` before its `notify_all`. -/
inductive Main where
  | joining
  | closing
  | locked
  | unlocked
  | draining
  | finished
deriving DecidableEq, Repr

structure State where
  holder : Option Thread := none
  queue : List Item := []
  closed : Bool := false
  producer : ℕ → Producer := fun p => .loop p
  consumer : ℕ → Consumer := fun _ => .loop
  main : Main := .joining
  produced : ℕ := 0
  counts : ℕ → ℕ := fun _ => 0
  sums : ℕ → UInt64 := fun _ => 0
  pushed : List Item := []
  popped : List (ℕ × Item) := []

/-- `target` is the waiter that a `notify_one` wakes. -/
inductive Action where
  | move (who : Thread) (target : ℕ)
  | spurious (who : Thread)
deriving DecidableEq, Repr

def Producer.isFinished : Producer → Bool
  | finished _ => true
  | _ => false

def Producer.isWaiting : Producer → Bool
  | waiting _ => true
  | _ => false

/-- A waiter that is woken. -/
def Producer.wake : Producer → Producer
  | waiting i => woken i
  | p => p

def Consumer.wake : Consumer → Consumer
  | waiting => woken
  | c => c

namespace State

def setProducer (s : State) (p : ℕ) (phase : Producer) : State :=
  { s with producer := Function.update s.producer p phase }

def setConsumer (s : State) (c : ℕ) (phase : Consumer) : State :=
  { s with consumer := Function.update s.consumer c phase }

def setHolder (s : State) (holder : Option Thread) : State := { s with holder }

/-- `not_empty.notify_one()`: a waiter is woken, if there is one. -/
def notifyNotEmpty (cfg : Config) (s : State) (target : ℕ) : Option State :=
  if target < cfg.consumers ∧ s.consumer target = .waiting then some (s.setConsumer target .woken)
  else if ∀ c < cfg.consumers, s.consumer c ≠ .waiting then some s
  else none

/-- `not_full.notify_one()`. -/
def notifyNotFull (cfg : Config) (s : State) (target : ℕ) : Option State :=
  if target < cfg.producers ∧ (s.producer target).isWaiting then
    some (s.setProducer target (s.producer target).wake)
  else if ∀ p < cfg.producers, (s.producer p).isWaiting = false then some s
  else none

def stepProducer (impl : Impl) (cfg : Config) (s : State) (p target : ℕ) : Option State :=
  match s.producer p with
  | .loop i =>
    if i < cfg.items then
      if s.holder = none then
        some ((s.setProducer p (.checking i)).setHolder (some (.producer p)))
      else none
    else some (s.setProducer p (.finished i))
  | .woken i =>
    if s.holder = none then some ((s.setProducer p (.checking i)).setHolder (some (.producer p)))
    else none
  | .checking i =>
    if s.queue.length < cfg.cap then
      let item := ⟨i, payload cfg.seed (UInt64.ofNat i)⟩
      some { s.setProducer p (.pushed i) with
        queue := s.queue ++ [item]
        pushed := s.pushed ++ [item] }
    else some ((s.setProducer p (.waiting i)).setHolder none)
  | .pushed i =>
    match impl with
    | .cpp => (s.notifyNotEmpty cfg target).map (·.setProducer p (.notified i))
    | .rust => some ((s.setProducer p (.unlocked i)).setHolder none)
  | .notified i => some ((s.setProducer p (.returned i)).setHolder none)
  | .unlocked i => (s.notifyNotEmpty cfg target).map (·.setProducer p (.returned i))
  | .returned i =>
    some { s.setProducer p (.loop (i + cfg.producers)) with produced := s.produced + 1 }
  | .waiting _ | .finished _ => none

def stepConsumer (impl : Impl) (cfg : Config) (s : State) (c target : ℕ) : Option State :=
  match s.consumer c with
  | .loop | .woken =>
    if s.holder = none then some ((s.setConsumer c .checking).setHolder (some (.consumer c)))
    else none
  | .checking =>
    match s.queue with
    | item :: rest =>
      some { s.setConsumer c (.popped item) with
        queue := rest
        popped := s.popped ++ [(c, item)] }
    | [] =>
      if s.closed then some ((s.setConsumer c .finished).setHolder none)
      else some ((s.setConsumer c .waiting).setHolder none)
  | .popped item =>
    match impl with
    | .cpp => (s.notifyNotFull cfg target).map (·.setConsumer c (.notified item))
    | .rust => some ((s.setConsumer c (.unlocked item)).setHolder none)
  | .notified item => some ((s.setConsumer c (.returned item)).setHolder none)
  | .unlocked item => (s.notifyNotFull cfg target).map (·.setConsumer c (.returned item))
  | .returned item =>
    some { s.setConsumer c .loop with
      counts := Function.update s.counts c (s.counts c + 1)
      sums := Function.update s.sums c (s.sums c ^^^ item.value) }
  | .waiting | .finished => none

def stepMain (cfg : Config) (s : State) : Option State :=
  match s.main with
  | .joining =>
    if ∀ p < cfg.producers, (s.producer p).isFinished then some { s with main := .closing }
    else none
  | .closing =>
    if s.holder = none then some { s with main := .locked, holder := some .main } else none
  | .locked => some { s with main := .unlocked, closed := true, holder := none }
  | .unlocked => some { s with main := .draining, consumer := fun c => (s.consumer c).wake }
  | .draining =>
    if ∀ c < cfg.consumers, s.consumer c = .finished then some { s with main := .finished }
    else none
  | .finished => none

def step (impl : Impl) (cfg : Config) (s : State) : Action → Option State
  | .move (.producer p) target =>
    if p < cfg.producers then s.stepProducer impl cfg p target else none
  | .move (.consumer c) target =>
    if c < cfg.consumers then s.stepConsumer impl cfg c target else none
  | .move .main _ => s.stepMain cfg
  | .spurious (.producer p) =>
    if p < cfg.producers ∧ (s.producer p).isWaiting then
      some (s.setProducer p (s.producer p).wake)
    else none
  | .spurious (.consumer c) =>
    if c < cfg.consumers ∧ s.consumer c = .waiting then some (s.setConsumer c .woken) else none
  | .spurious .main => none

/-- The threads that have been started. -/
def Started (cfg : Config) : Thread → Prop
  | .producer p => p < cfg.producers
  | .consumer c => c < cfg.consumers
  | .main => True

def finished (s : State) : Thread → Bool
  | .producer p => (s.producer p).isFinished
  | .consumer c => decide (s.consumer c = .finished)
  | .main => decide (s.main = .finished)

/-- Unless it is woken, the thread cannot take a step. -/
def Blocked (impl : Impl) (cfg : Config) (s : State) (who : Thread) : Prop :=
  ∀ target, s.step impl cfg (.move who target) = none

/-- Some threads are unfinished, and all of these are blocked. -/
def Deadlocked (impl : Impl) (cfg : Config) (s : State) : Prop :=
  (∃ who, Started cfg who ∧ s.finished who = false) ∧
    ∀ who, Started cfg who → s.finished who = false → s.Blocked impl cfg who

end State

def workq (impl : Impl) (cfg : Config) : Machine State Action where
  init := {}
  step := State.step impl cfg

/-- The XOR of a list. -/
def xorAll (values : List UInt64) : UInt64 := values.foldl (· ^^^ ·) 0

/-- What the main thread adds up after the joins. -/
def State.consumed (cfg : Config) (s : State) : ℕ :=
  ((List.range cfg.consumers).map s.counts).foldl (· + ·) 0

def State.checksum (cfg : Config) (s : State) : UInt64 :=
  xorAll ((List.range cfg.consumers).map s.sums)

end LinuxSys.Workq
