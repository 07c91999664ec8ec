import LinuxSys.Workq.Queue

/-! # Why workq does not get stuck

Every step keeps both condition variables covered: a consumer sleeps on `not_empty` only while each
item has a thread that is on its way to it, a producer on `not_full` only while each free slot has.
What is left without a step is then a finished run.
-/

namespace LinuxSys.Workq

open Lib

def Producer.locked : Producer → Bool
  | checking _ | pushed _ | notified _ => true
  | _ => false

def Producer.stand : Producer → Stand
  | waiting _ => .asleep
  | checking _ | woken _ => .awake
  | _ => .away

/-- An item has been pushed and its notification is to come. -/
def Producer.owes : Producer → Bool
  | pushed _ | unlocked _ => true
  | _ => false

def Consumer.locked : Consumer → Bool
  | checking | popped _ | notified _ => true
  | _ => false

def Consumer.stand : Consumer → Stand
  | waiting => .asleep
  | checking | woken => .awake
  | _ => .away

def Consumer.owes : Consumer → Bool
  | popped _ | unlocked _ => true
  | _ => false

theorem Consumer.stand_eq_asleep_iff {x : Consumer} : x.stand = .asleep ↔ x = .waiting := by
  cases x <;> simp [stand]

theorem Producer.stand_eq_asleep_iff {x : Producer} : x.stand = .asleep ↔ x.isWaiting = true := by
  cases x <;> simp [stand, isWaiting]

theorem Producer.of_locked {x : Producer} (locked : x.locked = true) :
    x.isFinished = false ∧ x.stand ≠ .asleep := by
  cases x <;> simp_all [Producer.locked, isFinished, stand]

theorem Consumer.of_locked {x : Consumer} (locked : x.locked = true) :
    x ≠ .finished ∧ x.stand ≠ .asleep := by
  cases x <;> simp_all [Consumer.locked, stand]

/-- A producer that sleeps or has finished is not awake and owes nothing. -/
theorem Producer.of_idle {x : Producer} (idle : x.isFinished = false → x.stand = .asleep) :
    x.stand ≠ .awake ∧ x.owes = false := by
  cases x <;> simp_all [isFinished, stand, owes]

theorem Consumer.of_idle {x : Consumer} (idle : x ≠ .finished → x.stand = .asleep) :
    x.stand ≠ .awake ∧ x.owes = false := by
  cases x <;> simp_all [stand, owes]

theorem Consumer.wake_spec (x : Consumer) : x.wake.locked = x.locked ∧ x.wake.owes = x.owes ∧
    x.wake ≠ .waiting ∧ (x.wake = .finished → x = .finished) := by
  cases x <;> simp [wake, locked, owes]

def Main.closed : Main → Bool
  | unlocked | draining | finished => true
  | _ => false

namespace State

def locked (s : State) : Thread → Bool
  | .producer p => (s.producer p).locked
  | .consumer c => (s.consumer c).locked
  | .main => decide (s.main = .locked)

/-- The mutex, the two condition variables and the joins. -/
structure Sync (cfg : Config) (s : State) : Prop where
  owned : Owned (Started cfg) s.locked s.holder
  bounded : s.queue.length ≤ cfg.cap
  notEmpty : Covered (fun c => (s.consumer c).stand) cfg.consumers
    (count Producer.owes s.producer cfg.producers) s.queue.length
  notFull : Covered (fun p => (s.producer p).stand) cfg.producers
    (count Consumer.owes s.consumer cfg.consumers) (cfg.cap - s.queue.length)
  joined : s.main ≠ .joining → ∀ p < cfg.producers, (s.producer p).isFinished = true
  closed : s.closed = s.main.closed
  quiet : s.main = .draining ∨ s.main = .finished → ∀ c < cfg.consumers, s.consumer c ≠ .waiting
  spent : ∀ c, s.consumer c = .finished → s.closed = true ∧ s.queue = []
  drained : s.main = .finished → ∀ c < cfg.consumers, s.consumer c = .finished

variable {cfg : Config} {s : State} {p c : ℕ}

@[simp] theorem setProducer_producer (x : Producer) :
    (s.setProducer p x).producer = Function.update s.producer p x := rfl

@[simp] theorem setConsumer_consumer (x : Consumer) :
    (s.setConsumer c x).consumer = Function.update s.consumer c x := rfl

theorem locked_setProducer (x : Producer) :
    (s.setProducer p x).locked = Function.update s.locked (.producer p) x.locked := by
  funext t
  cases t with
  | producer q =>
    rcases eq_or_ne q p with rfl | apart
    · simp [locked]
    · simp [locked, apart]
  | consumer c => simp [locked, setProducer]
  | main => rfl

theorem locked_setConsumer (x : Consumer) :
    (s.setConsumer c x).locked = Function.update s.locked (.consumer c) x.locked := by
  funext t
  cases t with
  | producer q => simp [locked, setConsumer]
  | consumer d =>
    rcases eq_or_ne d c with rfl | apart
    · simp [locked]
    · simp [locked, apart]
  | main => rfl

theorem locked_main (m : Main) : ({ s with main := m } : State).locked =
    Function.update s.locked .main (decide (m = .locked)) := by
  funext t
  cases t with
  | producer q => simp [locked]
  | consumer d => simp [locked]
  | main => simp [locked]

theorem stand_setProducer (x : Producer) : (fun q => (Function.update s.producer p x q).stand) =
    Function.update (fun q => (s.producer q).stand) p x.stand :=
  Function.comp_update Producer.stand s.producer p x

theorem stand_setConsumer (x : Consumer) : (fun d => (Function.update s.consumer c x d).stand) =
    Function.update (fun d => (s.consumer d).stand) c x.stand :=
  Function.comp_update Consumer.stand s.consumer c x

theorem owed_setProducer (inside : p < cfg.producers) {x : Producer}
    (same : x.owes = (s.producer p).owes) :
    count Producer.owes (Function.update s.producer p x) cfg.producers =
      count Producer.owes s.producer cfg.producers := count_update_same inside same

theorem owed_setConsumer (inside : c < cfg.consumers) {x : Consumer}
    (same : x.owes = (s.consumer c).owes) :
    count Consumer.owes (Function.update s.consumer c x) cfg.consumers =
      count Consumer.owes s.consumer cfg.consumers := count_update_same inside same

namespace Sync

theorem joined_setProducer (sync : s.Sync cfg) {x : Producer}
    (finished : (s.producer p).isFinished = true → x.isFinished = true)
    (past : s.main ≠ .joining) (q : ℕ) (other : q < cfg.producers) :
    ((s.setProducer p x).producer q).isFinished = true := by
  have before := sync.joined past q other
  rcases eq_or_ne q p with rfl | apart
  · rw [setProducer_producer, Function.update_self]
    exact finished before
  · rw [setProducer_producer, Function.update_of_ne apart]
    exact before

/-- A move of a producer that takes no part in the exchange of items. -/
theorem moveProducer (sync : s.Sync cfg) (inside : p < cfg.producers) {x : Producer}
    {holder : Option Thread} (owned : Owned (Started cfg) (s.setProducer p x).locked holder)
    (stand : x.stand = (s.producer p).stand ∨ x.stand = .awake)
    (owes : x.owes = (s.producer p).owes)
    (finished : (s.producer p).isFinished = true → x.isFinished = true) :
    ((s.setProducer p x).setHolder holder).Sync cfg := by
  refine { sync with
    owned := owned, notEmpty := ?_, notFull := ?_, joined := sync.joined_setProducer finished }
  · change Covered _ _ (count _ (Function.update s.producer p x) _) _
    rw [owed_setProducer inside owes]
    exact sync.notEmpty
  · change Covered (fun q => (Function.update s.producer p x q).stand) _ _ _
    rw [stand_setProducer]
    rcases stand with same | awake
    · rw [same, Function.update_eq_self (f := fun q => (s.producer q).stand)]
      exact sync.notFull
    · rw [awake]
      exact sync.notFull.rouse inside

theorem quiet_setConsumer (sync : s.Sync cfg) {x : Consumer}
    (asleep : x = .waiting → s.consumer c = .waiting)
    (past : s.main = .draining ∨ s.main = .finished) (d : ℕ) (other : d < cfg.consumers) :
    (s.setConsumer c x).consumer d ≠ .waiting := by
  have quiet := sync.quiet past d other
  rcases eq_or_ne d c with rfl | apart
  · rw [setConsumer_consumer, Function.update_self]
    exact fun waiting => quiet (asleep waiting)
  · rw [setConsumer_consumer, Function.update_of_ne apart]
    exact quiet

theorem spent_setConsumer (sync : s.Sync cfg) {x : Consumer} (after : x ≠ .finished) {d : ℕ}
    (ended : (s.setConsumer c x).consumer d = .finished) : s.closed = true ∧ s.queue = [] := by
  rcases eq_or_ne d c with rfl | apart
  · rw [setConsumer_consumer, Function.update_self] at ended
    exact absurd ended after
  · rw [setConsumer_consumer, Function.update_of_ne apart] at ended
    exact sync.spent d ended

/-- A move of a consumer that takes no part in the exchange of items. -/
theorem moveConsumer (sync : s.Sync cfg) (inside : c < cfg.consumers) {x : Consumer}
    {holder : Option Thread} (owned : Owned (Started cfg) (s.setConsumer c x).locked holder)
    (stand : x.stand = (s.consumer c).stand ∨ x.stand = .awake)
    (owes : x.owes = (s.consumer c).owes) (before : s.consumer c ≠ .finished)
    (after : x ≠ .finished) : ((s.setConsumer c x).setHolder holder).Sync cfg := by
  have asleep : x = .waiting → s.consumer c = .waiting := by
    rintro rfl
    rcases stand with same | awake
    · exact Consumer.stand_eq_asleep_iff.mp same.symm
    · cases awake
  refine { sync with
    owned := owned, notEmpty := ?_, notFull := ?_, quiet := sync.quiet_setConsumer asleep
    spent := fun d => sync.spent_setConsumer after
    drained := fun ended => absurd (sync.drained ended c inside) before }
  · change Covered (fun d => (Function.update s.consumer c x d).stand) _ _ _
    rw [stand_setConsumer]
    rcases stand with same | awake
    · rw [same, Function.update_eq_self (f := fun d => (s.consumer d).stand)]
      exact sync.notEmpty
    · rw [awake]
      exact sync.notEmpty.rouse inside
  · change Covered _ _ (count _ (Function.update s.consumer c x) _) _
    rw [owed_setConsumer inside owes]
    exact sync.notFull

/-- A producer pushes. -/
theorem push (sync : s.Sync cfg) (inside : p < cfg.producers) {i : ℕ}
    (here : s.producer p = .checking i) (room : s.queue.length < cfg.cap) (item : Item) :
    ({ s.setProducer p (.pushed i) with
      queue := s.queue ++ [item], pushed := s.pushed ++ [item] } : State).Sync cfg := by
  have working : (s.producer p).isFinished = false := by rw [here]; rfl
  have early : s.main = .joining := by
    by_contra past
    exact absurd (sync.joined past p inside) (by rw [working]; decide)
  refine ⟨?_, ?_, ?_, ?_, fun past => absurd early past, sync.closed, sync.quiet,
    fun c ended => ?_, sync.drained⟩
  · change Owned (Started cfg) (s.setProducer p (.pushed i)).locked s.holder
    rw [locked_setProducer]
    exact sync.owned.keep (by simp [locked, here, Producer.locked])
  · rw [List.length_append]
    exact room
  · change Covered _ _ (count _ (Function.update s.producer p (.pushed i)) _) (_ ++ [_]).length
    rw [count_update_gain inside (by rw [here]; rfl) rfl, List.length_append]
    exact sync.notEmpty.provide
  · change Covered (fun q => (Function.update s.producer p (.pushed i) q).stand) _ _
      (cfg.cap - (_ ++ [_]).length)
    rw [stand_setProducer, List.length_append, List.length_singleton]
    refine Covered.take ?_ inside (by rw [here]; rfl)
    have one : cfg.cap - s.queue.length = cfg.cap - (s.queue.length + 1) + 1 := by omega
    rw [← one]
    exact sync.notFull
  · have closed := (sync.spent c ended).1
    rw [sync.closed, early] at closed
    cases closed

/-- A consumer pops. -/
theorem pop (sync : s.Sync cfg) (inside : c < cfg.consumers) {item : Item} {rest : List Item}
    (here : s.consumer c = .checking) (first : s.queue = item :: rest) :
    ({ s.setConsumer c (.popped item) with
      queue := rest, popped := s.popped ++ [(c, item)] } : State).Sync cfg := by
  have bounded := sync.bounded
  have notEmpty := sync.notEmpty
  have notFull := sync.notFull
  rw [first, List.length_cons] at bounded notEmpty notFull
  refine ⟨?_, ?_, ?_, ?_, sync.joined, sync.closed, sync.quiet_setConsumer (by simp),
    fun d ended => ?_, fun ended => ?_⟩
  · change Owned (Started cfg) (s.setConsumer c (.popped item)).locked s.holder
    rw [locked_setConsumer]
    exact sync.owned.keep (by simp [locked, here, Consumer.locked])
  · exact Nat.le_of_succ_le bounded
  · change Covered (fun d => (Function.update s.consumer c (.popped item) d).stand) _ _ _
    rw [stand_setConsumer]
    exact notEmpty.take inside (by rw [here]; rfl)
  · change Covered _ _ (count _ (Function.update s.consumer c (.popped item)) _) (_ - rest.length)
    rw [count_update_gain inside (by rw [here]; rfl) rfl]
    have one : cfg.cap - rest.length = cfg.cap - (rest.length + 1) + 1 := by omega
    rw [one]
    exact notFull.provide
  · have empty := (sync.spent_setConsumer (by simp) ended).2
    rw [first] at empty
    cases empty
  · have ended := sync.drained ended c inside
    rw [here] at ended
    cases ended

/-- A producer finds no room. -/
theorem sleepProducer (sync : s.Sync cfg) {i : ℕ} (inside : p < cfg.producers)
    (here : s.producer p = .checking i) (full : ¬ s.queue.length < cfg.cap) :
    ((s.setProducer p (.waiting i)).setHolder none).Sync cfg := by
  have working : (s.producer p).isFinished = false := by rw [here]; rfl
  refine { sync with
    owned := ?_, notEmpty := ?_, notFull := ?_
    joined := sync.joined_setProducer fun ended => absurd ended (by rw [working]; decide) }
  · change Owned (Started cfg) (s.setProducer p (.waiting i)).locked none
    rw [locked_setProducer]
    exact sync.owned.release inside (by simp [locked, here, Producer.locked])
  · change Covered _ _ (count _ (Function.update s.producer p (.waiting i)) _) _
    rw [owed_setProducer inside (by rw [here]; rfl)]
    exact sync.notEmpty
  · have none : cfg.cap - s.queue.length = 0 := by omega
    change Covered _ _ _ (cfg.cap - s.queue.length)
    rw [none]
    exact Covered.empty _ _ _

/-- A consumer finds the queue empty: it waits or, once the queue is closed, is done. -/
theorem leaveConsumer (sync : s.Sync cfg) (inside : c < cfg.consumers)
    (here : s.consumer c = .checking) (empty : s.queue = []) {x : Consumer}
    (next : x = .waiting ∧ s.closed = false ∨ x = .finished ∧ s.closed = true) :
    ((s.setConsumer c x).setHolder none).Sync cfg := by
  have away : x.locked = false ∧ x.owes = false := by
    rcases next with ⟨rfl, -⟩ | ⟨rfl, -⟩ <;> exact ⟨rfl, rfl⟩
  refine ⟨?_, sync.bounded, ?_, ?_, sync.joined, sync.closed, fun past => ?_, fun d ended => ?_,
    fun ended => ?_⟩
  · change Owned (Started cfg) (s.setConsumer c x).locked none
    rw [locked_setConsumer, away.1]
    exact sync.owned.release inside (by simp [locked, here, Consumer.locked])
  · change Covered _ _ _ s.queue.length
    rw [empty]
    exact Covered.empty _ _ _
  · change Covered _ _ (count _ (Function.update s.consumer c x) _) _
    rw [owed_setConsumer inside (by rw [here, away.2]; rfl)]
    exact sync.notFull
  · refine sync.quiet_setConsumer ?_ past
    rintro rfl
    have closed := sync.closed
    rcases past with draining | finished
    · change s.main = .draining at draining
      rw [draining] at closed
      simp [closed, Main.closed] at next
    · change s.main = .finished at finished
      rw [finished] at closed
      simp [closed, Main.closed] at next
  · change Function.update s.consumer c x d = .finished at ended
    rcases eq_or_ne d c with rfl | apart
    · rw [Function.update_self] at ended
      rcases next with ⟨rfl, -⟩ | ⟨-, closed⟩
      · cases ended
      · exact ⟨closed, empty⟩
    · rw [Function.update_of_ne apart] at ended
      exact sync.spent d ended
  · have ended := sync.drained ended c inside
    rw [here] at ended
    cases ended

theorem notifyNotEmpty_cases {target : ℕ} {u : State}
    (notified : s.notifyNotEmpty cfg target = some u) :
    (target < cfg.consumers ∧ s.consumer target = .waiting ∧ u = s.setConsumer target .woken) ∨
      (∀ c < cfg.consumers, s.consumer c ≠ .waiting) ∧ u = s := by
  rw [notifyNotEmpty] at notified
  split_ifs at notified with waiting none
  · cases notified
    exact .inl ⟨waiting.1, waiting.2, rfl⟩
  · cases notified
    exact .inr ⟨none, rfl⟩

theorem notifyNotFull_cases {target : ℕ} {u : State}
    (notified : s.notifyNotFull cfg target = some u) :
    (∃ i, target < cfg.producers ∧ s.producer target = .waiting i ∧
      u = s.setProducer target (.woken i)) ∨
      (∀ p < cfg.producers, (s.producer p).isWaiting = false) ∧ u = s := by
  rw [notifyNotFull] at notified
  split_ifs at notified with waiting none
  · cases notified
    obtain ⟨inside, asleep⟩ := waiting
    cases phase : s.producer target with
    | waiting i => exact .inl ⟨i, inside, rfl, rfl⟩
    | _ =>
      rw [phase] at asleep
      cases asleep
  · cases notified
    exact .inr ⟨none, rfl⟩

/-- Someone who is woken is not noticed by the lock. -/
theorem owned_wakeConsumer (sync : s.Sync cfg) (asleep : s.consumer c = .waiting) :
    Owned (Started cfg) (s.setConsumer c .woken).locked s.holder := by
  rw [locked_setConsumer]
  exact sync.owned.keep (by simp [locked, asleep, Consumer.locked])

theorem owned_wakeProducer (sync : s.Sync cfg) {i : ℕ} (asleep : s.producer p = .waiting i) :
    Owned (Started cfg) (s.setProducer p (.woken i)).locked s.holder := by
  rw [locked_setProducer]
  exact sync.owned.keep (by simp [locked, asleep, Producer.locked])

theorem wakeConsumer (sync : s.Sync cfg) (inside : c < cfg.consumers)
    (asleep : s.consumer c = .waiting) : (s.setConsumer c .woken).Sync cfg :=
  sync.moveConsumer inside (sync.owned_wakeConsumer asleep) (.inr rfl) (by rw [asleep]; rfl)
    (by rw [asleep]; simp) (by simp)

theorem wakeProducer (sync : s.Sync cfg) {i : ℕ} (inside : p < cfg.producers)
    (asleep : s.producer p = .waiting i) : (s.setProducer p (.woken i)).Sync cfg :=
  sync.moveProducer inside (sync.owned_wakeProducer asleep) (.inr rfl) (by rw [asleep]; rfl)
    (by rw [asleep]; exact id)

/-- A producer issues the notification that it owes. -/
theorem notifyNotEmpty (sync : s.Sync cfg) {target : ℕ} {u : State} (inside : p < cfg.producers)
    (owing : (s.producer p).owes = true) (notified : s.notifyNotEmpty cfg target = some u)
    {x : Producer} {holder : Option Thread} (paid : x.owes = false)
    (stand : x.stand = (s.producer p).stand)
    (owned : Owned (Started cfg) (u.setProducer p x).locked holder) :
    ((u.setProducer p x).setHolder holder).Sync cfg := by
  have loss : count Producer.owes (Function.update s.producer p x) cfg.producers + 1 =
      count Producer.owes s.producer cfg.producers := count_update_loss inside owing paid
  have before := sync.notEmpty
  rw [← loss] at before
  have working : (s.producer p).isFinished = false := by
    cases phase : s.producer p <;> rw [phase] at owing <;> first | rfl | cases owing
  have unfinished : (s.producer p).isFinished = true → x.isFinished = true := by
    rw [working]
    simp
  have stands : (fun q => (Function.update s.producer p x q).stand) =
      fun q => (s.producer q).stand := by
    rw [stand_setProducer, stand, Function.update_eq_self (f := fun q => (s.producer q).stand)]
  rcases notifyNotEmpty_cases notified with ⟨other, asleep, rfl⟩ | ⟨none, rfl⟩
  · have woken := sync.wakeConsumer other asleep
    refine { woken with
      owned := owned, notEmpty := ?_, notFull := ?_, joined := woken.joined_setProducer unfinished }
    · change Covered (fun d => (Function.update s.consumer target .woken d).stand) _ _ _
      rw [stand_setConsumer]
      exact before.notify other (by rw [asleep]; rfl)
    · change Covered (fun q => (Function.update s.producer p x q).stand) _ _ _
      rw [stands]
      exact woken.notFull
  · refine { sync with
      owned := owned, notEmpty := ?_, notFull := ?_, joined := sync.joined_setProducer unfinished }
    · refine Covered.of_awake fun d inside asleep => none d inside ?_
      exact Consumer.stand_eq_asleep_iff.mp asleep
    · change Covered (fun q => (Function.update u.producer p x q).stand) _ _ _
      rw [stands]
      exact sync.notFull

/-- A consumer issues the notification that it owes. -/
theorem notifyNotFull (sync : s.Sync cfg) {target : ℕ} {u : State} (inside : c < cfg.consumers)
    (owing : (s.consumer c).owes = true) (notified : s.notifyNotFull cfg target = some u)
    {x : Consumer} {holder : Option Thread} (paid : x.owes = false)
    (stand : x.stand = (s.consumer c).stand) (going : x ≠ .finished)
    (owned : Owned (Started cfg) (u.setConsumer c x).locked holder) :
    ((u.setConsumer c x).setHolder holder).Sync cfg := by
  have loss : count Consumer.owes (Function.update s.consumer c x) cfg.consumers + 1 =
      count Consumer.owes s.consumer cfg.consumers := count_update_loss inside owing paid
  have before := sync.notFull
  rw [← loss] at before
  have working : s.consumer c ≠ .finished := by
    intro ended
    rw [ended] at owing
    cases owing
  have awake : x = .waiting → s.consumer c = .waiting := by
    rintro rfl
    exact Consumer.stand_eq_asleep_iff.mp stand.symm
  have stands : (fun d => (Function.update s.consumer c x d).stand) =
      fun d => (s.consumer d).stand := by
    rw [stand_setConsumer, stand, Function.update_eq_self (f := fun d => (s.consumer d).stand)]
  rcases notifyNotFull_cases notified with ⟨i, other, asleep, rfl⟩ | ⟨none, rfl⟩
  · have woken := sync.wakeProducer other asleep
    refine { woken with
      owned := owned, notEmpty := ?_, notFull := ?_, quiet := woken.quiet_setConsumer awake
      spent := fun d => woken.spent_setConsumer going
      drained := fun ended => absurd (sync.drained ended c inside) working }
    · change Covered (fun d => (Function.update s.consumer c x d).stand) _ _ _
      rw [stands]
      exact woken.notEmpty
    · change Covered (fun q => (Function.update s.producer target (.woken i) q).stand) _ _ _
      rw [stand_setProducer]
      exact before.notify other (by rw [asleep]; rfl)
  · refine { sync with
      owned := owned, notEmpty := ?_, notFull := ?_, quiet := sync.quiet_setConsumer awake
      spent := fun d => sync.spent_setConsumer going
      drained := fun ended => absurd (sync.drained ended c inside) working }
    · change Covered (fun d => (Function.update u.consumer c x d).stand) _ _ _
      rw [stands]
      exact sync.notEmpty
    · refine Covered.of_awake fun q inside asleep => ?_
      have waiting : (u.producer q).isWaiting = true := Producer.stand_eq_asleep_iff.mp asleep
      rw [none q inside] at waiting
      cases waiting

theorem acquireProducer (sync : s.Sync cfg) (inside : p < cfg.producers) (free : s.holder = none)
    {x : Producer} (holds : x.locked = true) :
    Owned (Started cfg) (s.setProducer p x).locked (some (.producer p)) := by
  have owned := sync.owned
  rw [free] at owned
  rw [locked_setProducer, holds]
  exact owned.acquire inside

theorem releaseProducer (sync : s.Sync cfg) (inside : p < cfg.producers)
    (held : (s.producer p).locked = true) {x : Producer}
    (gone : x.locked = false) : Owned (Started cfg) (s.setProducer p x).locked none := by
  rw [locked_setProducer, gone]
  exact sync.owned.release inside held

theorem keepProducer (sync : s.Sync cfg) {x : Producer} (same : (s.producer p).locked = x.locked) :
    Owned (Started cfg) (s.setProducer p x).locked s.holder := by
  rw [locked_setProducer]
  exact sync.owned.keep same

theorem acquireConsumer (sync : s.Sync cfg) (inside : c < cfg.consumers) (free : s.holder = none)
    {x : Consumer} (holds : x.locked = true) :
    Owned (Started cfg) (s.setConsumer c x).locked (some (.consumer c)) := by
  have owned := sync.owned
  rw [free] at owned
  rw [locked_setConsumer, holds]
  exact owned.acquire inside

theorem releaseConsumer (sync : s.Sync cfg) (inside : c < cfg.consumers)
    (held : (s.consumer c).locked = true) {x : Consumer}
    (gone : x.locked = false) : Owned (Started cfg) (s.setConsumer c x).locked none := by
  rw [locked_setConsumer, gone]
  exact sync.owned.release inside held

theorem keepConsumer (sync : s.Sync cfg) {x : Consumer} (same : (s.consumer c).locked = x.locked) :
    Owned (Started cfg) (s.setConsumer c x).locked s.holder := by
  rw [locked_setConsumer]
  exact sync.owned.keep same

/-- Whoever a producer wakes, the producers and the lock stay as they are. -/
theorem of_notifyNotEmpty (sync : s.Sync cfg) {target : ℕ} {u : State}
    (notified : s.notifyNotEmpty cfg target = some u) :
    u.Sync cfg ∧ u.producer = s.producer ∧ u.holder = s.holder := by
  rcases notifyNotEmpty_cases notified with ⟨other, asleep, rfl⟩ | ⟨-, rfl⟩
  · exact ⟨sync.wakeConsumer other asleep, rfl, rfl⟩
  · exact ⟨sync, rfl, rfl⟩

theorem of_notifyNotFull (sync : s.Sync cfg) {target : ℕ} {u : State}
    (notified : s.notifyNotFull cfg target = some u) :
    u.Sync cfg ∧ u.consumer = s.consumer ∧ u.holder = s.holder := by
  rcases notifyNotFull_cases notified with ⟨i, other, asleep, rfl⟩ | ⟨-, rfl⟩
  · exact ⟨sync.wakeProducer other asleep, rfl, rfl⟩
  · exact ⟨sync, rfl, rfl⟩

theorem stepProducer {impl : Impl} {target : ℕ} {t : State} (sync : s.Sync cfg)
    (inside : p < cfg.producers) (taken : s.stepProducer impl cfg p target = some t) :
    t.Sync cfg := by
  unfold State.stepProducer at taken
  cases phase : s.producer p with
  | loop i =>
    simp only [phase] at taken
    split_ifs at taken with more free
    · cases taken
      exact sync.moveProducer inside (sync.acquireProducer inside free rfl) (.inr rfl)
        (by rw [phase]; rfl) (by rw [phase]; exact id)
    · cases taken
      exact sync.moveProducer inside (sync.keepProducer (by rw [phase]; rfl))
        (.inl (by rw [phase]; rfl)) (by rw [phase]; rfl) fun _ => rfl
  | checking i =>
    simp only [phase] at taken
    split_ifs at taken with room
    · cases taken
      exact sync.push inside phase room _
    · cases taken
      exact sync.sleepProducer inside phase room
  | waiting i =>
    simp only [phase] at taken
    cases taken
  | woken i =>
    simp only [phase] at taken
    split_ifs at taken with free
    cases taken
    exact sync.moveProducer inside (sync.acquireProducer inside free rfl) (.inr rfl)
      (by rw [phase]; rfl) (by rw [phase]; exact id)
  | pushed i =>
    cases impl with
    | cpp =>
      simp only [phase, Option.map_eq_some_iff] at taken
      obtain ⟨u, notified, rfl⟩ := taken
      obtain ⟨sync', same, -⟩ := sync.of_notifyNotEmpty notified
      exact sync.notifyNotEmpty inside (by rw [phase]; rfl) notified rfl (by rw [phase]; rfl)
        (sync'.keepProducer (by rw [same, phase]; rfl))
    | rust =>
      simp only [phase] at taken
      cases taken
      exact sync.moveProducer inside (sync.releaseProducer inside (by rw [phase]; rfl) rfl)
        (.inl (by rw [phase]; rfl)) (by rw [phase]; rfl) (by rw [phase]; exact id)
  | notified i =>
    simp only [phase] at taken
    cases taken
    exact sync.moveProducer inside (sync.releaseProducer inside (by rw [phase]; rfl) rfl)
      (.inl (by rw [phase]; rfl)) (by rw [phase]; rfl) (by rw [phase]; exact id)
  | unlocked i =>
    simp only [phase, Option.map_eq_some_iff] at taken
    obtain ⟨u, notified, rfl⟩ := taken
    obtain ⟨sync', same, -⟩ := sync.of_notifyNotEmpty notified
    exact sync.notifyNotEmpty inside (by rw [phase]; rfl) notified rfl (by rw [phase]; rfl)
      (sync'.keepProducer (by rw [same, phase]; rfl))
  | returned i =>
    simp only [phase] at taken
    cases taken
    have moved := sync.moveProducer (x := .loop (i + cfg.producers)) inside
      (sync.keepProducer (by rw [phase]; rfl)) (.inl (by rw [phase]; rfl)) (by rw [phase]; rfl)
      (by rw [phase]; exact id)
    exact { moved with }
  | finished i =>
    simp only [phase] at taken
    cases taken

theorem stepConsumer {impl : Impl} {target : ℕ} {t : State} (sync : s.Sync cfg)
    (inside : c < cfg.consumers) (taken : s.stepConsumer impl cfg c target = some t) :
    t.Sync cfg := by
  unfold State.stepConsumer at taken
  cases phase : s.consumer c with
  | loop =>
    simp only [phase] at taken
    split_ifs at taken with free
    cases taken
    exact sync.moveConsumer inside (sync.acquireConsumer inside free rfl) (.inr rfl)
      (by rw [phase]; rfl) (by rw [phase]; simp) (by simp)
  | checking =>
    simp only [phase] at taken
    cases queue : s.queue with
    | nil =>
      simp only [queue] at taken
      split_ifs at taken with closed
      · cases taken
        exact sync.leaveConsumer inside phase queue (.inr ⟨rfl, closed⟩)
      · cases taken
        exact sync.leaveConsumer inside phase queue (.inl ⟨rfl, by simpa using closed⟩)
    | cons item rest =>
      simp only [queue] at taken
      cases taken
      exact sync.pop inside phase queue
  | waiting =>
    simp only [phase] at taken
    cases taken
  | woken =>
    simp only [phase] at taken
    split_ifs at taken with free
    cases taken
    exact sync.moveConsumer inside (sync.acquireConsumer inside free rfl) (.inr rfl)
      (by rw [phase]; rfl) (by rw [phase]; simp) (by simp)
  | popped item =>
    cases impl with
    | cpp =>
      simp only [phase, Option.map_eq_some_iff] at taken
      obtain ⟨u, notified, rfl⟩ := taken
      obtain ⟨sync', same, -⟩ := sync.of_notifyNotFull notified
      exact sync.notifyNotFull inside (by rw [phase]; rfl) notified rfl (by rw [phase]; rfl)
        (by simp) (sync'.keepConsumer (by rw [same, phase]; rfl))
    | rust =>
      simp only [phase] at taken
      cases taken
      exact sync.moveConsumer inside (sync.releaseConsumer inside (by rw [phase]; rfl) rfl)
        (.inl (by rw [phase]; rfl)) (by rw [phase]; rfl) (by rw [phase]; simp) (by simp)
  | notified item =>
    simp only [phase] at taken
    cases taken
    exact sync.moveConsumer inside (sync.releaseConsumer inside (by rw [phase]; rfl) rfl)
      (.inl (by rw [phase]; rfl)) (by rw [phase]; rfl) (by rw [phase]; simp) (by simp)
  | unlocked item =>
    simp only [phase, Option.map_eq_some_iff] at taken
    obtain ⟨u, notified, rfl⟩ := taken
    obtain ⟨sync', same, -⟩ := sync.of_notifyNotFull notified
    exact sync.notifyNotFull inside (by rw [phase]; rfl) notified rfl (by rw [phase]; rfl)
      (by simp) (sync'.keepConsumer (by rw [same, phase]; rfl))
  | returned item =>
    simp only [phase] at taken
    cases taken
    have moved := sync.moveConsumer (x := .loop) inside
      (sync.keepConsumer (by rw [phase]; rfl)) (.inl (by rw [phase]; rfl)) (by rw [phase]; rfl)
      (by rw [phase]; simp) (by simp)
    exact { moved with }
  | finished =>
    simp only [phase] at taken
    cases taken

/-- A step of the main thread that changes nothing but where it stands. -/
theorem moveMain (sync : s.Sync cfg) {m : Main}
    (locked : decide (s.main = .locked) = decide (m = .locked))
    (joined : m ≠ .joining → ∀ p < cfg.producers, (s.producer p).isFinished = true)
    (closed : s.closed = m.closed)
    (quiet : m = .draining ∨ m = .finished → ∀ c < cfg.consumers, s.consumer c ≠ .waiting)
    (drained : m = .finished → ∀ c < cfg.consumers, s.consumer c = .finished) :
    ({ s with main := m } : State).Sync cfg := by
  refine { sync with
    owned := ?_, joined := joined, closed := closed, quiet := quiet, drained := drained }
  rw [locked_main]
  exact sync.owned.keep locked

theorem stepMain {t : State} (sync : s.Sync cfg) (taken : s.stepMain cfg = some t) :
    t.Sync cfg := by
  have closed := sync.closed
  unfold State.stepMain at taken
  cases phase : s.main with
  | joining =>
    rw [phase] at closed
    simp only [phase, Option.ite_none_right_eq_some, Option.some.injEq] at taken
    obtain ⟨joined, rfl⟩ := taken
    exact sync.moveMain (by rw [phase]; rfl) (fun _ => joined) closed (by simp) (by simp)
  | closing =>
    rw [phase] at closed
    simp only [phase, Option.ite_none_right_eq_some, Option.some.injEq] at taken
    obtain ⟨free, rfl⟩ := taken
    have joined := sync.joined (by rw [phase]; simp)
    refine { sync with
      owned := ?_, joined := fun _ => joined, closed := closed, quiet := by simp
      drained := by simp }
    have owned := sync.owned
    rw [free] at owned
    change Owned (Started cfg) ({ s with main := .locked } : State).locked (some .main)
    rw [locked_main]
    exact owned.acquire trivial
  | locked =>
    simp only [phase, Option.some.injEq] at taken
    obtain rfl := taken
    have joined := sync.joined (by rw [phase]; simp)
    refine { sync with
      owned := ?_, joined := fun _ => joined, closed := rfl, quiet := by simp
      spent := fun c ended => ?_, drained := by simp }
    · change Owned (Started cfg) ({ s with main := .unlocked } : State).locked none
      rw [locked_main]
      exact sync.owned.release trivial (by simp [locked, phase])
    · exact ⟨rfl, (sync.spent c ended).2⟩
  | unlocked =>
    rw [phase] at closed
    simp only [phase, Option.some.injEq] at taken
    obtain rfl := taken
    have joined := sync.joined (by rw [phase]; simp)
    have locked : ({ s with main := .draining, consumer := fun c => (s.consumer c).wake } :
        State).locked = s.locked := by
      funext t
      cases t with
      | producer q => rfl
      | consumer d => exact (Consumer.wake_spec (s.consumer d)).1
      | main => simp [State.locked, phase]
    refine ⟨?_, sync.bounded, ?_, ?_, fun _ => joined, closed, fun _ d _ => ?_, fun d ended => ?_,
      by simp⟩
    · rw [locked]
      exact sync.owned
    · exact Covered.of_awake fun d _ asleep =>
        (Consumer.wake_spec (s.consumer d)).2.2.1 (Consumer.stand_eq_asleep_iff.mp asleep)
    · have owes : count Consumer.owes (fun d => (s.consumer d).wake) cfg.consumers =
          count Consumer.owes s.consumer cfg.consumers := by
        refine Finset.sum_congr rfl fun d _ => ?_
        rw [(Consumer.wake_spec (s.consumer d)).2.1]
      change Covered _ _ (count Consumer.owes (fun d => (s.consumer d).wake) _) _
      rw [owes]
      exact sync.notFull
    · exact (Consumer.wake_spec (s.consumer d)).2.2.1
    · exact sync.spent d ((Consumer.wake_spec (s.consumer d)).2.2.2 ended)
  | draining =>
    rw [phase] at closed
    simp only [phase, Option.ite_none_right_eq_some, Option.some.injEq] at taken
    obtain ⟨ended, rfl⟩ := taken
    have joined := sync.joined (by rw [phase]; simp)
    refine sync.moveMain (by rw [phase]; rfl) (fun _ => joined) closed ?_ fun _ => ended
    exact fun _ => sync.quiet (.inl phase)
  | finished =>
    simp only [phase] at taken
    cases taken

theorem keeps {impl : Impl} {a : Action} {t : State} (sync : s.Sync cfg)
    (taken : s.step impl cfg a = some t) : t.Sync cfg := by
  cases a with
  | move who target =>
    cases who with
    | producer p =>
      obtain ⟨inside, taken⟩ := Option.ite_none_right_eq_some.mp taken
      exact sync.stepProducer inside taken
    | consumer c =>
      obtain ⟨inside, taken⟩ := Option.ite_none_right_eq_some.mp taken
      exact sync.stepConsumer inside taken
    | main => exact sync.stepMain taken
  | spurious who =>
    cases who with
    | producer p =>
      obtain ⟨⟨inside, asleep⟩, made⟩ := Option.ite_none_right_eq_some.mp taken
      cases phase : s.producer p with
      | waiting i =>
        rw [phase] at made
        cases made
        exact sync.wakeProducer inside phase
      | _ =>
        rw [phase] at asleep
        cases asleep
    | consumer c =>
      obtain ⟨⟨inside, asleep⟩, made⟩ := Option.ite_none_right_eq_some.mp taken
      cases made
      exact sync.wakeConsumer inside asleep
    | main => cases taken

theorem init (impl : Impl) (cfg : Config) : (workq impl cfg).init.Sync cfg := by
  refine ⟨fun t => ?_, Nat.zero_le _, Covered.empty _ _ _, ?_, ?_, rfl, ?_, ?_, ?_⟩
  · cases t <;> simp [workq, State.locked, Producer.locked, Consumer.locked]
  · exact Covered.of_awake fun p _ asleep => by cases asleep
  · exact fun past => absurd rfl past
  · intro past
    rcases past with draining | finished
    · cases draining
    · cases finished
  · intro c ended
    cases ended
  · intro ended
    cases ended

end Sync

theorem exists_notifyNotEmpty (cfg : Config) (s : State) :
    ∃ target u, s.notifyNotEmpty cfg target = some u := by
  by_cases waiting : ∃ c < cfg.consumers, s.consumer c = .waiting
  · obtain ⟨c, here⟩ := waiting
    exact ⟨c, _, if_pos here⟩
  · push Not at waiting
    refine ⟨cfg.consumers, s, ?_⟩
    rw [State.notifyNotEmpty, if_neg (by simp), if_pos waiting]

theorem exists_notifyNotFull (cfg : Config) (s : State) :
    ∃ target u, s.notifyNotFull cfg target = some u := by
  by_cases waiting : ∃ p < cfg.producers, (s.producer p).isWaiting = true
  · obtain ⟨p, here⟩ := waiting
    exact ⟨p, _, if_pos here⟩
  · push Not at waiting
    refine ⟨cfg.producers, s, ?_⟩
    have none : ∀ p < cfg.producers, (s.producer p).isWaiting = false :=
      fun p inside => by simpa using waiting p inside
    rw [State.notifyNotFull, if_neg (by simp), if_pos none]

/-- A producer that is not asleep has a step, unless another thread holds the mutex. -/
theorem producer_moves {impl : Impl} (inside : p < cfg.producers)
    (free : s.holder = none ∨ (s.producer p).locked = true)
    (working : (s.producer p).isFinished = false) (awake : (s.producer p).stand ≠ .asleep) :
    ¬ s.Blocked impl cfg (.producer p) := by
  intro blocked
  obtain ⟨target, u, notified⟩ := exists_notifyNotEmpty cfg s
  have here : s.stepProducer impl cfg p target = none := (if_pos inside).symm.trans (blocked target)
  unfold State.stepProducer at here
  cases phase : s.producer p with
  | loop i =>
    have free : s.holder = none := by simpa [phase, Producer.locked] using free
    simp only [phase, free, if_true] at here
    split_ifs at here
  | checking i =>
    simp only [phase] at here
    split_ifs at here
  | waiting i => exact awake (by rw [phase]; rfl)
  | woken i =>
    have free : s.holder = none := by simpa [phase, Producer.locked] using free
    simp [phase, free] at here
  | pushed i => cases impl <;> simp [phase, notified] at here
  | notified i => simp [phase] at here
  | unlocked i => simp [phase, notified] at here
  | returned i => simp [phase] at here
  | finished i =>
    rw [phase] at working
    cases working

theorem consumer_moves {impl : Impl} (inside : c < cfg.consumers)
    (free : s.holder = none ∨ (s.consumer c).locked = true)
    (working : s.consumer c ≠ .finished) (awake : (s.consumer c).stand ≠ .asleep) :
    ¬ s.Blocked impl cfg (.consumer c) := by
  intro blocked
  obtain ⟨target, u, notified⟩ := exists_notifyNotFull cfg s
  have here : s.stepConsumer impl cfg c target = none := (if_pos inside).symm.trans (blocked target)
  unfold State.stepConsumer at here
  cases phase : s.consumer c with
  | loop =>
    have free : s.holder = none := by simpa [phase, Consumer.locked] using free
    simp [phase, free] at here
  | checking =>
    cases queue : s.queue with
    | nil =>
      simp only [phase, queue] at here
      split_ifs at here
    | cons item rest => simp [phase, queue] at here
  | waiting => exact awake (by rw [phase]; rfl)
  | woken =>
    have free : s.holder = none := by simpa [phase, Consumer.locked] using free
    simp [phase, free] at here
  | popped item => cases impl <;> simp [phase, notified] at here
  | notified item => simp [phase] at here
  | unlocked item => simp [phase, notified] at here
  | returned item => simp [phase] at here
  | finished => exact working phase

theorem main_moves (impl : Impl) (free : s.holder = none ∨ s.main = .locked)
    (joins : s.main = .joining → ∀ p < cfg.producers, (s.producer p).isFinished = true)
    (drains : s.main = .draining → ∀ c < cfg.consumers, s.consumer c = .finished)
    (working : s.main ≠ .finished) : ¬ s.Blocked impl cfg .main := by
  intro blocked
  have here : s.stepMain cfg = none := blocked 0
  unfold State.stepMain at here
  cases phase : s.main with
  | joining =>
    simp only [phase, if_pos (joins phase)] at here
    cases here
  | closing =>
    have free : s.holder = none := by simpa [phase] using free
    simp [phase, free] at here
  | locked => simp [phase] at here
  | unlocked => simp [phase] at here
  | draining =>
    simp only [phase, if_pos (drains phase)] at here
    cases here
  | finished => exact working phase

/-- The thread that holds the mutex has a step. -/
theorem Sync.holder_moves (impl : Impl) (sync : s.Sync cfg) {who : Thread}
    (holds : s.holder = some who) :
    Started cfg who ∧ s.finished who = false ∧ ¬ s.Blocked impl cfg who := by
  obtain ⟨started, locked⟩ := (sync.owned who).mpr holds
  refine ⟨started, ?_⟩
  cases who with
  | producer p =>
    obtain ⟨working, awake⟩ := Producer.of_locked (x := s.producer p) locked
    exact ⟨working, producer_moves started (.inr locked) working awake⟩
  | consumer c =>
    obtain ⟨working, awake⟩ := Consumer.of_locked (x := s.consumer c) locked
    exact ⟨decide_eq_false working, consumer_moves started (.inr locked) working awake⟩
  | main =>
    have locked : s.main = .locked := of_decide_eq_true locked
    refine ⟨by simp [finished, locked], main_moves impl (.inr locked) ?_ ?_ ?_⟩
    all_goals
      rw [locked]
      simp

theorem Sync.finished_of_main (sync : s.Sync cfg) (ended : s.main = .finished) {who : Thread}
    (started : Started cfg who) : s.finished who = true := by
  cases who with
  | producer p => exact sync.joined (by rw [ended]; simp) p started
  | consumer c => exact decide_eq_true (sync.drained ended c started)
  | main => exact decide_eq_true ended

/-- No wake-up is lost: were everybody asleep, the queue would be empty and full at once. -/
theorem Sync.not_deadlocked {impl : Impl} (sync : s.Sync cfg) : ¬ s.Deadlocked impl cfg := by
  rintro ⟨⟨who, started, unfinished⟩, blocked⟩
  have free : s.holder = none := by
    by_contra held
    obtain ⟨other, holds⟩ := Option.ne_none_iff_exists'.mp held
    obtain ⟨mine, working, moves⟩ := sync.holder_moves impl holds
    exact moves (blocked other mine working)
  -- Whoever has not finished is asleep, except perhaps the main thread.
  have producers : ∀ p < cfg.producers, (s.producer p).isFinished = false →
      (s.producer p).stand = .asleep := by
    intro p inside working
    by_contra awake
    exact producer_moves inside (.inl free) working awake (blocked (.producer p) inside working)
  have consumers : ∀ c < cfg.consumers, s.consumer c ≠ .finished →
      (s.consumer c).stand = .asleep := by
    intro c inside working
    by_contra awake
    exact consumer_moves inside (.inl free) working awake
      (blocked (.consumer c) inside (decide_eq_false working))
  have noItems : count Producer.owes s.producer cfg.producers = 0 :=
    count_eq_zero fun p inside => (Producer.of_idle (producers p inside)).2
  have noSlots : count Consumer.owes s.consumer cfg.consumers = 0 :=
    count_eq_zero fun c inside => (Consumer.of_idle (consumers c inside)).2
  have notEmpty := sync.notEmpty
  have notFull := sync.notFull
  rw [noItems] at notEmpty
  rw [noSlots] at notFull
  have working : s.main ≠ .finished := fun ended => by
    rw [sync.finished_of_main ended started] at unfinished
    cases unfinished
  apply main_moves impl (.inl free) ?_ ?_ working
  · exact blocked .main trivial (decide_eq_false working)
  · intro joining p inside
    by_contra more
    have asleep := producers p inside (by simpa using more)
    have full := notFull.supply_eq_zero inside asleep
      fun q other => (Producer.of_idle (producers q other)).1
    have open' : s.closed = false := by rw [sync.closed, joining]; rfl
    have first : s.consumer 0 ≠ .finished := fun ended => by
      rw [(sync.spent 0 ended).1] at open'
      cases open'
    have empty := notEmpty.supply_eq_zero cfg.someConsumer (consumers 0 cfg.someConsumer first)
      fun d other => (Consumer.of_idle (consumers d other)).1
    have room := cfg.someRoom
    omega
  · intro draining c inside
    by_contra more
    have asleep := Consumer.stand_eq_asleep_iff.mp (consumers c inside more)
    exact sync.quiet (.inl draining) c inside asleep

end State

end LinuxSys.Workq
