import LinuxSys.Lib.Machine
import LinuxSys.Lib.Slots
import Mathlib.Algebra.BigOperators.Intervals
import Mathlib.Data.Nat.ModEq

/-! # The ring of spscring

One producer pushes 0, 1, .. through a ring of slots to one consumer. `head` and `tail` count up and
are each stored by one side; the producer spins while `t - head` is the capacity, the consumer while
its own count is `tail`. What one side has loaded of the other may be behind; `popped` is history.
-/

namespace LinuxSys.Spscring

open Lib

/-- Where the producer stands in its loop. -/
inductive Producer where
  | looping
  | spinning
  | writing
  | storing
  | finished
deriving DecidableEq, Repr

/-- Where the consumer stands in its loop. -/
inductive Consumer where
  | looping
  | spinning
  | reading
  | storing
  | finished
deriving DecidableEq, Repr

structure State where
  head : UInt64 := 0
  tail : UInt64 := 0
  /-- The slots below the capacity. -/
  buf : ℕ → UInt64 := fun _ => 0
  producer : Producer := .looping
  /-- The producer's `i` and `t`. -/
  pushed : UInt64 := 0
  t : UInt64 := 0
  consumer : Consumer := .looping
  /-- The consumer's `i`, `h` and `sum`. -/
  taken : UInt64 := 0
  h : UInt64 := 0
  sum : UInt64 := 0
  popped : List UInt64 := []

inductive Action where
  | producerLoop
  | loadHead
  | write
  | storeTail
  | consumerLoop
  | loadTail
  | read
  | storeHead
deriving DecidableEq, Repr

def State.step (cap items : UInt64) (s : State) : Action → Option State
  | .producerLoop =>
    match s.producer with
    | .looping => some { s with producer := if s.pushed < items then .spinning else .finished }
    | _ => none
  | .loadHead =>
    match s.producer with
    | .spinning =>
      some { s with producer := if s.t - s.head = cap then .spinning else .writing }
    | _ => none
  | .write =>
    match s.producer with
    | .writing => some { s with
        buf := Function.update s.buf (s.t % cap).toNat s.pushed
        t := s.t + 1
        producer := .storing }
    | _ => none
  | .storeTail =>
    match s.producer with
    | .storing => some { s with tail := s.t, pushed := s.pushed + 1, producer := .looping }
    | _ => none
  | .consumerLoop =>
    match s.consumer with
    | .looping => some { s with consumer := if s.taken < items then .spinning else .finished }
    | _ => none
  | .loadTail =>
    match s.consumer with
    | .spinning => some { s with consumer := if s.h = s.tail then .spinning else .reading }
    | _ => none
  | .read =>
    match s.consumer with
    | .reading => some { s with
        sum := s.sum + s.buf (s.h % cap).toNat
        h := s.h + 1
        popped := s.popped ++ [s.buf (s.h % cap).toNat]
        consumer := .storing }
    | _ => none
  | .storeHead =>
    match s.consumer with
    | .storing => some { s with head := s.h, taken := s.taken + 1, consumer := .looping }
    | _ => none

/-- `spscring --capacity K --items N`. -/
def ring (cap items : UInt64) : Machine State Action where
  init := {}
  step := State.step cap items

/-- The unread slots are at most the capacity and never written over, the values come in order, and
the sum is right at the end. -/
structure Right (cap items : UInt64) (s : State) : Prop where
  bounded : s.head.toNat ≤ s.tail.toNat ∧ s.tail.toNat - s.head.toNat ≤ cap.toNat
  unread : s.producer = .writing → ∀ k, s.popped.length ≤ k → k < s.t.toNat →
    k % cap.toNat ≠ (s.t % cap).toNat
  order : ∀ i v, s.popped[i]? = some v → v = UInt64.ofNat i
  total : s.producer = .finished → s.consumer = .finished →
    s.popped.length = items.toNat ∧ s.sum = UInt64.ofNat (∑ k ∈ Finset.range items.toNat, k)

/-- The two sides' counts: `n` values are written and `m` read. -/
structure Inv (cap items : UInt64) (s : State) (n m : ℕ) : Prop where
  t : s.t.toNat = n
  tail : s.tail = s.pushed
  pushed : s.pushed.toNat + (if s.producer = .storing then 1 else 0) = n
  h : s.h.toNat = m
  head : s.head = s.taken
  taken : s.taken.toNat + (if s.consumer = .storing then 1 else 0) = m
  most : s.pushed.toNat ≤ items.toNat
  room : n ≤ s.taken.toNat + cap.toNat
  more : s.producer = .spinning ∨ s.producer = .writing ∨ s.producer = .storing →
    s.pushed.toNat < items.toNat
  free : s.producer = .writing → n < s.taken.toNat + cap.toNat
  behind : m ≤ s.pushed.toNat
  left : s.consumer = .spinning ∨ s.consumer = .reading ∨ s.consumer = .storing →
    s.taken.toNat < items.toNat
  ahead : s.consumer = .reading → m < s.pushed.toNat
  ended : s.producer = .finished → items.toNat ≤ s.pushed.toNat
  done : s.consumer = .finished → items.toNat ≤ s.taken.toNat
  slots : ∀ k, m ≤ k → k < n → s.buf (k % cap.toNat) = UInt64.ofNat k
  popped : s.popped = (List.range m).map UInt64.ofNat
  sum : s.sum = UInt64.ofNat (∑ k ∈ Finset.range m, k)

theorem toNat_add_one {x y : UInt64} (less : x.toNat < y.toNat) : (x + 1).toNat = x.toNat + 1 := by
  have bound := y.toNat_lt
  rw [UInt64.toNat_add, UInt64.toNat_one, Nat.mod_eq_of_lt (by omega)]

theorem eq_ofNat {x : UInt64} {n : ℕ} (same : x.toNat = n) : x = UInt64.ofNat n := by
  rw [← same, UInt64.ofNat_toNat]

namespace Inv

variable {cap items : UInt64} {s : State} {n m : ℕ}

theorem producerLoop (inv : Inv cap items s n m) (here : s.producer = .looping) :
    Inv cap items { s with producer := if s.pushed < items then .spinning else .finished } n m := by
  have pushed := inv.pushed
  rw [here] at pushed
  split
  · next more => exact { inv with
      pushed := pushed
      more := fun _ => UInt64.lt_iff_toNat_lt.mp more
      free := fun no => by cases no
      ended := fun no => by cases no }
  · next enough => exact { inv with
      pushed := pushed
      more := fun no => by rcases no with no | no | no <;> cases no
      free := fun no => by cases no
      ended := fun _ => not_lt.mp fun less => enough (UInt64.lt_iff_toNat_lt.mpr less) }

theorem loadHead (inv : Inv cap items s n m) (here : s.producer = .spinning) :
    Inv cap items
      { s with producer := if s.t - s.head = cap then .spinning else .writing } n m := by
  have pushed := inv.pushed
  have more := inv.more (.inl here)
  have room := inv.room
  rw [here] at pushed
  split
  · exact { inv with
      pushed := pushed
      more := fun _ => more
      free := fun no => by cases no
      ended := fun no => by cases no }
  · next other =>
    have taken := inv.taken
    have behind := inv.behind
    have order : s.head ≤ s.t := by
      rw [UInt64.le_iff_toNat_le, inv.head, inv.t]
      split_ifs at taken pushed <;> omega
    have apart : n - s.taken.toNat ≠ cap.toNat := by
      intro same
      apply other
      apply UInt64.toNat_inj.mp
      rw [UInt64.toNat_sub_of_le _ _ order, inv.head, inv.t, same]
    have free : n < s.taken.toNat + cap.toNat := by omega
    exact { inv with
      pushed := pushed
      more := fun _ => more
      free := fun _ => free
      ended := fun no => by cases no }

theorem write (inv : Inv cap items s n m) (here : s.producer = .writing) :
    Inv cap items { s with
      buf := Function.update s.buf (s.t % cap).toNat s.pushed
      t := s.t + 1
      producer := .storing } (n + 1) m := by
  have pushed := inv.pushed
  have more := inv.more (.inr (.inl here))
  have free := inv.free here
  rw [here] at pushed
  have value : s.pushed.toNat = n := pushed
  have next : (s.t + 1).toNat = s.t.toNat + 1 :=
    toNat_add_one (y := items) (by rw [inv.t]; omega)
  exact { inv with
    t := by rw [next, inv.t]
    pushed := congrArg (· + 1) value
    room := free
    more := fun _ => more
    free := fun no => by cases no
    ended := fun no => by cases no
    slots := fun k low high => by
      have taken := inv.taken
      change Function.update s.buf (s.t % cap).toNat s.pushed (k % cap.toNat) = UInt64.ofNat k
      rw [UInt64.toNat_mod, inv.t]
      rcases Nat.lt_succ_iff_lt_or_eq.mp high with old | rfl
      · have near : n < k + cap.toNat := by split_ifs at taken <;> omega
        rw [Function.update_of_ne (slot_ne old near)]
        exact inv.slots k low old
      · rw [Function.update_self]
        exact eq_ofNat value }

theorem storeTail (inv : Inv cap items s n m) (here : s.producer = .storing) :
    Inv cap items { s with tail := s.t, pushed := s.pushed + 1, producer := .looping } n m := by
  have pushed := inv.pushed
  have more := inv.more (.inr (.inr here))
  have behind := inv.behind
  rw [here, if_pos rfl] at pushed
  have next := toNat_add_one more
  exact { inv with
    tail := UInt64.toNat_inj.mp (by rw [inv.t, next, pushed])
    pushed := by rw [next]; exact pushed
    most := by rw [next]; exact more
    more := fun no => by rcases no with no | no | no <;> cases no
    free := fun no => by cases no
    behind := by rw [next]; exact Nat.le_succ_of_le behind
    ahead := fun reading => by rw [next]; exact Nat.lt_succ_of_lt (inv.ahead reading)
    ended := fun no => by cases no }

theorem consumerLoop (inv : Inv cap items s n m) (here : s.consumer = .looping) :
    Inv cap items { s with consumer := if s.taken < items then .spinning else .finished } n m := by
  have taken := inv.taken
  rw [here] at taken
  split
  · next more => exact { inv with
      taken := taken
      left := fun _ => UInt64.lt_iff_toNat_lt.mp more
      ahead := fun no => by cases no
      done := fun no => by cases no }
  · next enough => exact { inv with
      taken := taken
      left := fun no => by rcases no with no | no | no <;> cases no
      ahead := fun no => by cases no
      done := fun _ => not_lt.mp fun less => enough (UInt64.lt_iff_toNat_lt.mpr less) }

theorem loadTail (inv : Inv cap items s n m) (here : s.consumer = .spinning) :
    Inv cap items { s with consumer := if s.h = s.tail then .spinning else .reading } n m := by
  have taken := inv.taken
  have left := inv.left (.inl here)
  rw [here] at taken
  split
  · exact { inv with
      taken := taken
      left := fun _ => left
      ahead := fun no => by cases no
      done := fun no => by cases no }
  · next other =>
    have apart : m ≠ s.pushed.toNat := by
      intro same
      apply other
      apply UInt64.toNat_inj.mp
      rw [inv.h, inv.tail, same]
    exact { inv with
      taken := taken
      left := fun _ => left
      ahead := fun _ => lt_of_le_of_ne inv.behind apart
      done := fun no => by cases no }

theorem read (inv : Inv cap items s n m) (here : s.consumer = .reading) :
    Inv cap items { s with
      sum := s.sum + s.buf (s.h % cap).toNat
      h := s.h + 1
      popped := s.popped ++ [s.buf (s.h % cap).toNat]
      consumer := .storing } n (m + 1) := by
  have taken := inv.taken
  have left := inv.left (.inr (.inl here))
  have ahead := inv.ahead here
  have pushed := inv.pushed
  rw [here] at taken
  have count : s.taken.toNat = m := taken
  have next : (s.h + 1).toNat = s.h.toNat + 1 :=
    toNat_add_one (y := items) (by rw [inv.h]; omega)
  have value : s.buf (s.h % cap).toNat = UInt64.ofNat m := by
    rw [UInt64.toNat_mod, inv.h]
    exact inv.slots m le_rfl (by split_ifs at pushed <;> omega)
  exact { inv with
    h := by rw [next, inv.h]
    taken := congrArg (· + 1) count
    behind := ahead
    left := fun _ => left
    ahead := fun no => by cases no
    done := fun no => by cases no
    slots := fun k low high => inv.slots k (by omega) high
    popped := by rw [inv.popped, value, List.range_succ, List.map_append]; rfl
    sum := by rw [inv.sum, value, Finset.sum_range_succ, UInt64.ofNat_add] }

theorem storeHead (inv : Inv cap items s n m) (here : s.consumer = .storing) :
    Inv cap items { s with head := s.h, taken := s.taken + 1, consumer := .looping } n m := by
  have taken := inv.taken
  have left := inv.left (.inr (.inr here))
  have room := inv.room
  rw [here, if_pos rfl] at taken
  have next := toNat_add_one left
  exact { inv with
    head := UInt64.toNat_inj.mp (by rw [inv.h, next, taken])
    taken := by rw [next]; exact taken
    room := by rw [next]; omega
    free := fun writing => by
      have free := inv.free writing
      rw [next]
      omega
    left := fun no => by rcases no with no | no | no <;> cases no
    ahead := fun no => by cases no
    done := fun no => by cases no }

theorem init (cap items : UInt64) : Inv cap items {} 0 0 where
  t := rfl
  tail := rfl
  pushed := rfl
  h := rfl
  head := rfl
  taken := rfl
  most := Nat.zero_le _
  room := Nat.zero_le _
  more := fun no => by rcases no with no | no | no <;> cases no
  free := fun no => by cases no
  behind := Nat.zero_le _
  left := fun no => by rcases no with no | no | no <;> cases no
  ahead := fun no => by cases no
  ended := fun no => by cases no
  done := fun no => by cases no
  slots := fun k _ high => absurd high (Nat.not_lt_zero k)
  popped := rfl
  sum := rfl

theorem keeps {t : State} {a : Action} (inv : Inv cap items s n m)
    (taken : s.step cap items a = some t) : ∃ n' m', Inv cap items t n' m' := by
  cases a with
  | producerLoop =>
    simp only [State.step] at taken
    split at taken
    · next here =>
      cases taken
      exact ⟨n, m, inv.producerLoop here⟩
    · cases taken
  | loadHead =>
    simp only [State.step] at taken
    split at taken
    · next here =>
      cases taken
      exact ⟨n, m, inv.loadHead here⟩
    · cases taken
  | write =>
    simp only [State.step] at taken
    split at taken
    · next here =>
      cases taken
      exact ⟨n + 1, m, inv.write here⟩
    · cases taken
  | storeTail =>
    simp only [State.step] at taken
    split at taken
    · next here =>
      cases taken
      exact ⟨n, m, inv.storeTail here⟩
    · cases taken
  | consumerLoop =>
    simp only [State.step] at taken
    split at taken
    · next here =>
      cases taken
      exact ⟨n, m, inv.consumerLoop here⟩
    · cases taken
  | loadTail =>
    simp only [State.step] at taken
    split at taken
    · next here =>
      cases taken
      exact ⟨n, m, inv.loadTail here⟩
    · cases taken
  | read =>
    simp only [State.step] at taken
    split at taken
    · next here =>
      cases taken
      exact ⟨n, m + 1, inv.read here⟩
    · cases taken
  | storeHead =>
    simp only [State.step] at taken
    split at taken
    · next here =>
      cases taken
      exact ⟨n, m, inv.storeHead here⟩
    · cases taken

theorem right (inv : Inv cap items s n m) : Right cap items s where
  bounded := by
    have pushed := inv.pushed
    have taken := inv.taken
    have behind := inv.behind
    have room := inv.room
    rw [inv.head, inv.tail]
    constructor
    · split_ifs at pushed taken <;> omega
    · split_ifs at pushed taken <;> omega
  unread := by
    intro writing k low high
    have free := inv.free writing
    have taken := inv.taken
    rw [inv.popped, List.length_map, List.length_range] at low
    rw [inv.t] at high
    rw [UInt64.toNat_mod, inv.t]
    apply slot_ne high
    split_ifs at taken <;> omega
  order := by
    intro i v found
    rw [inv.popped, List.getElem?_map] at found
    obtain ⟨j, here, rfl⟩ := Option.map_eq_some_iff.mp found
    obtain ⟨inside, rfl⟩ := List.getElem?_eq_some_iff.mp here
    rw [List.getElem_range]
  total := by
    intro finished done
    have ended := inv.ended finished
    have most := inv.most
    have enough := inv.done done
    have behind := inv.behind
    have taken := inv.taken
    rw [done] at taken
    have count : s.taken.toNat = m := taken
    have all : m = items.toNat := by omega
    refine ⟨?_, ?_⟩
    · rw [inv.popped, List.length_map, List.length_range, all]
    · rw [inv.sum, all]

end Inv

/-- In every interleaving the ring is bounded, no unread slot is written, the values are popped in
order and the sum is right. -/
theorem ring_right (cap items : UInt64) {acts : List Action} {s : State}
    (run : (ring cap items).run? acts = some s) : Right cap items s := by
  have kept : ∃ n m, Inv cap items s n m :=
    @Machine.run?_keeps _ _ (ring cap items) (fun s => ∃ n m, Inv cap items s n m)
      ⟨0, 0, .init cap items⟩
      (fun _ _ _ inv taken => by
        obtain ⟨n, m, inv⟩ := inv
        exact inv.keeps taken) _ _ run
  obtain ⟨n, m, inv⟩ := kept
  exact inv.right

/-- Two values through one slot. -/
def twoActs : List Action :=
  [.producerLoop, .loadHead, .consumerLoop, .loadTail, .write, .loadTail, .storeTail, .loadTail,
    .producerLoop, .loadHead, .read, .loadHead, .storeHead, .loadHead, .write, .storeTail,
    .producerLoop, .consumerLoop, .loadTail, .read, .storeHead, .consumerLoop]

theorem ring_right_two : ∃ s, (ring 1 2).run? twoActs = some s ∧ s.sum = 1 ∧ Right 1 2 s := by
  obtain ⟨s, run, sum⟩ : ∃ s, (ring 1 2).run? twoActs = some s ∧ s.sum = 1 := ⟨_, rfl, rfl⟩
  exact ⟨s, run, sum, ring_right 1 2 run⟩

end LinuxSys.Spscring
