import Mathlib.Data.List.Induction
import Mathlib.Data.List.Perm.Basic
import LinuxSys.Workq.Sync

/-! # What workq computes

The pushed indices are those that the producers have passed; the popped items are the first of the
pushed ones; a consumer's sums are those of the items that it has popped and folded. When the main
thread has finished, every index has been popped once.
-/

namespace LinuxSys.Workq

open Lib

/-- The first index of its share that the producer has not pushed. -/
def Producer.next (stride : ℕ) : Producer → ℕ
  | loop i | checking i | waiting i | woken i | finished i => i
  | pushed i | notified i | unlocked i | returned i => i + stride

/-- The index that the producer is about to push. -/
def Producer.pushing? : Producer → Option ℕ
  | checking i | waiting i | woken i => some i
  | _ => none

/-- The producer has pushed and not counted it. -/
def Producer.behind : Producer → Bool
  | pushed _ | notified _ | unlocked _ | returned _ => true
  | _ => false

/-- What the consumer has popped and not folded. -/
def Consumer.held : Consumer → List Item
  | popped item | notified item | unlocked item | returned item => [item]
  | _ => []

/-- The items that a consumer has popped. -/
def mine (popped : List (ℕ × Item)) (c : ℕ) : List Item :=
  (popped.filter fun entry => entry.1 = c).map Prod.snd

/-- The folded items are those popped but the one in hand. -/
def Tally (items held : List Item) (n : ℕ) (x : UInt64) : Prop :=
  ∃ folded, items = folded ++ held ∧ n = folded.length ∧ x = xorAll (folded.map Item.value)

theorem mine_append (popped : List (ℕ × Item)) (c d : ℕ) (item : Item) :
    mine (popped ++ [(c, item)]) d = if c = d then mine popped d ++ [item] else mine popped d := by
  rw [mine, List.filter_append, List.map_append]
  split_ifs with same <;> simp [mine, same]

theorem xorAll_append (values : List UInt64) (v : UInt64) :
    xorAll (values ++ [v]) = xorAll values ^^^ v := by
  rw [xorAll, List.foldl_append]
  rfl

/-- Two indices of one share are a stride apart. -/
theorem eq_of_share {i j stride : ℕ} (share : j % stride = i % stride) (from' : i ≤ j)
    (below : j < i + stride) : j = i := by
  have apart : (j - i) % stride = 0 := Nat.sub_mod_eq_zero_of_mod_eq share
  rw [Nat.mod_eq_of_lt (by omega)] at apart
  omega

namespace State

structure Data (cfg : Config) (s : State) : Prop where
  place : ∀ p < cfg.producers, (s.producer p).next cfg.producers % cfg.producers = p
  pushing : ∀ p i, (s.producer p).pushing? = some i → i < cfg.items
  ended : ∀ p i, s.producer p = .finished i → cfg.items ≤ i
  split : s.pushed = s.popped.map Prod.snd ++ s.queue
  value : ∀ item ∈ s.pushed, item.value = payload cfg.seed (UInt64.ofNat item.index)
  once : (s.pushed.map Item.index).Nodup
  pushed : ∀ j, j ∈ s.pushed.map Item.index ↔
    j < cfg.items ∧ j < (s.producer (j % cfg.producers)).next cfg.producers
  produced : s.produced + count Producer.behind s.producer cfg.producers = s.pushed.length
  popper : ∀ entry ∈ s.popped, entry.1 < cfg.consumers
  tally : ∀ c, Tally (mine s.popped c) (s.consumer c).held (s.counts c) (s.sums c)

variable {cfg : Config} {s : State} {p c : ℕ}

namespace Data

/-- A move of a producer that pushes nothing, and perhaps counts. -/
theorem progress (data : s.Data cfg) {x : Producer} {produced : ℕ}
    (next : x.next cfg.producers = (s.producer p).next cfg.producers)
    (pushing : ∀ i, x.pushing? = some i → i < cfg.items)
    (ended : ∀ i, x = .finished i → cfg.items ≤ i)
    (counted : produced + count Producer.behind (Function.update s.producer p x) cfg.producers =
      s.produced + count Producer.behind s.producer cfg.producers) :
    ({ s.setProducer p x with produced } : State).Data cfg := by
  have nexts : ∀ q, (Function.update s.producer p x q).next cfg.producers =
      (s.producer q).next cfg.producers := by
    intro q
    rcases eq_or_ne q p with rfl | apart
    · rw [Function.update_self, next]
    · rw [Function.update_of_ne apart]
  refine { data with
    place := fun q other => ?_, pushing := fun q i => ?_, ended := fun q i => ?_
    pushed := fun j => ?_, produced := counted.trans data.produced }
  · exact (congrArg (· % cfg.producers) (nexts q)).trans (data.place q other)
  · change (Function.update s.producer p x q).pushing? = some i → _
    rcases eq_or_ne q p with rfl | apart
    · rw [Function.update_self]
      exact pushing i
    · rw [Function.update_of_ne apart]
      exact data.pushing q i
  · change Function.update s.producer p x q = .finished i → _
    rcases eq_or_ne q p with rfl | apart
    · rw [Function.update_self]
      exact ended i
    · rw [Function.update_of_ne apart]
      exact data.ended q i
  · change _ ↔ _ ∧ j < (Function.update s.producer p x (j % cfg.producers)).next _
    rw [nexts]
    exact data.pushed j

theorem moveProducer (data : s.Data cfg) (inside : p < cfg.producers) {x : Producer}
    (next : x.next cfg.producers = (s.producer p).next cfg.producers)
    (pushing : ∀ i, x.pushing? = some i → i < cfg.items)
    (ended : ∀ i, x = .finished i → cfg.items ≤ i)
    (behind : x.behind = (s.producer p).behind) : (s.setProducer p x).Data cfg :=
  data.progress next pushing ended (congrArg _ (count_update_same inside behind))

/-- A move of a consumer that pops nothing and folds nothing. -/
theorem moveConsumer (data : s.Data cfg) {x : Consumer} (held : x.held = (s.consumer c).held) :
    (s.setConsumer c x).Data cfg := by
  refine { data with tally := fun d => ?_ }
  rcases eq_or_ne d c with rfl | apart
  · rw [setConsumer_consumer, Function.update_self, held]
    exact data.tally d
  · rw [setConsumer_consumer, Function.update_of_ne apart]
    exact data.tally d

/-- A producer pushes the next index of its share. -/
theorem push (data : s.Data cfg) (inside : p < cfg.producers) {i : ℕ}
    (here : s.producer p = .checking i) (queue : List Item)
    (behind : queue = s.queue ++ [⟨i, payload cfg.seed (UInt64.ofNat i)⟩]) :
    ({ s.setProducer p (.pushed i) with
      queue := queue
      pushed := s.pushed ++ [⟨i, payload cfg.seed (UInt64.ofNat i)⟩] } : State).Data cfg := by
  have share : i % cfg.producers = p := by
    have place := data.place p inside
    rwa [here] at place
  have small : i < cfg.items := data.pushing p i (by rw [here]; rfl)
  have stride := cfg.someProducer
  have new : i ∉ s.pushed.map Item.index := by
    rw [data.pushed, share, here]
    exact fun old => lt_irrefl i old.2
  refine { data with
    place := fun q other => ?_, pushing := fun q j => ?_, ended := fun q j => ?_
    split := ?_, value := fun item member => ?_, once := ?_, pushed := fun j => ?_, produced := ?_ }
  · change (Function.update s.producer p (.pushed i) q).next _ % _ = q
    rcases eq_or_ne q p with rfl | apart
    · rw [Function.update_self, Producer.next, Nat.add_mod_right, share]
    · rw [Function.update_of_ne apart]
      exact data.place q other
  · change (Function.update s.producer p (.pushed i) q).pushing? = some j → _
    rcases eq_or_ne q p with rfl | apart
    · rw [Function.update_self]
      rintro ⟨⟩
    · rw [Function.update_of_ne apart]
      exact data.pushing q j
  · change Function.update s.producer p (.pushed i) q = .finished j → _
    rcases eq_or_ne q p with rfl | apart
    · rw [Function.update_self]
      rintro ⟨⟩
    · rw [Function.update_of_ne apart]
      exact data.ended q j
  · change s.pushed ++ _ = s.popped.map Prod.snd ++ queue
    rw [data.split, behind, List.append_assoc]
  · rcases List.mem_append.mp member with old | added
    · exact data.value item old
    · rw [List.mem_singleton.mp added]
  · rw [List.map_append, List.nodup_append]
    refine ⟨data.once, List.pairwise_singleton _ _, fun j old k added => ?_⟩
    rintro rfl
    obtain rfl : j = i := by simpa using added
    exact new old
  · rw [List.map_append, List.mem_append, List.map_singleton, List.mem_singleton, data.pushed]
    change _ ↔ _ ∧ j < (Function.update s.producer p (.pushed i) (j % cfg.producers)).next _
    rcases eq_or_ne (j % cfg.producers) p with mine | apart
    · rw [mine, here, Function.update_self]
      simp only [Producer.next]
      constructor
      · rintro (⟨some, before⟩ | rfl)
        · exact ⟨some, by omega⟩
        · exact ⟨small, by omega⟩
      · rintro ⟨some, before⟩
        rcases Nat.lt_or_ge j i with less | more
        · exact .inl ⟨some, less⟩
        · exact .inr (eq_of_share (mine.trans share.symm) more before)
    · rw [Function.update_of_ne apart]
      refine or_iff_left ?_
      rintro rfl
      exact apart share
  · change s.produced + count _ (Function.update s.producer p (.pushed i)) _ = _
    rw [count_update_gain inside (by rw [here]; rfl) rfl, List.length_append, ← data.produced]
    rfl

/-- A consumer pops the first item. -/
theorem pop (data : s.Data cfg) (inside : c < cfg.consumers) {item : Item} {rest : List Item}
    (here : s.consumer c = .checking) (first : s.queue = item :: rest) :
    ({ s.setConsumer c (.popped item) with
      queue := rest, popped := s.popped ++ [(c, item)] } : State).Data cfg := by
  refine { data with split := ?_, popper := fun entry member => ?_, tally := fun d => ?_ }
  · change s.pushed = (s.popped ++ [(c, item)]).map Prod.snd ++ rest
    rw [data.split, first, List.map_append, List.append_assoc]
    rfl
  · rcases List.mem_append.mp member with old | added
    · exact data.popper entry old
    · rw [List.mem_singleton.mp added]
      exact inside
  · have before := data.tally d
    change Tally (mine (s.popped ++ [(c, item)]) d)
      (Function.update s.consumer c (.popped item) d).held _ _
    rw [mine_append]
    rcases eq_or_ne d c with rfl | apart
    · rw [here] at before
      obtain ⟨folded, same, counted⟩ := before
      rw [Function.update_self, if_pos rfl]
      exact ⟨folded, by rw [same, List.append_assoc]; rfl, counted⟩
    · rw [Function.update_of_ne apart, if_neg apart.symm]
      exact before

/-- A consumer folds the item in its hand. -/
theorem fold (data : s.Data cfg) {item : Item} (here : s.consumer c = .returned item) :
    ({ s.setConsumer c .loop with
      counts := Function.update s.counts c (s.counts c + 1)
      sums := Function.update s.sums c (s.sums c ^^^ item.value) } : State).Data cfg := by
  refine { data with tally := fun d => ?_ }
  have before := data.tally d
  change Tally (mine s.popped d) (Function.update s.consumer c .loop d).held
    (Function.update s.counts c (s.counts c + 1) d)
    (Function.update s.sums c (s.sums c ^^^ item.value) d)
  rcases eq_or_ne d c with rfl | apart
  · rw [here] at before
    obtain ⟨folded, same, counted, summed⟩ := before
    simp only [Function.update_self]
    refine ⟨folded ++ [item], by rw [same]; simp [Consumer.held], ?_, ?_⟩
    · rw [counted, List.length_append, List.length_singleton]
    · rw [summed, List.map_append, List.map_singleton, xorAll_append]
  · simp only [Function.update_of_ne apart]
    exact before

/-- A producer counts what it has pushed, and goes on to the next index. -/
theorem counted (data : s.Data cfg) (inside : p < cfg.producers) {i : ℕ}
    (here : s.producer p = .returned i) : ({ s.setProducer p (.loop (i + cfg.producers)) with
      produced := s.produced + 1 } : State).Data cfg := by
  have loss := count_update_loss (p := Producer.behind) (g := s.producer)
    (v := .loop (i + cfg.producers)) inside (by rw [here]; rfl) rfl
  refine data.progress (by rw [here]; rfl) (by simp [Producer.pushing?]) (by simp) ?_
  omega

theorem wakeConsumer (data : s.Data cfg) (asleep : s.consumer c = .waiting) :
    (s.setConsumer c .woken).Data cfg := data.moveConsumer (by rw [asleep]; rfl)

theorem wakeProducer (data : s.Data cfg) (inside : p < cfg.producers) {i : ℕ}
    (asleep : s.producer p = .waiting i) : (s.setProducer p (.woken i)).Data cfg :=
  data.moveProducer inside (by rw [asleep]; rfl)
    (fun j same => data.pushing p j (by rw [asleep]; exact same)) (by simp) (by rw [asleep]; rfl)

theorem of_notifyNotEmpty (data : s.Data cfg) {target : ℕ} {u : State}
    (notified : s.notifyNotEmpty cfg target = some u) :
    u.Data cfg ∧ u.producer = s.producer := by
  rcases Sync.notifyNotEmpty_cases notified with ⟨-, asleep, rfl⟩ | ⟨-, rfl⟩
  · exact ⟨data.wakeConsumer asleep, rfl⟩
  · exact ⟨data, rfl⟩

theorem of_notifyNotFull (data : s.Data cfg) {target : ℕ} {u : State}
    (notified : s.notifyNotFull cfg target = some u) :
    u.Data cfg ∧ u.consumer = s.consumer := by
  rcases Sync.notifyNotFull_cases notified with ⟨i, inside, asleep, rfl⟩ | ⟨-, rfl⟩
  · exact ⟨data.wakeProducer inside asleep, rfl⟩
  · exact ⟨data, rfl⟩

theorem stepProducer {impl : Impl} {target : ℕ} {t : State} (data : s.Data cfg)
    (inside : p < cfg.producers) (taken : s.stepProducer impl cfg p target = some t) :
    t.Data cfg := by
  unfold State.stepProducer at taken
  cases phase : s.producer p with
  | loop i =>
    simp only [phase] at taken
    split_ifs at taken with more free
    · cases taken
      have moved : (s.setProducer p (.checking i)).Data cfg :=
        data.moveProducer inside (by rw [phase]; rfl) (by simpa [Producer.pushing?] using more)
          (by simp) (by rw [phase]; rfl)
      exact { moved with }
    · cases taken
      exact data.moveProducer inside (by rw [phase]; rfl) (by simp [Producer.pushing?])
        (by simpa using more) (by rw [phase]; rfl)
  | checking i =>
    simp only [phase] at taken
    split_ifs at taken with room
    · cases taken
      exact data.push inside phase _ rfl
    · cases taken
      have moved : (s.setProducer p (.waiting i)).Data cfg :=
        data.moveProducer inside (by rw [phase]; rfl)
          (fun j same => data.pushing p j (by rw [phase]; exact same)) (by simp)
          (by rw [phase]; rfl)
      exact { moved with }
  | waiting i =>
    simp only [phase] at taken
    cases taken
  | woken i =>
    simp only [phase] at taken
    split_ifs at taken with free
    cases taken
    have moved : (s.setProducer p (.checking i)).Data cfg :=
      data.moveProducer inside (by rw [phase]; rfl)
        (fun j same => data.pushing p j (by rw [phase]; exact same)) (by simp) (by rw [phase]; rfl)
    exact { moved with }
  | pushed i =>
    cases impl with
    | cpp =>
      simp only [phase, Option.map_eq_some_iff] at taken
      obtain ⟨u, notified, rfl⟩ := taken
      obtain ⟨data', same⟩ := data.of_notifyNotEmpty notified
      exact data'.moveProducer inside (by rw [same, phase]; rfl) (by simp [Producer.pushing?])
        (by simp) (by rw [same, phase]; rfl)
    | rust =>
      simp only [phase] at taken
      cases taken
      have moved : (s.setProducer p (.unlocked i)).Data cfg :=
        data.moveProducer inside (by rw [phase]; rfl) (by simp [Producer.pushing?]) (by simp)
          (by rw [phase]; rfl)
      exact { moved with }
  | notified i =>
    simp only [phase] at taken
    cases taken
    have moved : (s.setProducer p (.returned i)).Data cfg :=
      data.moveProducer inside (by rw [phase]; rfl) (by simp [Producer.pushing?]) (by simp)
        (by rw [phase]; rfl)
    exact { moved with }
  | unlocked i =>
    simp only [phase, Option.map_eq_some_iff] at taken
    obtain ⟨u, notified, rfl⟩ := taken
    obtain ⟨data', same⟩ := data.of_notifyNotEmpty notified
    exact data'.moveProducer inside (by rw [same, phase]; rfl) (by simp [Producer.pushing?])
      (by simp) (by rw [same, phase]; rfl)
  | returned i =>
    simp only [phase] at taken
    cases taken
    exact data.counted inside phase
  | finished i =>
    simp only [phase] at taken
    cases taken

theorem stepConsumer {impl : Impl} {target : ℕ} {t : State} (data : s.Data cfg)
    (inside : c < cfg.consumers) (taken : s.stepConsumer impl cfg c target = some t) :
    t.Data cfg := by
  unfold State.stepConsumer at taken
  cases phase : s.consumer c with
  | loop =>
    simp only [phase] at taken
    split_ifs at taken with free
    cases taken
    have moved : (s.setConsumer c .checking).Data cfg := data.moveConsumer (by rw [phase]; rfl)
    exact { moved with }
  | checking =>
    simp only [phase] at taken
    cases queue : s.queue with
    | nil =>
      simp only [queue] at taken
      split_ifs at taken with closed
      · cases taken
        have moved : (s.setConsumer c .finished).Data cfg := data.moveConsumer (by rw [phase]; rfl)
        exact { moved with }
      · cases taken
        have moved : (s.setConsumer c .waiting).Data cfg := data.moveConsumer (by rw [phase]; rfl)
        exact { moved with }
    | cons item rest =>
      simp only [queue] at taken
      cases taken
      exact data.pop inside phase queue
  | waiting =>
    simp only [phase] at taken
    cases taken
  | woken =>
    simp only [phase] at taken
    split_ifs at taken with free
    cases taken
    have moved : (s.setConsumer c .checking).Data cfg := data.moveConsumer (by rw [phase]; rfl)
    exact { moved with }
  | popped item =>
    cases impl with
    | cpp =>
      simp only [phase, Option.map_eq_some_iff] at taken
      obtain ⟨u, notified, rfl⟩ := taken
      obtain ⟨data', same⟩ := data.of_notifyNotFull notified
      exact data'.moveConsumer (by rw [same, phase]; rfl)
    | rust =>
      simp only [phase] at taken
      cases taken
      have moved : (s.setConsumer c (.unlocked item)).Data cfg :=
        data.moveConsumer (by rw [phase]; rfl)
      exact { moved with }
  | notified item =>
    simp only [phase] at taken
    cases taken
    have moved : (s.setConsumer c (.returned item)).Data cfg :=
      data.moveConsumer (by rw [phase]; rfl)
    exact { moved with }
  | unlocked item =>
    simp only [phase, Option.map_eq_some_iff] at taken
    obtain ⟨u, notified, rfl⟩ := taken
    obtain ⟨data', same⟩ := data.of_notifyNotFull notified
    exact data'.moveConsumer (by rw [same, phase]; rfl)
  | returned item =>
    simp only [phase] at taken
    cases taken
    exact data.fold phase
  | finished =>
    simp only [phase] at taken
    cases taken

theorem stepMain {t : State} (data : s.Data cfg) (taken : s.stepMain cfg = some t) :
    t.Data cfg := by
  unfold State.stepMain at taken
  cases phase : s.main with
  | joining =>
    simp only [phase, Option.ite_none_right_eq_some, Option.some.injEq] at taken
    obtain ⟨-, rfl⟩ := taken
    exact { data with }
  | closing =>
    simp only [phase, Option.ite_none_right_eq_some, Option.some.injEq] at taken
    obtain ⟨-, rfl⟩ := taken
    exact { data with }
  | locked =>
    simp only [phase, Option.some.injEq] at taken
    obtain rfl := taken
    exact { data with }
  | unlocked =>
    simp only [phase, Option.some.injEq] at taken
    obtain rfl := taken
    refine { data with tally := fun c => ?_ }
    have held : (s.consumer c).wake.held = (s.consumer c).held := by
      cases s.consumer c <;> rfl
    change Tally _ (s.consumer c).wake.held _ _
    rw [held]
    exact data.tally c
  | draining =>
    simp only [phase, Option.ite_none_right_eq_some, Option.some.injEq] at taken
    obtain ⟨-, rfl⟩ := taken
    exact { data with }
  | finished =>
    simp only [phase] at taken
    cases taken

theorem keeps {impl : Impl} {a : Action} {t : State} (data : s.Data cfg)
    (taken : s.step impl cfg a = some t) : t.Data cfg := by
  cases a with
  | move who target =>
    cases who with
    | producer p =>
      obtain ⟨inside, taken⟩ := Option.ite_none_right_eq_some.mp taken
      exact data.stepProducer inside taken
    | consumer c =>
      obtain ⟨inside, taken⟩ := Option.ite_none_right_eq_some.mp taken
      exact data.stepConsumer inside taken
    | main => exact data.stepMain taken
  | spurious who =>
    cases who with
    | producer p =>
      obtain ⟨⟨inside, asleep⟩, made⟩ := Option.ite_none_right_eq_some.mp taken
      cases phase : s.producer p with
      | waiting i =>
        rw [phase] at made
        cases made
        exact data.wakeProducer inside phase
      | _ =>
        rw [phase] at asleep
        cases asleep
    | consumer c =>
      obtain ⟨⟨-, asleep⟩, made⟩ := Option.ite_none_right_eq_some.mp taken
      cases made
      exact data.wakeConsumer asleep
    | main => cases taken

theorem init (impl : Impl) (cfg : Config) : (workq impl cfg).init.Data cfg := by
  have stride := cfg.someProducer
  refine ⟨fun p inside => Nat.mod_eq_of_lt inside, ?_, ?_, rfl, ?_, List.nodup_nil, fun j => ?_, ?_,
    ?_, fun c => ⟨[], rfl, rfl, rfl⟩⟩
  · rintro p i ⟨⟩
  · rintro p i ⟨⟩
  · intro item member
    cases member
  · refine iff_of_false List.not_mem_nil fun both => ?_
    exact absurd (Nat.mod_le j cfg.producers) (not_le.mpr both.2)
  · exact Nat.add_eq_zero_iff.mpr ⟨rfl, count_eq_zero fun p _ => rfl⟩
  · intro entry member
    cases member

end Data

end State

section Fold

variable {M : Type*} (op : M → M → M) [Std.Commutative op] [Std.Associative op]

/-- What one summand gains, the total gains. -/
theorem foldl_update (start : M) (f : ℕ → M) {c n : ℕ} (inside : c < n) (v : M) :
    ((List.range n).map (Function.update f c (op (f c) v))).foldl op start =
      op (((List.range n).map f).foldl op start) v := by
  induction n with
  | zero => exact absurd inside (Nat.not_lt_zero c)
  | succ n ih =>
    simp only [List.range_succ, List.map_append, List.foldl_append, List.map_singleton,
      List.foldl_cons, List.foldl_nil]
    rcases Nat.lt_succ_iff_lt_or_eq.mp inside with earlier | rfl
    · rw [ih earlier, Function.update_of_ne (ne_of_gt earlier), @Std.Associative.assoc _ op _,
        @Std.Associative.assoc _ op _, @Std.Commutative.comm _ op _ v]
    · have others : (List.range c).map (Function.update f c (op (f c) v)) =
          (List.range c).map f := by
        refine List.map_congr_left fun d member => ?_
        exact Function.update_of_ne (ne_of_lt (List.mem_range.mp member)) _ _
      rw [others, Function.update_self, @Std.Associative.assoc _ op _]

/-- The totals of the consumers are a total over what they popped. -/
theorem foldl_mine (start : M) (value : List Item → M) (gain : Item → M)
    (gains : ∀ items item, value (items ++ [item]) = op (value items) (gain item)) {n : ℕ}
    (nothing : op start (value []) = start)
    {popped : List (ℕ × Item)} (popper : ∀ entry ∈ popped, entry.1 < n) :
    ((List.range n).map fun c => value (mine popped c)).foldl op start =
      (popped.map fun entry => gain entry.2).foldl op start := by
  induction popped using List.reverseRecOn with
  | nil =>
    induction n with
    | zero => rfl
    | succ n ih =>
      rw [List.range_succ, List.map_append, List.foldl_append, ih (by simp)]
      exact nothing
  | append_singleton popped entry ih =>
    have earlier : ∀ entry ∈ popped, entry.1 < n :=
      fun other member => popper other (List.mem_append_left _ member)
    have inside : entry.1 < n := popper entry (List.mem_append_right _ (List.mem_singleton_self _))
    have next : (fun c => value (mine (popped ++ [entry]) c)) =
        Function.update (fun c => value (mine popped c)) entry.1
          (op (value (mine popped entry.1)) (gain entry.2)) := by
      funext c
      rw [mine_append popped entry.1 c entry.2]
      rcases eq_or_ne c entry.1 with rfl | apart
      · rw [if_pos rfl, Function.update_self, gains]
      · rw [if_neg apart.symm, Function.update_of_ne apart]
    rw [next, foldl_update op start _ inside, ih earlier, List.map_append, List.foldl_append]
    rfl

end Fold

/-- What holds in every state of a run of workq. -/
structure State.Right (impl : Impl) (cfg : Config) (s : State) : Prop where
  bounded : s.queue.length ≤ cfg.cap
  once : (s.popped.map fun entry => entry.2.index).Nodup
  small : ∀ entry ∈ s.popped, entry.2.index < cfg.items
  live : ¬ s.Deadlocked impl cfg
  complete : s.main = .finished →
    (s.popped.map fun entry => entry.2.index).Perm (List.range cfg.items) ∧
    s.produced = cfg.items ∧ s.consumed cfg = cfg.items ∧
    s.checksum cfg = xorAll ((List.range cfg.items).map fun i => payload cfg.seed (UInt64.ofNat i))

namespace State

variable {cfg : Config} {s : State}

/-- When every producer has finished, every index has been pushed. -/
theorem Data.pushed_of_joined (data : s.Data cfg)
    (joined : ∀ p < cfg.producers, (s.producer p).isFinished = true) :
    (s.pushed.map Item.index).Perm (List.range cfg.items) := by
  rw [List.perm_ext_iff_of_nodup data.once List.nodup_range]
  intro j
  rw [data.pushed, List.mem_range]
  refine and_iff_left_of_imp fun small => ?_
  have share := Nat.mod_lt j cfg.someProducer
  cases phase : s.producer (j % cfg.producers) with
  | finished i => exact small.trans_le (data.ended _ i phase)
  | _ =>
    have ended := joined _ share
    rw [phase] at ended
    cases ended

theorem right_of_inv {impl : Impl} (sync : s.Sync cfg) (data : s.Data cfg) : s.Right impl cfg := by
  have split : s.pushed.map Item.index =
      (s.popped.map fun entry => entry.2.index) ++ s.queue.map Item.index := by
    rw [data.split, List.map_append, List.map_map]
    rfl
  refine ⟨sync.bounded, ?_, fun entry member => ?_, sync.not_deadlocked, fun ended => ?_⟩
  · have once := data.once
    rw [split] at once
    exact once.of_append_left
  · refine ((data.pushed entry.2.index).mp ?_).1
    rw [split]
    exact List.mem_append_left _ (List.mem_map.mpr ⟨entry, member, rfl⟩)
  · have joined := sync.joined (by rw [ended]; simp)
    have drained := sync.drained ended
    have empty := (sync.spent 0 (drained 0 cfg.someConsumer)).2
    have pushed := data.pushed_of_joined joined
    have whole : s.pushed = s.popped.map Prod.snd := by
      rw [data.split, empty, List.append_nil]
    have folded : ∀ c ∈ List.range cfg.consumers, s.counts c = (mine s.popped c).length ∧
        s.sums c = xorAll ((mine s.popped c).map Item.value) := by
      intro c member
      obtain ⟨folded, same, tally⟩ := data.tally c
      rw [drained c (List.mem_range.mp member)] at same
      rw [same.trans (List.append_nil folded)]
      exact tally
    have indices : s.popped.map (fun entry => entry.2.index) = s.pushed.map Item.index := by
      rw [whole, List.map_map]
      rfl
    have length : s.popped.length = cfg.items := by
      simpa [whole] using pushed.length_eq
    refine ⟨indices ▸ pushed, ?_, ?_, ?_⟩
    · have counted := data.produced
      have none : count Producer.behind s.producer cfg.producers = 0 := by
        refine count_eq_zero fun p inside => ?_
        have ended := joined p inside
        cases phase : s.producer p <;> rw [phase] at ended <;> first | rfl | cases ended
      rw [none, whole, List.length_map, length] at counted
      exact counted
    · have totals := foldl_mine (· + ·) 0 List.length (fun _ => 1)
        (fun items item => List.length_append) rfl data.popper
      rw [consumed, List.map_congr_left fun c member => (folded c member).1, totals,
        ← length, List.map_const', ← List.sum_eq_foldl]
      simp
    · have totals := foldl_mine (· ^^^ ·) 0 (fun items => xorAll (items.map Item.value)) Item.value
        (fun items item => by rw [List.map_append]; exact xorAll_append _ _) rfl data.popper
      rw [checksum, xorAll, List.map_congr_left fun c member => (folded c member).2, totals]
      have values : s.popped.map (fun entry => entry.2.value) =
          (s.pushed.map Item.index).map fun i => payload cfg.seed (UInt64.ofNat i) := by
        have own : s.popped.map (fun entry => entry.2.value) = s.pushed.map Item.value := by
          rw [whole, List.map_map]
          rfl
        rw [own, List.map_map]
        exact List.map_congr_left data.value
      rw [values]
      exact (pushed.map _).foldl_op_eq

theorem inv_of_run {impl : Impl} {acts : List Action} (run : (workq impl cfg).run? acts = some s) :
    s.Sync cfg ∧ s.Data cfg :=
  @Machine.run?_keeps _ _ _ (fun s => s.Sync cfg ∧ s.Data cfg)
    ⟨Sync.init impl cfg, Data.init impl cfg⟩
    (fun _ _ _ inv taken => ⟨inv.1.keeps taken, inv.2.keeps taken⟩) _ _ run

end State

/-- Under every schedule, with spurious wake-ups, the queue stays within its capacity, no index is
popped twice, no wake-up is lost, and a run that ends has popped and folded every index. -/
theorem workq_right {impl : Impl} {cfg : Config} {acts : List Action} {s : State}
    (run : (workq impl cfg).run? acts = some s) : s.Right impl cfg := by
  obtain ⟨sync, data⟩ := State.inv_of_run run
  exact State.right_of_inv sync data

/-- One producer, one consumer and one item, for which the consumer waits. -/
def one : Config := ⟨1, 1, 1, 1, 0x0123456789ABCDEF, by decide, by decide, by decide⟩

/-- The consumer comes first, and goes to sleep; the producer wakes it. -/
def oneActs : List Action :=
  let p := Action.move (.producer 0) 0
  let c := Action.move (.consumer 0) 0
  let m := Action.move .main 0
  [c, c, p, p, p, p, p, p, m, m, m, c, c, m, c, c, c, c, c, m]

theorem workq_right_one : ∃ s, (workq .cpp one).run? oneActs = some s ∧ s.main = .finished ∧
    s.Right .cpp one := by
  obtain ⟨s, run, ended⟩ : ∃ s, (workq .cpp one).run? oneActs = some s ∧ s.main = .finished :=
    ⟨_, rfl, rfl⟩
  exact ⟨s, run, ended, workq_right run⟩

end LinuxSys.Workq
