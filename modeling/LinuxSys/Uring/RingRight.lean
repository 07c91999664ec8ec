import LinuxSys.Uring.Ring

/-! # Why the rings of fwatch ch10 are right

Each counter is the length of a history, wrapped. The entries handed out and not taken yet, and the
completions posted and not popped, are windows of their rings, so that the masks lead to different
slots and no difference of counters reaches the size of a word.
-/

namespace LinuxSys.Uring.Ring

open Lib Slots

variable {Sqe Cqe : Type}

/-! The invariant. -/

structure Submissions.Inv (c : Setup Sqe Cqe) (sq : Submissions Sqe) : Prop where
  head : sq.sqHead = counter c.sqStart sq.consumed.length
  tail : sq.sqTail = counter c.sqStart sq.published
  localTail : sq.localTail = counter c.sqStart sq.handed.length
  toSubmit : sq.toSubmit = BitVec.ofNat 32 (sq.handed.length - sq.published)
  taken : sq.consumed.length ≤ sq.published
  published : sq.published ≤ sq.handed.length
  slots : ∀ i idx, sq.handed[i]? = some idx → idx = (c.sqStart.toNat + i) % c.entries
  array : Window c.entries c.sqStart.toNat sq.sqArray sq.handed sq.consumed.length
  sqes : Window c.entries c.sqStart.toNat sq.sqes sq.filled sq.consumed.length
  same : sq.filled.length = sq.handed.length
  order : sq.consumed <+: sq.filled

structure Completions.Inv (c : Setup Sqe Cqe) (cq : Completions Cqe) : Prop where
  head : cq.cqHead = counter c.cqStart cq.popped.length
  tail : cq.cqTail = counter c.cqStart cq.posted.length
  cqes : Window c.cqEntries c.cqStart.toNat cq.cqes cq.posted cq.popped.length
  order : cq.popped <+: cq.posted

/-- A head that was loaded when so many entries were taken. -/
def HeadAt (c : Setup Sqe Cqe) (sq : Submissions Sqe) (head : BitVec 32) : Prop :=
  ∃ n ≤ sq.consumed.length, head = counter c.sqStart n ∧ sq.handed.length ≤ n + c.entries

/-- A tail that was loaded when so many completions were posted. -/
def TailAt (c : Setup Sqe Cqe) (cq : Completions Cqe) (tail : BitVec 32) : Prop :=
  ∃ n, cq.popped.length ≤ n ∧ n ≤ cq.posted.length ∧ tail = counter c.cqStart n

def Phase.Inv (c : Setup Sqe Cqe) (sq : Submissions Sqe) (cq : Completions Cqe) : Phase Cqe → Prop
  | .idle => True
  | .claiming head => HeadAt c sq head
  | .popping head tail => head = cq.cqHead ∧ TailAt c cq tail
  | .storing head out => head = cq.cqHead ∧ cq.posted[cq.popped.length]? = some out

structure State.Inv (c : Setup Sqe Cqe) (s : State Sqe Cqe) : Prop where
  sq : s.sq.Inv c
  cq : s.cq.Inv c
  phase : s.phase.Inv c s.sq s.cq

/-! The submission side. -/

section Sizes

variable (c : Setup Sqe Cqe)

theorem entries_lt : c.entries < 2 ^ 32 := Nat.pow_lt_pow_right (by decide) c.sqSmall

theorem cqEntries_lt : c.cqEntries < 2 ^ 32 := Nat.pow_lt_pow_right (by decide) c.cqSmall

theorem slot_sq (n : ℕ) :
    (counter c.sqStart n &&& c.sqMask).toNat = (c.sqStart.toNat + n) % c.entries :=
  toNat_and_mask c.sqSmall.le n

theorem slot_cq (n : ℕ) :
    (counter c.cqStart n &&& c.cqMask).toNat = (c.cqStart.toNat + n) % c.cqEntries :=
  toNat_and_mask c.cqSmall.le n

end Sizes

namespace Submissions.Inv

variable {c : Setup Sqe Cqe} {sq : Submissions Sqe}

theorem headAt (inv : sq.Inv c) : HeadAt c sq sq.sqHead :=
  ⟨_, le_rfl, inv.head, inv.array.fits⟩

/-- What the caller sees between its tail and the head it has loaded. -/
theorem toNat_sub (inv : sq.Inv c) {n : ℕ} (before : n ≤ sq.consumed.length)
    (room : sq.handed.length ≤ n + c.entries) :
    (sq.localTail - counter c.sqStart n).toNat = sq.handed.length - n := by
  have small := entries_lt c
  have taken := inv.taken
  have published := inv.published
  rw [inv.localTail]
  exact toNat_counter_sub (by omega) (by omega)

/-- A slot is handed out exactly when there is one, and then the next. -/
theorem tryGetSqe_eq (inv : sq.Inv c) {n : ℕ} (before : n ≤ sq.consumed.length)
    (room : sq.handed.length ≤ n + c.entries) :
    c.tryGetSqe sq (counter c.sqStart n) = if sq.handed.length = n + c.entries then none
      else some ((c.sqStart.toNat + sq.handed.length) % c.entries) := by
  have positive : 0 < c.entries := Nat.two_pow_pos c.sqBits
  have most : c.sqMask.toNat = c.entries - 1 := toNat_mask c.sqSmall.le
  have apart := inv.toNat_sub before room
  have taken := inv.taken
  have published := inv.published
  have full : sq.localTail - counter c.sqStart n > c.sqMask ↔ sq.handed.length = n + c.entries := by
    rw [gt_iff_lt, BitVec.lt_def, most, apart]
    omega
  rw [Setup.tryGetSqe, inv.localTail, slot_sq, ← inv.localTail]
  simp only [full]

theorem of_tryGetSqe (inv : sq.Inv c) {head : BitVec 32} {idx : ℕ} (loaded : HeadAt c sq head)
    (claim : c.tryGetSqe sq head = some idx) :
    idx = (c.sqStart.toNat + sq.handed.length) % c.entries ∧
      sq.handed.length < sq.consumed.length + c.entries := by
  obtain ⟨n, before, rfl, room⟩ := loaded
  rw [inv.tryGetSqe_eq before room] at claim
  split at claim
  · cases claim
  · next other => exact ⟨(Option.some.inj claim).symm, by omega⟩

/-- The slot of a free place is none of those that the kernel has still to read. -/
theorem not_mem_drop (inv : sq.Inv c) (room : sq.handed.length < sq.consumed.length + c.entries) :
    (c.sqStart.toNat + sq.handed.length) % c.entries ∉ sq.handed.drop sq.consumed.length := by
  intro member
  obtain ⟨i, found⟩ := List.mem_iff_getElem?.mp member
  rw [List.getElem?_drop] at found
  have inside := (List.getElem?_eq_some_iff.mp found).1
  exact offset_ne inside (by omega) (inv.slots _ _ found).symm

theorem claimed (inv : sq.Inv c) (room : sq.handed.length < sq.consumed.length + c.entries) :
    (c.claimed sq ((c.sqStart.toNat + sq.handed.length) % c.entries)).Inv c where
  head := inv.head
  tail := inv.tail
  localTail := by
    rw [Setup.claimed, List.length_append, inv.localTail]
    exact counter_add_one
  toSubmit := by
    rw [Setup.claimed, List.length_append, inv.toSubmit, List.length_singleton,
      Nat.sub_add_comm inv.published, BitVec.ofNat_add]
    rfl
  taken := inv.taken
  published := by
    rw [Setup.claimed, List.length_append]
    exact Nat.le_add_right_of_le inv.published
  slots := by
    intro i idx found
    rcases Nat.lt_or_ge i sq.handed.length with old | new
    · rw [Setup.claimed, List.getElem?_append_left old] at found
      exact inv.slots i idx found
    · have last : i = sq.handed.length := by
        have bound := (List.getElem?_eq_some_iff.mp found).1
        rw [Setup.claimed, List.length_append] at bound
        exact le_antisymm (Nat.le_of_lt_succ bound) new
      subst last
      rw [Setup.claimed, List.getElem?_concat_length] at found
      exact (Option.some.inj found).symm
  array := inv.array.put room _
  sqes := by
    have put := inv.sqes.put (by rw [inv.same]; exact room) c.zero
    rwa [inv.same] at put
  same := by
    rw [Setup.claimed, List.length_append, List.length_append, inv.same]
    rfl
  order := inv.order.trans (List.prefix_append _ _)

theorem fill (inv : sq.Inv c) {i : ℕ} {sqe : Sqe} {next : Submissions Sqe}
    (taken : sq.fill i sqe = some next) : next.Inv c ∧ next.consumed = sq.consumed ∧
      next.handed = sq.handed := by
  unfold Submissions.fill at taken
  split at taken
  · next late =>
    cases pointer : sq.handed[i]? with
    | none =>
      rw [pointer] at taken
      cases taken
    | some idx =>
      rw [pointer] at taken
      cases taken
      have inside := (List.getElem?_eq_some_iff.mp pointer).1
      have behind : sq.consumed.length ≤ i := inv.taken.trans late
      have set := inv.sqes.set behind (by rw [inv.same]; exact inside) sqe
      rw [← inv.slots i idx pointer] at set
      refine ⟨{ inv with sqes := set, same := ?_, order := ?_ }, rfl, rfl⟩
      · rw [List.length_set]
        exact inv.same
      · rw [List.prefix_iff_eq_take, List.take_set_of_le behind]
        exact List.prefix_iff_eq_take.mp inv.order
  · cases taken

theorem submitAndWait (inv : sq.Inv c) : sq.submitAndWait.Inv c :=
  { inv with
    tail := inv.localTail
    toSubmit := by
      rw [Submissions.submitAndWait, Nat.sub_self]
      rfl
    taken := inv.taken.trans inv.published
    published := le_rfl }

/-- The kernel reads the next entry as the caller left it. -/
theorem consume (inv : sq.Inv c) {next : Submissions Sqe} (taken : c.consume sq = some next) :
    next.Inv c ∧ (∃ sqe, next.consumed = sq.consumed ++ [sqe]) ∧ next.handed = sq.handed := by
  unfold Setup.consume at taken
  split at taken
  · cases taken
  · next other =>
    cases taken
    have order := inv.taken
    have published := inv.published
    have more : sq.consumed.length < sq.published := by
      refine lt_of_le_of_ne order fun same => other ?_
      rw [inv.head, inv.tail, same]
    obtain ⟨index, array⟩ := inv.array.take (by omega)
    obtain ⟨content, sqes⟩ := inv.sqes.take (by rw [inv.same]; omega)
    have here : sq.sqArray (sq.sqHead &&& c.sqMask).toNat =
        (c.sqStart.toNat + sq.consumed.length) % c.entries := by
      rw [inv.head, slot_sq]
      exact inv.slots _ _ index
    rw [here]
    have length :
        (sq.consumed ++ [sq.sqes ((c.sqStart.toNat + sq.consumed.length) % c.entries)]).length =
          sq.consumed.length + 1 := by
      rw [List.length_append]
      rfl
    refine ⟨{ inv with
      head := ?_
      taken := by rw [length]; exact more
      array := by rw [length]; exact array
      sqes := by rw [length]; exact sqes
      order := ?_ }, ⟨_, rfl⟩, rfl⟩
    · rw [length, inv.head]
      exact counter_add_one
    · exact prefix_concat inv.order content

end Submissions.Inv

/-! The completion side. -/

namespace Completions.Inv

variable {c : Setup Sqe Cqe} {cq : Completions Cqe}

theorem tailAt (inv : cq.Inv c) : TailAt c cq cq.cqTail := ⟨_, inv.cqes.order, le_rfl, inv.tail⟩

/-- A completion is read exactly when there is one that was posted, and then the next. -/
theorem pop_eq (inv : cq.Inv c) {n : ℕ} (behind : cq.popped.length ≤ n)
    (before : n ≤ cq.posted.length) :
    c.pop cq cq.cqHead (counter c.cqStart n) =
      if cq.popped.length = n then none else cq.posted[cq.popped.length]? := by
  have small := cqEntries_lt c
  have fits := inv.cqes.fits
  have empty : counter c.cqStart cq.popped.length = counter c.cqStart n ↔ cq.popped.length = n :=
    counter_eq_iff behind (by omega)
  rw [Setup.pop, inv.head, slot_cq]
  simp only [empty]
  split
  · rfl
  · next other => rw [(inv.cqes.take (by omega)).1]

theorem store (inv : cq.Inv c) {out : Cqe} (next : cq.posted[cq.popped.length]? = some out) :
    Completions.Inv c { cq with cqHead := cq.cqHead + 1, popped := cq.popped ++ [out] } where
  head := by
    rw [List.length_append, inv.head]
    exact counter_add_one
  tail := inv.tail
  cqes := by
    rw [List.length_append]
    exact (inv.cqes.take (List.getElem?_eq_some_iff.mp next).1).2
  order := prefix_concat inv.order next

theorem post (inv : cq.Inv c) {cqe : Cqe} {next : Completions Cqe}
    (taken : c.post cq cqe = some next) : next.Inv c ∧ next.posted = cq.posted ++ [cqe] ∧
      next.popped = cq.popped ∧ next.cqHead = cq.cqHead := by
  unfold Setup.post at taken
  split at taken
  · next room =>
    cases taken
    have small := cqEntries_lt c
    have fits := inv.cqes.fits
    rw [inv.head, inv.tail, toNat_counter_sub inv.cqes.order (by omega)] at room
    refine ⟨{ inv with tail := ?_, cqes := ?_, order := ?_ }, rfl, rfl, rfl⟩
    · rw [List.length_append, inv.tail]
      exact counter_add_one
    · rw [inv.tail, slot_cq]
      exact inv.cqes.put (by omega) cqe
    · exact inv.order.trans (List.prefix_append _ _)
  · cases taken

end Completions.Inv

/-! Runs. -/

namespace Phase.Inv

variable {c : Setup Sqe Cqe} {p : Phase Cqe} {sq sq' : Submissions Sqe} {cq cq' : Completions Cqe}

/-- Entries that the kernel takes leave what was loaded behind the head. -/
theorem consumed (phase : p.Inv c sq cq) (handed : sq'.handed = sq.handed)
    (grows : sq.consumed.length ≤ sq'.consumed.length) : p.Inv c sq' cq := by
  cases p with
  | idle => trivial
  | claiming head =>
    obtain ⟨n, before, same, room⟩ := phase
    exact ⟨n, before.trans grows, same, by rwa [handed]⟩
  | popping head tail => exact phase
  | storing head out => exact phase

theorem posted (phase : p.Inv c sq cq) {cqe : Cqe} (more : cq'.posted = cq.posted ++ [cqe])
    (popped : cq'.popped = cq.popped) (head : cq'.cqHead = cq.cqHead) : p.Inv c sq cq' := by
  cases p with
  | idle => trivial
  | claiming head => exact phase
  | popping h tail =>
    obtain ⟨same, n, behind, before, tail_eq⟩ := phase
    refine ⟨same.trans head.symm, n, by rwa [popped], ?_, tail_eq⟩
    rw [more, List.length_append]
    exact Nat.le_add_right_of_le before
  | storing h out =>
    refine ⟨phase.1.trans head.symm, ?_⟩
    rw [more, popped, List.getElem?_append_left (List.getElem?_eq_some_iff.mp phase.2).1]
    exact phase.2

end Phase.Inv

namespace State.Inv

variable {c : Setup Sqe Cqe} {s t : State Sqe Cqe}

theorem start (c : Setup Sqe Cqe) : State.Inv c c.init where
  sq := {
    head := by simp [Setup.init, counter]
    tail := by simp [Setup.init, counter]
    localTail := by simp [Setup.init, counter]
    toSubmit := rfl
    taken := le_rfl
    published := le_rfl
    slots := nofun
    array := .empty _ _ _
    sqes := .empty _ _ _
    same := rfl
    order := List.nil_prefix }
  cq := {
    head := by simp [Setup.init, counter]
    tail := by simp [Setup.init, counter]
    cqes := .empty _ _ _
    order := List.nil_prefix }
  phase := trivial

theorem claim (inv : s.Inv c) (taken : c.step s .claim = some t) : t.Inv c := by
  obtain ⟨p, sq, cq⟩ := s
  cases p with
  | claiming head =>
    simp only [Setup.step] at taken
    split at taken
    · cases taken
      exact { inv with phase := trivial }
    · next idx claim =>
      cases taken
      obtain ⟨rfl, room⟩ := inv.sq.of_tryGetSqe inv.phase claim
      exact { inv with sq := inv.sq.claimed room, phase := trivial }
  | idle => cases taken
  | popping head tail => cases taken
  | storing head out => cases taken

theorem read (inv : s.Inv c) (taken : c.step s .read = some t) : t.Inv c := by
  obtain ⟨p, sq, cq⟩ := s
  cases p with
  | popping head tail =>
    obtain ⟨same, n, behind, before, rfl⟩ : head = cq.cqHead ∧ TailAt c cq tail := inv.phase
    subst same
    simp only [Setup.step, inv.cq.pop_eq behind before] at taken
    split at taken
    · cases taken
      exact { inv with phase := trivial }
    · next out found =>
      cases taken
      split at found
      · cases found
      · exact { inv with phase := ⟨rfl, found⟩ }
  | idle => cases taken
  | claiming head => cases taken
  | storing head out => cases taken

theorem step (s : State Sqe Cqe) (a : Action Sqe Cqe) (t : State Sqe Cqe) (inv : s.Inv c)
    (taken : c.step s a = some t) : t.Inv c := by
  cases a with
  | loadHead =>
    obtain ⟨p, sq, cq⟩ := s
    cases p <;> cases taken
    exact { inv with phase := inv.sq.headAt }
  | claim => exact inv.claim taken
  | fill i sqe =>
    obtain ⟨p, sq, cq⟩ := s
    cases p with
    | idle =>
      obtain ⟨next, fills, rfl⟩ := Option.map_eq_some_iff.mp taken
      exact { inv with sq := (inv.sq.fill fills).1 }
    | claiming head => cases taken
    | popping head tail => cases taken
    | storing head out => cases taken
  | submit =>
    obtain ⟨p, sq, cq⟩ := s
    cases p <;> cases taken
    exact { inv with sq := inv.sq.submitAndWait }
  | load =>
    obtain ⟨p, sq, cq⟩ := s
    cases p <;> cases taken
    exact { inv with phase := ⟨rfl, inv.cq.tailAt⟩ }
  | read => exact inv.read taken
  | store =>
    obtain ⟨p, sq, cq⟩ := s
    cases p <;> cases taken
    obtain ⟨same, next⟩ : _ = cq.cqHead ∧ cq.posted[cq.popped.length]? = some _ := inv.phase
    subst same
    exact { inv with cq := inv.cq.store next, phase := trivial }
  | consume =>
    obtain ⟨sq, consumes, rfl⟩ := Option.map_eq_some_iff.mp taken
    obtain ⟨kept, ⟨sqe, more⟩, handed⟩ := inv.sq.consume consumes
    exact { inv with sq := kept, phase := Phase.Inv.consumed inv.phase handed (by simp [more]) }
  | post cqe =>
    obtain ⟨cq, posts, rfl⟩ := Option.map_eq_some_iff.mp taken
    obtain ⟨kept, more, popped, head⟩ := inv.cq.post posts
    exact { inv with cq := kept, phase := Phase.Inv.posted inv.phase more popped head }

end State.Inv

/-! What the claim of a slot and the taking of a completion come to. -/

/-- The head that a call has loaded, or would load now. -/
def State.Loaded (s : State Sqe Cqe) (head : BitVec 32) : Prop :=
  s.phase = .claiming head ∨ s.phase = .idle ∧ head = s.sq.sqHead

/-- From here on calls of `pop` alone give what was posted and not popped. -/
def Setup.Delivers (c : Setup Sqe Cqe) (s : State Sqe Cqe) : Prop :=
  ∃ pops t, (∀ a ∈ pops, a = .load ∨ a = .read ∨ a = .store) ∧
    c.ring.runFrom? s pops = some t ∧ t.cq.posted = s.cq.posted ∧ t.cq.popped = s.cq.posted

structure Right (c : Setup Sqe Cqe) (s : State Sqe Cqe) : Prop where
  bounded : (s.sq.localTail - s.sq.sqHead).toNat ≤ c.entries
  outstanding : s.sq.handed.length = s.sq.consumed.length + (s.sq.localTail - s.sq.sqHead).toNat
  null : ∀ head, s.Loaded head →
    (c.tryGetSqe s.sq head = none ↔ (s.sq.localTail - head).toNat = c.entries)
  fresh : ∀ head idx, s.Loaded head → c.tryGetSqe s.sq head = some idx →
    idx ∉ s.sq.handed.drop s.sq.consumed.length
  inOrder : s.sq.consumed <+: s.sq.filled
  delivered : s.cq.popped <+: s.cq.posted
  next : s.phase = .idle →
    c.pop s.cq s.cq.cqHead s.cq.cqTail = (s.cq.posted.drop s.cq.popped.length).head?
  delivers : s.phase = .idle → c.Delivers s

namespace State.Inv

variable {c : Setup Sqe Cqe} {s : State Sqe Cqe}

theorem headAt (inv : s.Inv c) {head : BitVec 32} (loaded : s.Loaded head) : HeadAt c s.sq head := by
  rcases loaded with claiming | ⟨-, rfl⟩
  · have phase := inv.phase
    rwa [claiming] at phase
  · exact inv.sq.headAt

theorem pop_now (inv : s.Inv c) :
    c.pop s.cq s.cq.cqHead s.cq.cqTail = s.cq.posted[s.cq.popped.length]? := by
  have order := inv.cq.cqes.order
  rw [inv.cq.tail, inv.cq.pop_eq order le_rfl]
  split
  · next all => rw [all, List.getElem?_eq_none le_rfl]
  · rfl

/-- One call of `pop` takes the next completion. -/
theorem run_pop (inv : s.Inv c) (idle : s.phase = .idle) {out : Cqe}
    (more : s.cq.posted[s.cq.popped.length]? = some out) :
    c.ring.runFrom? s [.load, .read, .store] = some { s with
      cq := { s.cq with cqHead := s.cq.cqHead + 1, popped := s.cq.popped ++ [out] } } := by
  have found := inv.pop_now
  rw [more] at found
  obtain ⟨p, sq, cq⟩ := s
  cases idle
  simp only [Machine.runFrom?, Setup.ring, Setup.step, Option.bind_some]
  rw [found]
  rfl

theorem delivers (inv : s.Inv c) (idle : s.phase = .idle) : c.Delivers s := by
  induction left : s.cq.posted.length - s.cq.popped.length generalizing s with
  | zero =>
    have order := inv.cq.cqes.order
    have all := inv.cq.order.eq_of_length (by omega)
    exact ⟨[], s, nofun, rfl, rfl, all⟩
  | succ n ih =>
    have more : s.cq.posted[s.cq.popped.length]? = some _ :=
      List.getElem?_eq_getElem (by omega)
    have first := inv.run_pop idle more
    have kept := Machine.runFrom?_keeps step inv first
    obtain ⟨pops, t, only, run, same, all⟩ := ih kept idle (by simp; omega)
    refine ⟨[.load, .read, .store] ++ pops, t, ?_, ?_, same, all⟩
    · intro a member
      rcases List.mem_append.mp member with now | later
      · simpa using now
      · exact only a later
    · rw [Machine.runFrom?_append_of first]
      exact run

theorem right (inv : s.Inv c) : Right c s where
  bounded := by
    have fits := inv.sq.array.fits
    rw [inv.sq.head, inv.sq.toNat_sub le_rfl fits]
    omega
  outstanding := by
    have order := inv.sq.array.order
    rw [inv.sq.head, inv.sq.toNat_sub le_rfl inv.sq.array.fits]
    omega
  null := by
    intro head loaded
    obtain ⟨n, before, rfl, room⟩ := inv.headAt loaded
    have order := inv.sq.array.order
    rw [inv.sq.tryGetSqe_eq before room, inv.sq.toNat_sub before room, ite_eq_left_iff]
    constructor
    · intro full
      by_contra other
      exact absurd (full (by omega)) nofun
    · intro full other
      omega
  fresh := by
    intro head idx loaded claim
    obtain ⟨rfl, room⟩ := inv.sq.of_tryGetSqe (inv.headAt loaded) claim
    exact inv.sq.not_mem_drop room
  inOrder := inv.sq.order
  delivered := inv.cq.order
  next := by
    intro _
    rw [inv.pop_now, List.head?_drop]
  delivers := inv.delivers

end State.Inv

/-- Whatever the caller and the kernel do. -/
theorem rings_right (c : Setup Sqe Cqe) (acts : List (Action Sqe Cqe)) (s : State Sqe Cqe)
    (run : c.ring.run? acts = some s) : Right c s :=
  (Machine.run?_keeps (State.Inv.start c) State.Inv.step run).right

/-- Two entries, and counters that wrap at once. -/
def wrapping : Setup ℕ ℕ where
  sqBits := 1
  cqBits := 1
  sqSmall := by decide
  cqSmall := by decide
  sqStart := 0xFFFFFFFF
  cqStart := 0xFFFFFFFF
  zero := 0
  sqArray := fun _ => 0
  sqes := fun _ => 0
  cqes := fun _ => 0

def twoClaims : List (Action ℕ ℕ) :=
  [.loadHead, .claim, .loadHead, .claim, .fill 0 7, .fill 1 8, .submit, .consume, .post 3, .load,
    .read, .store]

theorem rings_right_wrapping : ∃ s, wrapping.ring.run? twoClaims = some s ∧
    s.sq.consumed = [7] ∧ s.cq.popped = [3] ∧ Right wrapping s :=
  ⟨_, rfl, rfl, rfl, rings_right wrapping twoClaims _ rfl⟩

end LinuxSys.Uring.Ring
