import LinuxSys.Lib.Machine
import Mathlib.Algebra.Group.Nat.Defs
import Mathlib.Logic.Function.Basic
import Mathlib.Data.List.Sigma

/-! # A single-writer sequence lock

A writer bumps a wrapping sequence word, stores into the cells one at a time, and bumps it again;
a reader loads the word, copies the cells one at a time in any order, and loads it once more. A
copy is kept when both loads gave the same even word. `bumps` and what a reading or a snapshot says
of it are history that no step looks at. The cells' types may differ. `contents` is what the cells
hold after each update when nobody reads.
-/

namespace LinuxSys.Lib.Seqlock

variable {A : Type*} {V : A → Type*} {w : ℕ}

/-- One attempt to read, between its two loads of the word. -/
structure Reading (V : A → Type*) (w : ℕ) where
  first : BitVec w
  since : ℕ
  got : (a : A) → Option (V a)

/-- A copy that was kept: how many updates were complete at its first load, and how many were
begun before its second. -/
structure Snapshot (V : A → Type*) where
  after : ℕ
  during : ℕ
  got : (a : A) → Option (V a)

structure State (V : A → Type*) (w : ℕ) where
  seq : BitVec w := 0
  mem : (a : A) → V a
  /-- the stores left of the update in progress -/
  writing : Option (List (Sigma V)) := none
  reading : Option (Reading V w) := none
  bumps : ℕ := 0
  snaps : List (Snapshot V) := []

inductive Action (A : Type*) where
  | bump
  | store
  | unbump
  | load
  | copy (a : A)
  | reload

variable [DecidableEq A]

/-- The cells after some stores. -/
def stored (mem : (a : A) → V a) : List (Sigma V) → (a : A) → V a
  | [] => mem
  | one :: rest => stored (Function.update mem one.1 one.2) rest

theorem stored_append (mem : (a : A) → V a) (first last : List (Sigma V)) :
    stored mem (first ++ last) = stored (stored mem first) last := by
  induction first generalizing mem with
  | nil => rfl
  | cons one rest ih => exact ih _

/-- What the cells hold after `k` updates. -/
def contents (stores : ℕ → List (Sigma V)) (mem : (a : A) → V a) : ℕ → (a : A) → V a
  | 0 => mem
  | k + 1 => stored (contents stores mem k) (stores k)

/-- `stores k` is what the update after `k` complete ones stores; `cells` is what a reader
copies. -/
def step (stores : ℕ → List (Sigma V)) (cells : List A) (s : State V w) :
    Action A → Option (State V w)
  | .bump =>
    match s.writing with
    | none =>
      some { s with seq := s.seq + 1, bumps := s.bumps + 1, writing := some (stores (s.bumps / 2)) }
    | some _ => none
  | .store =>
    match s.writing with
    | some (one :: rest) =>
      some { s with mem := Function.update s.mem one.1 one.2, writing := some rest }
    | _ => none
  | .unbump =>
    match s.writing with
    | some [] =>
      some { s with seq := s.seq + 1, bumps := s.bumps + 1, writing := none }
    | _ => none
  | .load =>
    match s.reading with
    | some _ => none
    | none =>
      if s.seq &&& 1#w ≠ 0#w then some s
      else some { s with reading := some ⟨s.seq, s.bumps, fun _ => none⟩ }
  | .copy a =>
    match s.reading with
    | none => none
    | some r =>
      if a ∈ cells ∧ (r.got a).isNone then
        some { s with reading := some { r with got := Function.update r.got a (some (s.mem a)) } }
      else none
  | .reload =>
    match s.reading with
    | none => none
    | some r =>
      if ∀ a ∈ cells, (r.got a).isSome then
        if s.seq = r.first then
          some { s with
            reading := none
            snaps := s.snaps ++ [⟨r.since / 2, (s.bumps - r.since + 1) / 2, r.got⟩] }
        else some { s with reading := none }
      else none

/-- One writer and one reader on a lock. -/
def machine (stores : ℕ → List (Sigma V)) (cells : List A) (mem : (a : A) → V a) :
    Machine (State V w) (Action A) where
  init := { mem }
  step := step stores cells

section Steps

variable {s t : State V w} {stores : ℕ → List (Sigma V)} {cells : List A}

theorem step_bump (taken : step stores cells s .bump = some t) :
    s.writing = none ∧ t = { s with
      seq := s.seq + 1, bumps := s.bumps + 1, writing := some (stores (s.bumps / 2)) } := by
  simp only [step] at taken
  split at taken
  · next idle =>
    cases taken
    exact ⟨idle, rfl⟩
  · cases taken

theorem step_store (taken : step stores cells s .store = some t) :
    ∃ one rest, s.writing = some (one :: rest) ∧
      t = { s with mem := Function.update s.mem one.1 one.2, writing := some rest } := by
  simp only [step] at taken
  split at taken
  · next one rest writing =>
    cases taken
    exact ⟨one, rest, writing, rfl⟩
  · cases taken

theorem step_unbump (taken : step stores cells s .unbump = some t) :
    s.writing = some [] ∧ t = { s with
      seq := s.seq + 1, bumps := s.bumps + 1, writing := none } := by
  simp only [step] at taken
  split at taken
  · next writing =>
    cases taken
    exact ⟨writing, rfl⟩
  · cases taken

/-- A first load starts an attempt, unless the word is odd. -/
theorem step_load (taken : step stores cells s .load = some t) :
    t = s ∨ ¬ s.seq &&& 1#w ≠ 0#w ∧
      t = { s with reading := some ⟨s.seq, s.bumps, fun _ => none⟩ } := by
  simp only [step] at taken
  split at taken
  · cases taken
  · split at taken
    · cases taken
      exact .inl rfl
    · next even =>
      cases taken
      exact .inr ⟨even, rfl⟩

theorem step_copy {a : A} (taken : step stores cells s (.copy a) = some t) :
    ∃ r, s.reading = some r ∧ t = { s with
      reading := some { r with got := Function.update r.got a (some (s.mem a)) } } := by
  simp only [step] at taken
  split at taken
  · cases taken
  · next r reading =>
    split at taken
    · cases taken
      exact ⟨r, reading, rfl⟩
    · cases taken

/-- A second load ends the attempt: its copy is kept or thrown away. -/
theorem step_reload (taken : step stores cells s .reload = some t) : ∃ r, s.reading = some r ∧
      (s.seq = r.first ∧ (∀ a ∈ cells, (r.got a).isSome) ∧ t = { s with
          reading := none
          snaps := s.snaps ++ [⟨r.since / 2, (s.bumps - r.since + 1) / 2, r.got⟩] } ∨
        s.seq ≠ r.first ∧ t = { s with reading := none }) := by
  simp only [step] at taken
  split at taken
  · cases taken
  · next r reading =>
    refine ⟨r, reading, ?_⟩
    split at taken
    · next all =>
      split at taken
      · next same =>
        cases taken
        exact .inl ⟨same, all, rfl⟩
      · next different =>
        cases taken
        exact .inr ⟨different, rfl⟩
    · cases taken

end Steps

/-- The number of updates that are complete. -/
def State.complete (s : State V w) : ℕ := s.bumps / 2

theorem ofNat_and_one (wide : 0 < w) (n : ℕ) :
    BitVec.ofNat w n &&& 1#w ≠ 0#w ↔ n % 2 = 1 := by
  have even : 2 ∣ 2 ^ w := by
    simpa using Nat.pow_dvd_pow 2 wide
  rw [ne_eq, ← BitVec.toNat_inj, BitVec.toNat_and, BitVec.toNat_one wide, Nat.and_one_is_mod,
    BitVec.toNat_ofNat, Nat.mod_mod_of_dvd _ even, BitVec.toNat_zero]
  omega

theorem ofNat_add_one (n : ℕ) : BitVec.ofNat w n + 1 = BitVec.ofNat w (n + 1) := by
  apply BitVec.eq_of_toNat_eq
  simp [BitVec.toNat_add]

/-- Two counts less than a full turn of the word apart give different words. -/
theorem eq_of_ofNat_eq {m n : ℕ} (same : BitVec.ofNat w n = BitVec.ofNat w m) (least : m ≤ n)
    (near : n < m + 2 ^ w) : n = m := by
  have residues : n % 2 ^ w = m % 2 ^ w := by
    simpa using congrArg BitVec.toNat same
  have multiple : 2 ^ w ∣ n - m := Nat.dvd_of_mod_eq_zero (Nat.sub_mod_eq_zero_of_mod_eq residues)
  have zero := Nat.eq_zero_of_dvd_of_lt multiple (by omega)
  omega

/-- The invariant of the lock over the contents it started with. -/
structure Kept (stores : ℕ → List (Sigma V)) (cells : List A) (mem : (a : A) → V a)
    (s : State V w) : Prop where
  seq : s.seq = BitVec.ofNat w s.bumps
  quiet : s.writing = none → s.bumps % 2 = 0 ∧ s.mem = contents stores mem s.complete
  busy : ∀ left, s.writing = some left → s.bumps % 2 = 1 ∧
    stored s.mem left = contents stores mem (s.complete + 1)
  reading : ∀ r, s.reading = some r → r.first = BitVec.ofNat w r.since ∧ r.since % 2 = 0 ∧
    r.since ≤ s.bumps ∧ (s.bumps = r.since → ∀ a v, r.got a = some v → s.mem a = v)
  snaps : ∀ r ∈ s.snaps, r.after ≤ s.complete ∧
    (2 * r.during < 2 ^ w → ∀ a ∈ cells, r.got a = some (contents stores mem r.after a))

variable {stores : ℕ → List (Sigma V)} {cells : List A} {mem : (a : A) → V a}

namespace Kept

variable {s t : State V w}

theorem init : Kept stores cells mem ({ mem } : State V w) := by
  constructor <;> simp [contents, State.complete]

/-- A bump leaves no reading that could be kept as it stands. -/
theorem reading_bump (inv : Kept stores cells mem s) (r : Reading V w)
    (reading : s.reading = some r) : r.first = BitVec.ofNat w r.since ∧ r.since % 2 = 0 ∧
      r.since ≤ s.bumps + 1 ∧
      (s.bumps + 1 = r.since → ∀ a v, r.got a = some v → s.mem a = v) := by
  obtain ⟨first, even, before, -⟩ := inv.reading r reading
  refine ⟨first, even, by omega, fun same => ?_⟩
  omega

theorem snaps_bump (inv : Kept stores cells mem s) : ∀ r ∈ s.snaps, r.after ≤ (s.bumps + 1) / 2 ∧
    (2 * r.during < 2 ^ w → ∀ a ∈ cells, r.got a = some (contents stores mem r.after a)) := by
  intro r member
  obtain ⟨after, whole⟩ := inv.snaps r member
  refine ⟨?_, whole⟩
  have grows : s.bumps / 2 ≤ (s.bumps + 1) / 2 := Nat.div_le_div_right (by omega)
  exact Nat.le_trans after grows

/-- No update began between two loads that gave the same word, unless the word went all the way
round. -/
theorem still_of_same (inv : Kept stores cells mem s) {r : Reading V w}
    (reading : s.reading = some r) (same : s.seq = r.first)
    (few : 2 * ((s.bumps - r.since + 1) / 2) < 2 ^ w) : s.bumps = r.since ∧ s.writing = none := by
  obtain ⟨first, even, before, -⟩ := inv.reading r reading
  have still : s.bumps = r.since := by
    apply eq_of_ofNat_eq (w := w) _ before
    · omega
    · rw [← inv.seq, same, first]
  refine ⟨still, ?_⟩
  cases writing : s.writing with
  | none => rfl
  | some left =>
    have odd := (inv.busy left writing).1
    omega

theorem keeps (wide : 0 < w) (inv : Kept stores cells mem s) {a : Action A}
    (taken : step stores cells s a = some t) : Kept stores cells mem t := by
  cases a with
  | bump =>
    obtain ⟨idle, rfl⟩ := step_bump taken
    obtain ⟨even, now⟩ := inv.quiet idle
    have same : (s.bumps + 1) / 2 = s.bumps / 2 := by omega
    have odd : (s.bumps + 1) % 2 = 1 := by omega
    refine ⟨?_, by simp, ?_, inv.reading_bump, inv.snaps_bump⟩
    · rw [inv.seq, ofNat_add_one]
    · rintro left ⟨⟩
      refine ⟨odd, ?_⟩
      rw [now, State.complete, State.complete, same]
      rfl
  | store =>
    obtain ⟨one, rest, writing, rfl⟩ := step_store taken
    obtain ⟨odd, rest'⟩ := inv.busy _ writing
    refine ⟨inv.seq, by simp, ?_, ?_, inv.snaps⟩
    · rintro left ⟨⟩
      exact ⟨odd, rest'⟩
    · intro r reading
      obtain ⟨first, even, before, -⟩ := inv.reading r reading
      refine ⟨first, even, before, fun same => ?_⟩
      change s.bumps = r.since at same
      omega
  | unbump =>
    obtain ⟨writing, rfl⟩ := step_unbump taken
    obtain ⟨odd, now⟩ := inv.busy _ writing
    have next : (s.bumps + 1) / 2 = s.bumps / 2 + 1 := by omega
    have even : (s.bumps + 1) % 2 = 0 := by omega
    refine ⟨?_, fun _ => ⟨even, ?_⟩, by simp, inv.reading_bump, inv.snaps_bump⟩
    · rw [inv.seq, ofNat_add_one]
    · rw [State.complete, next]
      exact now
  | load =>
    rcases step_load taken with rfl | ⟨even, rfl⟩
    · exact inv
    · rw [inv.seq, ofNat_and_one wide] at even
      have since : s.bumps % 2 = 0 := by omega
      refine ⟨inv.seq, inv.quiet, inv.busy, ?_, inv.snaps⟩
      rintro r ⟨⟩
      exact ⟨inv.seq, since, Nat.le_refl _, by simp⟩
  | copy a =>
    obtain ⟨r, reading, rfl⟩ := step_copy taken
    refine ⟨inv.seq, inv.quiet, inv.busy, ?_, inv.snaps⟩
    rintro _ ⟨⟩
    obtain ⟨first, even, before, agree⟩ := inv.reading r reading
    refine ⟨first, even, before, fun same b v got => ?_⟩
    by_cases here : b = a
    · subst here
      simpa using got
    · apply agree same
      simpa [Function.update_of_ne here] using got
  | reload =>
    obtain ⟨r, reading, ⟨same, all, rfl⟩ | ⟨-, rfl⟩⟩ := step_reload taken
    · obtain ⟨-, -, before, agree⟩ := inv.reading r reading
      refine ⟨inv.seq, inv.quiet, inv.busy, by simp, fun snap member => ?_⟩
      rcases List.mem_append.mp member with old | new
      · exact inv.snaps snap old
      · rw [List.mem_singleton.mp new]
        refine ⟨Nat.div_le_div_right before, fun few a inside => ?_⟩
        obtain ⟨still, quiet⟩ := inv.still_of_same reading same few
        obtain ⟨v, got⟩ := Option.isSome_iff_exists.mp (all a inside)
        change r.got a = some (contents stores mem (r.since / 2) a)
        rw [got, ← agree still a v got, (inv.quiet quiet).2, State.complete, still]
    · exact ⟨inv.seq, inv.quiet, inv.busy, by simp, inv.snaps⟩

theorem forget (inv : Kept stores cells mem s) : Kept stores cells mem { s with snaps := [] } :=
  ⟨inv.seq, inv.quiet, inv.busy, inv.reading, by simp⟩

end Kept

section Undisturbed

variable {s : State V w}

/-- An update whose stores nothing comes between. -/
theorem runFrom?_stores (mem : (a : A) → V a) {left : List (Sigma V)}
    (writing : s.writing = some left) :
    (machine stores cells mem).runFrom? s (List.replicate left.length .store) = some { s with
      mem := stored s.mem left
      writing := some [] } := by
  induction left generalizing s with
  | nil => simp [← writing, stored]
  | cons one rest ih =>
    have taken : (machine stores cells mem).step s .store = some { s with
        mem := Function.update s.mem one.1 one.2, writing := some rest } := by
      simp [machine, step, writing]
    rw [List.length_cons, List.replicate_succ, Machine.runFrom?_cons taken]
    exact ih rfl

theorem runFrom?_bump_stores (mem : (a : A) → V a) (idle : s.writing = none) :
    (machine stores cells mem).runFrom? s
        (.bump :: List.replicate (stores s.complete).length .store) = some { s with
      seq := s.seq + 1
      bumps := s.bumps + 1
      mem := stored s.mem (stores s.complete)
      writing := some [] } := by
  have taken : (machine stores cells mem).step s .bump = some { s with
      seq := s.seq + 1, bumps := s.bumps + 1, writing := some (stores s.complete) } := by
    simp [machine, step, idle, State.complete]
  rw [Machine.runFrom?_cons taken]
  exact runFrom?_stores mem rfl

/-- Copies that nothing comes between. -/
theorem runFrom?_copies (mem : (a : A) → V a) {r : Reading V w} {todo : List A}
    (reading : s.reading = some r) (inside : ∀ a ∈ todo, a ∈ cells) (distinct : todo.Nodup)
    (missing : ∀ a ∈ todo, r.got a = none) :
    (machine stores cells mem).runFrom? s (todo.map .copy) = some { s with
      reading := some { r with
        got := fun a => if a ∈ todo then some (s.mem a) else r.got a } } := by
  induction todo generalizing s r with
  | nil => simp [← reading]
  | cons a rest ih =>
    obtain ⟨fresh, distinct⟩ := List.nodup_cons.mp distinct
    have taken : (machine stores cells mem).step s (.copy a) = some { s with
        reading := some { r with got := Function.update r.got a (some (s.mem a)) } } := by
      simp [machine, step, reading, inside a List.mem_cons_self, missing a List.mem_cons_self]
    rw [List.map_cons, Machine.runFrom?_cons taken,
      ih rfl (fun b member => inside b (List.mem_cons_of_mem a member)) distinct]
    · refine congrArg some (State.mk.injEq .. |>.mpr ⟨rfl, rfl, rfl, ?_, rfl, rfl⟩)
      refine congrArg some (Reading.mk.injEq .. |>.mpr ⟨rfl, rfl, ?_⟩)
      funext b
      by_cases here : b = a
      · subst here
        simp [fresh]
      · simp [here]
    · intro b member
      have other : b ≠ a := fun same => fresh (same ▸ member)
      simpa [Function.update_of_ne other] using missing b (List.mem_cons_of_mem a member)

theorem step_load_of_even (wide : 0 < w) (even : s.bumps % 2 = 0)
    (seq : s.seq = BitVec.ofNat w s.bumps) (idle : s.reading = none) :
    step stores cells s .load = some { s with
      reading := some ⟨s.seq, s.bumps, fun _ => none⟩ } := by
  have quiet : ¬ s.seq &&& 1#w ≠ 0#w := by
    rw [seq, ofNat_and_one wide]
    omega
  simp only [step, idle, if_neg quiet]

/-- A whole copy that nothing comes between. -/
theorem runFrom?_copy_all (mem : (a : A) → V a) (first : BitVec w) (since : ℕ)
    (distinct : cells.Nodup) :
    (machine stores cells mem).runFrom? { s with reading := some ⟨first, since, fun _ => none⟩ }
        (cells.map .copy) = some { s with
      reading := some ⟨first, since, fun a => if a ∈ cells then some (s.mem a) else none⟩ } := by
  have reading : ({ s with reading := some ⟨first, since, fun _ => none⟩ } :
      State V w).reading = some ⟨first, since, fun _ => none⟩ := rfl
  exact runFrom?_copies mem reading (fun _ member => member) distinct (fun _ _ => rfl)

theorem step_reload_of_same {r : Reading V w} (reading : s.reading = some r)
    (all : ∀ a ∈ cells, (r.got a).isSome) (same : s.seq = r.first) :
    step stores cells s .reload = some { s with
      reading := none
      snaps := s.snaps ++ [⟨r.since / 2, (s.bumps - r.since + 1) / 2, r.got⟩] } := by
  simp only [step, reading, if_pos all, if_pos same]

end Undisturbed

end LinuxSys.Lib.Seqlock
