import LinuxSys.Shmkv.Ring

/-! # One `serve` and one `watch`

The two processes over the file that `serve` creates. Their steps on the shared words and bytes
are those of the sequence lock; around them stand the loop of `cmd_serve`, which wakes the futex
after each update, and the loop of `cmd_watch`, which prints from one snapshot every id it has not
seen. The ring holds eight updates, so the back-fill is right only while the counter is at most
eight ahead of the last id seen.
-/

namespace LinuxSys.Shmkv

open Lib

/-- What `parse_u64` accepts. -/
abbrev Count := { n : ℕ // 0 < n ∧ n ≤ 1000000 }

/-- Where `cmd_serve` stands: at update `k` of its loop, or about to wake after it. -/
inductive Serve where
  | opening
  | publishing (k : ℕ)
  | waking (k : ℕ)
deriving DecidableEq, Repr

/-- Where `cmd_watch` stands. -/
inductive Watch where
  | opening
  | top
  | reading (attempt : ℕ)
  | futex
  | parked
  | complete
  | failed
deriving DecidableEq, Repr

/-- An id with the key and the value printed for it. -/
abbrev Line := ℕ × Bytes × Bytes

structure State where
  file : Option Shm := none
  futexWord : BitVec 32 := 0
  serve : Serve := .opening
  watch : Watch := .opening
  last : ℕ := 0
  lines : List Line := []

inductive Action where
  | create
  | lock (a : Seqlock.Action Cell)
  | wake
  | attach
  | timeout
  | top
  | giveUp
  | loadFutex
  | woken

/-- The contents a kept copy stands for. -/
def taken (got : (c : Cell) → Option c.Value) : Contents := fun c => (got c).getD (zeroed c)

/-- The lines printed for the ids from `last + 1` to the counter, `room` of them at most. -/
def backFill (lang : Language) (c : Contents) (counter last room : ℕ) : List Line :=
  (List.range' (last + 1) (min (counter - last) room)).map fun id => (id, readSlot lang c id)

/-- The body of the loop of `cmd_watch` on a snapshot. -/
def State.observe (lang : Language) (events : Count) (s : State) (file : Shm)
    (got : (c : Cell) → Option c.Value) : State :=
  let counter := (taken got .counter : UInt64).toNat
  if counter > s.last then
    { s with
      file := some file
      watch := .top
      last := counter
      lines := s.lines ++
        backFill lang (taken got) counter s.last (events.1 - s.lines.length) }
  else { s with file := some file, watch := .futex }

/-- A step on the shared file: the writer's inside the loop of `cmd_serve`, the reader's inside
`seqlock_read`. -/
def State.lock (lang : Language) (updates events : Count) (s : State) (before after : Shm) :
    Seqlock.Action Cell → Option State
  | .bump =>
    match s.serve with
    | .publishing k => if k ≤ updates.1 then some { s with file := some after } else none
    | _ => none
  | .store => some { s with file := some after }
  | .unbump =>
    match s.serve with
    | .publishing k => some { s with file := some after, serve := .waking k }
    | _ => none
  | .load =>
    match s.watch with
    | .reading attempt =>
      if attempt < 1000000 then
        some { s with
          file := some after
          watch := .reading (if after.reading.isSome then attempt else attempt + 1) }
      else none
    | _ => none
  | .copy _ =>
    match s.watch with
    | .reading _ => some { s with file := some after }
    | _ => none
  | .reload =>
    match s.watch with
    | .reading attempt =>
      match after.snaps with
      | snap :: _ => some (s.observe lang events { after with snaps := before.snaps } snap.got)
      | [] => some { s with file := some after, watch := .reading (attempt + 1) }
    | _ => none

def State.step (lang : Language) (updates events : Count) (s : State) : Action → Option State
  | .create =>
    match s.serve with
    | .opening => some { s with file := some { mem := zeroed }, serve := .publishing 1 }
    | _ => none
  | .lock a =>
    match s.file with
    | none => none
    | some before =>
      match Seqlock.step publish cells before a with
      | none => none
      | some after => s.lock lang updates events before after a
  | .wake =>
    match s.serve with
    | .waking k => some { s with futexWord := BitVec.ofNat 32 k, serve := .publishing (k + 1) }
    | _ => none
  | .attach =>
    match s.watch with
    | .opening => some { s with watch := if s.file.isSome then .top else .failed }
    | _ => none
  | .timeout =>
    match s.watch with
    | .top => if s.lines.length < events.1 then some { s with watch := .failed } else none
    | _ => none
  | .top =>
    match s.watch with
    | .top =>
      some { s with watch := if s.lines.length < events.1 then .reading 0 else .complete }
    | _ => none
  | .giveUp =>
    match s.watch with
    | .reading attempt => if attempt < 1000000 then none else some { s with watch := .failed }
    | _ => none
  | .loadFutex =>
    match s.watch with
    | .futex =>
      some { s with
        watch := if s.futexWord ≠ BitVec.ofNat 32 s.last then .top else .parked }
    | _ => none
  | .woken =>
    match s.watch with
    | .parked => some { s with watch := .top }
    | _ => none

/-- `serve FILE --updates ..` beside `watch FILE --events ..`. -/
def shmkv (lang : Language) (updates events : Count) : Machine State Action where
  init := {}
  step := State.step lang updates events

theorem shmkv_step (lang : Language) (updates events : Count) (s : State) (a : Action) :
    (shmkv lang updates events).step s a = s.step lang updates events a := rfl

/-- Every line is for the next id and has that id's key and value. -/
def State.Right (s : State) : Prop :=
  ∀ i line, s.lines[i]? = some line → line = (i + 1, keyOf (i + 1), valOf (i + 1))

/-- A copy that is about to be kept has a counter at most eight ahead of the last id seen. -/
def near (s : State) : Action → Prop
  | .lock .reload => ∀ file r counter, s.file = some file → file.reading = some r →
      file.seq = r.first → r.got .counter = some counter →
      (counter : UInt64).toNat ≤ s.last + 8
  | _ => True

/-- What a step can do. -/
inductive Effect (lang : Language) (updates events : Count) (s : State) : Action → State → Prop
  | create : s.serve = .opening → Effect lang updates events s .create
      { s with file := some { mem := zeroed }, serve := .publishing 1 }
  | bump {before after : Shm} {k : ℕ} : s.file = some before →
      Seqlock.step publish cells before .bump = some after → s.serve = .publishing k →
      k ≤ updates.1 → Effect lang updates events s (.lock .bump) { s with file := some after }
  | store {before after : Shm} : s.file = some before →
      Seqlock.step publish cells before .store = some after →
      Effect lang updates events s (.lock .store) { s with file := some after }
  | unbump {before after : Shm} {k : ℕ} : s.file = some before →
      Seqlock.step publish cells before .unbump = some after → s.serve = .publishing k →
      Effect lang updates events s (.lock .unbump)
        { s with file := some after, serve := .waking k }
  | read {before after : Shm} {a : Seqlock.Action Cell} {attempt again : ℕ} :
      s.file = some before → Seqlock.step publish cells before a = some after → a ≠ .reload →
      after.snaps = before.snaps → after.bumps = before.bumps → after.writing = before.writing →
      s.watch = .reading attempt → Effect lang updates events s (.lock a)
        { s with file := some after, watch := .reading again }
  | kept {before after : Shm} {snap : Seqlock.Snapshot Cell.Value}
      {rest : List (Seqlock.Snapshot Cell.Value)} {attempt : ℕ} : s.file = some before →
      Seqlock.step publish cells before .reload = some after → s.watch = .reading attempt →
      after.snaps = snap :: rest → Effect lang updates events s (.lock .reload)
        (s.observe lang events { after with snaps := before.snaps } snap.got)
  | retried {before after : Shm} {attempt : ℕ} : s.file = some before →
      Seqlock.step publish cells before .reload = some after → s.watch = .reading attempt →
      after.snaps = [] → Effect lang updates events s (.lock .reload)
        { s with file := some after, watch := .reading (attempt + 1) }
  | wake {k : ℕ} : s.serve = .waking k → Effect lang updates events s .wake
      { s with futexWord := BitVec.ofNat 32 k, serve := .publishing (k + 1) }
  | attach : s.watch = .opening → Effect lang updates events s .attach
      { s with watch := if s.file.isSome then .top else .failed }
  | top : s.watch = .top → Effect lang updates events s .top
      { s with watch := if s.lines.length < events.1 then .reading 0 else .complete }
  | stop {a : Action} : a ≠ .lock .reload → Effect lang updates events s a
      { s with watch := .failed }
  | pause {a : Action} {next : Watch} : a ≠ .lock .reload → s.watch = .futex ∨ s.watch = .parked →
      next = .top ∨ next = .parked → Effect lang updates events s a { s with watch := next }

variable {lang : Language} {updates events : Count} {s t : State}

theorem step_load_same {before after : Shm}
    (read : Seqlock.step publish cells before .load = some after) : after.snaps = before.snaps ∧
      after.bumps = before.bumps ∧ after.writing = before.writing := by
  rcases Seqlock.step_load read with rfl | ⟨-, rfl⟩ <;> exact ⟨rfl, rfl, rfl⟩

theorem step_copy_same {before after : Shm} {c : Cell}
    (read : Seqlock.step publish cells before (.copy c) = some after) :
    after.snaps = before.snaps ∧ after.bumps = before.bumps ∧ after.writing = before.writing := by
  obtain ⟨r, -, rfl⟩ := Seqlock.step_copy read
  exact ⟨rfl, rfl, rfl⟩

theorem effect_of_lock {before after : Shm} {a : Seqlock.Action Cell} (file : s.file = some before)
    (shared : Seqlock.step publish cells before a = some after)
    (taken : s.lock lang updates events before after a = some t) :
    Effect lang updates events s (.lock a) t := by
  cases a with
  | bump =>
    simp only [State.lock] at taken
    split at taken
    · next k publishing =>
      split at taken
      · next more =>
        cases taken
        exact .bump file shared publishing more
      · cases taken
    · cases taken
  | store =>
    cases taken
    exact .store file shared
  | unbump =>
    simp only [State.lock] at taken
    split at taken
    · next k publishing =>
      cases taken
      exact .unbump file shared publishing
    · cases taken
  | load =>
    simp only [State.lock] at taken
    split at taken
    · next attempt reading =>
      split at taken
      · cases taken
        obtain ⟨snaps, bumps, writing⟩ := step_load_same shared
        exact .read file shared (by simp) snaps bumps writing reading
      · cases taken
    · cases taken
  | copy c =>
    simp only [State.lock] at taken
    split at taken
    · next attempt reading =>
      cases taken
      obtain ⟨snaps, bumps, writing⟩ := step_copy_same shared
      have effect : Effect lang updates events s (.lock (.copy c))
          { s with file := some after, watch := .reading attempt } :=
        .read file shared (by simp) snaps bumps writing reading
      rwa [← reading] at effect
    · cases taken
  | reload =>
    simp only [State.lock] at taken
    split at taken
    · next attempt reading =>
      split at taken
      · next snap rest snaps =>
        cases taken
        exact .kept file shared reading snaps
      · next snaps =>
        cases taken
        exact .retried file shared reading snaps
    · cases taken

theorem effect_of_step {a : Action} (taken : s.step lang updates events a = some t) :
    Effect lang updates events s a t := by
  cases a with
  | create =>
    simp only [State.step] at taken
    split at taken
    · next opening =>
      cases taken
      exact .create opening
    · cases taken
  | lock a =>
    simp only [State.step] at taken
    split at taken
    · cases taken
    · next before file =>
      split at taken
      · cases taken
      · next after shared => exact effect_of_lock file shared taken
  | wake =>
    simp only [State.step] at taken
    split at taken
    · next k waking =>
      cases taken
      exact .wake waking
    · cases taken
  | attach =>
    simp only [State.step] at taken
    split at taken
    · next opening =>
      cases taken
      exact .attach opening
    · cases taken
  | timeout =>
    simp only [State.step] at taken
    split at taken
    · split at taken <;> cases taken
      exact .stop (by simp)
    · cases taken
  | top =>
    simp only [State.step] at taken
    split at taken
    · next top =>
      cases taken
      exact .top top
    · cases taken
  | giveUp =>
    simp only [State.step] at taken
    split at taken
    · split at taken <;> cases taken
      exact .stop (by simp)
    · cases taken
  | loadFutex =>
    simp only [State.step] at taken
    split at taken
    · next futex =>
      cases taken
      refine .pause (by simp) (.inl futex) ?_
      split
      · exact .inl rfl
      · exact .inr rfl
    · cases taken
  | woken =>
    simp only [State.step] at taken
    split at taken
    · next parked =>
      cases taken
      exact .pause (by simp) (.inr parked) (.inl rfl)
    · cases taken

structure Follows (updates events : Count) (s : State) : Prop where
  kept : ∀ f, s.file = some f → Seqlock.Kept publish cells zeroed f
  snaps : ∀ f, s.file = some f → f.snaps = []
  publishing : ∀ f k, s.file = some f → s.serve = .publishing k → k = f.complete + 1
  waking : ∀ f k, s.file = some f → s.serve = .waking k → k = f.complete ∧ f.writing = none
  bound : ∀ f, s.file = some f → f.bumps ≤ 2 * updates.1
  printed : s.lines.length = s.last ∨ events.1 ≤ s.lines.length
  more : (∃ n, s.watch = .reading n) ∨ s.watch = .futex ∨ s.watch = .parked →
    s.lines.length < events.1

namespace Follows

theorem init : Follows updates events {} := by
  constructor <;> simp [events.2.1]

/-- A step of the watcher that leaves the file alone and prints nothing. -/
theorem of_watch (inv : Follows updates events s) {next : Watch}
    (more : (∃ n, next = .reading n) ∨ next = .futex ∨ next = .parked →
      s.lines.length < events.1) : Follows updates events { s with watch := next } :=
  ⟨inv.kept, inv.snaps, inv.publishing, inv.waking, inv.bound, inv.printed, more⟩

/-- A step of the reader on the file, which does not change what the writer sees. -/
theorem of_read (inv : Follows updates events s) {before after : Shm} {next : Watch}
    (file : s.file = some before) (kept : Seqlock.Kept publish cells zeroed after)
    (snaps : after.snaps = []) (bumps : after.bumps = before.bumps)
    (writing : after.writing = before.writing) (more : s.lines.length < events.1) :
    Follows updates events { s with file := some after, watch := next } := by
  have complete : after.complete = before.complete := congrArg (· / 2) bumps
  constructor
  · rintro _ ⟨⟩
    exact kept
  · rintro _ ⟨⟩
    exact snaps
  · rintro _ k ⟨⟩ serving
    rw [complete]
    exact inv.publishing before k file serving
  · rintro _ k ⟨⟩ serving
    rw [complete, writing]
    exact inv.waking before k file serving
  · rintro _ ⟨⟩
    rw [bumps]
    exact inv.bound before file
  · exact inv.printed
  · exact fun _ => more

/-- A copy that is kept is what the file held after some update. -/
theorem snapshot (inv : Follows updates events s) {before after : Shm}
    {snap : Seqlock.Snapshot Cell.Value} {rest : List (Seqlock.Snapshot Cell.Value)}
    (file : s.file = some before)
    (shared : Seqlock.step publish cells before .reload = some after)
    (snaps : after.snaps = snap :: rest) :
    ∃ k ≤ updates.1, (∀ c, snap.got c = some (published k c)) ∧
      ∃ r, before.reading = some r ∧ before.seq = r.first ∧ snap.got = r.got := by
  have keptAfter := (inv.kept before file).keeps (by decide) shared
  have bound := inv.bound before file
  have few := updates.2.2
  obtain ⟨r, reading, ⟨same, -, rfl⟩ | ⟨-, rfl⟩⟩ := Seqlock.step_reload shared
  · simp only [inv.snaps before file, List.nil_append, List.cons.injEq] at snaps
    obtain ⟨rfl, rfl⟩ := snaps
    obtain ⟨complete, whole⟩ := keptAfter.snaps _ (List.mem_append_right _ List.mem_cons_self)
    refine ⟨r.since / 2, ?_, fun c => ?_, r, reading, same, rfl⟩
    · change r.since / 2 ≤ before.bumps / 2 at complete
      omega
    · exact whole (by simp only; omega) c (mem_cells c)
  · simp [inv.snaps before file] at snaps

theorem taken_of {got : (c : Cell) → Option c.Value} {k : ℕ}
    (whole : ∀ c, got c = some (published k c)) : taken got = published k := by
  funext c
  rw [taken, whole c, Option.getD_some]

theorem counter_toNat {k : ℕ} (small : k ≤ 1000000) :
    (published k .counter : UInt64).toNat = k := by
  rw [published_counter, UInt64.toNat_ofNat']
  omega

theorem of_observe (inv : Follows updates events s) {before after : Shm}
    {got : (c : Cell) → Option c.Value} (file : s.file = some before)
    (kept : Seqlock.Kept publish cells zeroed after) (snaps : after.snaps = [])
    (bumps : after.bumps = before.bumps) (writing : after.writing = before.writing)
    (more : s.lines.length < events.1) :
    Follows updates events (s.observe lang events after got) := by
  unfold State.observe
  simp only
  split
  · next ahead =>
    have read : Follows updates events { s with file := some after, watch := .top } :=
      inv.of_read file kept snaps bumps writing more
    refine ⟨read.kept, read.snaps, read.publishing, read.waking, read.bound, ?_, by simp⟩
    simp only [List.length_append, backFill, List.length_map, List.length_range']
    have printed := inv.printed
    omega
  · exact inv.of_read file kept snaps bumps writing more

/-- A step of the writer on the file. -/
theorem of_write (inv : Follows updates events s) {after : Shm} {serve : Serve}
    (kept : Seqlock.Kept publish cells zeroed after) (snaps : after.snaps = [])
    (publishing : ∀ k, serve = .publishing k → k = after.complete + 1)
    (waking : ∀ k, serve = .waking k → k = after.complete ∧ after.writing = none)
    (bound : after.bumps ≤ 2 * updates.1) :
    Follows updates events { s with file := some after, serve := serve } := by
  refine ⟨?_, ?_, ?_, ?_, ?_, inv.printed, inv.more⟩
  · rintro _ ⟨⟩
    exact kept
  · rintro _ ⟨⟩
    exact snaps
  · rintro _ k ⟨⟩ serving
    exact publishing k serving
  · rintro _ k ⟨⟩ serving
    exact waking k serving
  · rintro _ ⟨⟩
    exact bound

theorem keeps (inv : Follows updates events s) {a : Action}
    (taken : s.step lang updates events a = some t) : Follows updates events t := by
  cases effect_of_step taken with
  | create opening =>
    apply inv.of_write .init rfl
    · rintro k ⟨⟩
      rfl
    · rintro k ⟨⟩
    · exact Nat.zero_le _
  | @bump before after k file shared publishing more =>
    have kept := (inv.kept before file).keeps (by decide) shared
    have snaps := inv.snaps before file
    have count := inv.publishing before k file publishing
    obtain ⟨idle, rfl⟩ := Seqlock.step_bump shared
    have even := ((inv.kept before file).quiet idle).1
    rw [Seqlock.State.complete] at count
    change Follows updates events { s with file := some _, serve := s.serve }
    apply inv.of_write kept snaps
    · intro j serving
      rw [publishing] at serving
      cases serving
      change k = (before.bumps + 1) / 2 + 1
      omega
    · intro j serving
      rw [publishing] at serving
      cases serving
    · change before.bumps + 1 ≤ _
      omega
  | @store before after file shared =>
    have kept := (inv.kept before file).keeps (by decide) shared
    have snaps := inv.snaps before file
    obtain ⟨one, rest, writing, rfl⟩ := Seqlock.step_store shared
    change Follows updates events { s with file := some _, serve := s.serve }
    apply inv.of_write kept snaps
    · exact fun j serving => inv.publishing before j file serving
    · intro j serving
      have idle := (inv.waking before j file serving).2
      rw [writing] at idle
      cases idle
    · exact inv.bound before file
  | @unbump before after k file shared publishing =>
    have kept := (inv.kept before file).keeps (by decide) shared
    have snaps := inv.snaps before file
    have count := inv.publishing before k file publishing
    have bound := inv.bound before file
    obtain ⟨writing, rfl⟩ := Seqlock.step_unbump shared
    have odd := ((inv.kept before file).busy [] writing).1
    rw [Seqlock.State.complete] at count
    apply inv.of_write kept snaps
    · rintro j ⟨⟩
    · rintro j ⟨⟩
      refine ⟨?_, rfl⟩
      change k = (before.bumps + 1) / 2
      omega
    · change before.bumps + 1 ≤ _
      omega
  | read file shared other snaps bumps writing reading =>
    have kept := (inv.kept _ file).keeps (by decide) shared
    exact inv.of_read file kept (snaps.trans (inv.snaps _ file)) bumps writing
      (inv.more (.inl ⟨_, reading⟩))
  | @kept before after snap rest attempt file shared reading snaps =>
    have kept := ((inv.kept before file).keeps (by decide) shared).forget
    rw [← inv.snaps before file] at kept
    have same : after.bumps = before.bumps ∧ after.writing = before.writing := by
      obtain ⟨r, -, ⟨-, -, rfl⟩ | ⟨-, rfl⟩⟩ := Seqlock.step_reload shared <;> exact ⟨rfl, rfl⟩
    exact inv.of_observe file kept (inv.snaps before file) same.1 same.2
      (inv.more (.inl ⟨attempt, reading⟩))
  | @retried before after attempt file shared reading snaps =>
    have kept := (inv.kept before file).keeps (by decide) shared
    have same : after.bumps = before.bumps ∧ after.writing = before.writing := by
      obtain ⟨r, -, ⟨-, -, rfl⟩ | ⟨-, rfl⟩⟩ := Seqlock.step_reload shared <;> exact ⟨rfl, rfl⟩
    exact inv.of_read file kept snaps same.1 same.2 (inv.more (.inl ⟨attempt, reading⟩))
  | @wake k waking =>
    refine ⟨inv.kept, inv.snaps, ?_, ?_, inv.bound, inv.printed, inv.more⟩
    · rintro f j file ⟨⟩
      rw [(inv.waking f k file waking).1]
    · rintro f j file ⟨⟩
  | attach =>
    apply inv.of_watch
    split <;> simp
  | top =>
    apply inv.of_watch
    split
    · next more => exact fun _ => more
    · simp
  | stop => exact inv.of_watch (by simp)
  | pause other paused next =>
    apply inv.of_watch
    intro _
    apply inv.more
    exact .inr paused

end Follows

/-- New lines are right exactly when they are those of the ids that come next. -/
theorem right_append_iff {new : List Line} {file : Option Shm} {watch : Watch} {last : ℕ} :
    ({ s with file := file, watch := watch, last := last, lines := s.lines ++ new } : State).Right ↔
      s.Right ∧ ∀ i line, new[i]? = some line → line = (s.lines.length + i + 1,
        keyOf (s.lines.length + i + 1), valOf (s.lines.length + i + 1)) := by
  constructor
  · intro right
    refine ⟨fun i line found => ?_, fun i line found => ?_⟩
    · apply right i line
      change (s.lines ++ new)[i]? = some line
      rw [List.getElem?_append_left (List.getElem?_eq_some_iff.mp found).1, found]
    · apply right (s.lines.length + i) line
      change (s.lines ++ new)[s.lines.length + i]? = some line
      rw [List.getElem?_append_right (Nat.le_add_right ..), Nat.add_sub_cancel_left, found]
  · rintro ⟨old, added⟩ i line found
    change (s.lines ++ new)[i]? = some line at found
    rcases Nat.lt_or_ge i s.lines.length with inside | outside
    · rw [List.getElem?_append_left inside] at found
      exact old i line found
    · rw [List.getElem?_append_right outside] at found
      have here := added _ line found
      rwa [Nat.add_sub_cancel' outside] at here

/-- The back-fill from a snapshot is right exactly when the ring still holds every id. -/
theorem backFill_right_iff (lang : Language) {k last room : ℕ} (small : k ≤ 1000000)
    (ahead : last < k) (more : 0 < room) :
    (∀ i line, (backFill lang (published k) k last room)[i]? = some line →
      line = (last + i + 1, keyOf (last + i + 1), valOf (last + i + 1))) ↔ k ≤ last + 8 := by
  have found (i : ℕ) (inside : i < min (k - last) room) :
      (backFill lang (published k) k last room)[i]? = some (last + 1 + i,
        readSlot lang (published k) (last + 1 + i)) := by
    rw [backFill, List.getElem?_map, List.getElem?_range' inside, Option.map_some, Nat.one_mul]
  constructor
  · intro right
    have first := right 0 _ (found 0 (by omega))
    rw [readSlot_published lang (by omega) (by omega) (by omega)] at first
    have key := keyOf_injective (congrArg (fun line : Line => line.2.1) first)
    omega
  · intro near i line there
    have inside : i < min (k - last) room := by
      have bound := (List.getElem?_eq_some_iff.mp there).1
      simpa [backFill] using bound
    rw [found i inside] at there
    cases there
    rw [readSlot_published lang (by omega) (by omega) (by omega)]
    have none : (k - (last + 1 + i)) / 8 = 0 := by omega
    rw [none]
    simp only [Nat.mul_zero, Nat.add_zero, Nat.add_right_comm]

theorem near_of_ne {a : Action} (other : a ≠ .lock .reload) : near s a := by
  cases a with
  | lock a =>
    cases a with
    | reload => exact absurd rfl other
    | _ => trivial
  | _ => trivial

/-- The lines printed from a kept copy are right exactly when it is not too far ahead. -/
theorem right_observe (inv : Follows updates events s) {file : Shm}
    {got : (c : Cell) → Option c.Value} {k : ℕ} (small : k ≤ 1000000)
    (whole : ∀ c, got c = some (published k c)) (more : s.lines.length < events.1) :
    (s.observe lang events file got).Right ↔ s.Right ∧ k ≤ s.last + 8 := by
  have printed : s.lines.length = s.last := by
    have either := inv.printed
    omega
  unfold State.observe
  rw [Follows.taken_of whole, Follows.counter_toNat small]
  simp only
  split
  · next ahead =>
    rw [right_append_iff, printed, backFill_right_iff lang small ahead (by omega)]
  · exact (and_iff_left (by omega)).symm

/-- A step leaves the lines right exactly when they were and no kept copy is too far ahead. -/
theorem right_step (inv : Follows updates events s) {a : Action}
    (taken : s.step lang updates events a = some t) : t.Right ↔ s.Right ∧ near s a := by
  cases effect_of_step taken with
  | @kept before after snap rest attempt file shared reading snaps =>
    obtain ⟨k, bound, whole, r, first, still, got⟩ := inv.snapshot file shared snaps
    have small := bound.trans updates.2.2
    have ahead : near s (.lock .reload) ↔ k ≤ s.last + 8 := by
      constructor
      · intro near
        have counter := near before r _ file first still (got ▸ whole .counter)
        rwa [Follows.counter_toNat small] at counter
      · rintro bounded f r' counter file' first' - got'
        obtain rfl := Option.some.inj (file.symm.trans file')
        obtain rfl := Option.some.inj (first.symm.trans first')
        rw [← got, whole] at got'
        rw [← Option.some.inj got', Follows.counter_toNat small]
        exact bounded
    rw [right_observe inv small whole (inv.more (.inl ⟨attempt, reading⟩)), ahead]
  | @retried before after attempt file shared reading snaps =>
    refine (and_iff_left ?_).symm
    rintro f r counter file' first same -
    obtain rfl := Option.some.inj (file.symm.trans file')
    obtain ⟨r', first', ⟨-, -, rfl⟩ | ⟨different, -⟩⟩ := Seqlock.step_reload shared
    · simp at snaps
    · obtain rfl := Option.some.inj (first.symm.trans first')
      exact absurd same different
  | read file shared other => exact (and_iff_left (near_of_ne (by simpa using other))).symm
  | stop other => exact (and_iff_left (near_of_ne other)).symm
  | pause other => exact (and_iff_left (near_of_ne other)).symm
  | _ => exact (and_iff_left trivial).symm

/-- The file after `n` updates. -/
def fileAt (n : ℕ) : Shm := { seq := BitVec.ofNat 32 (2 * n), mem := published n, bumps := 2 * n }

/-- The watcher is about to read for the first time, after `n` updates. -/
def served (n : ℕ) : State where
  file := some (fileAt n)
  futexWord := BitVec.ofNat 32 n
  serve := .publishing (n + 1)
  watch := .reading 0

def updateActs (n : ℕ) : List Action :=
  (.bump :: List.replicate (publish n).length .store).map .lock ++ [.lock .unbump, .wake]

def readActs : List Action := .lock .load :: ((cells.map .copy).map .lock ++ [.lock .reload])

theorem runFrom?_lock {before after : Shm} {acts : List (Seqlock.Action Cell)}
    (file : s.file = some before)
    (single : ∀ f g, ∀ a ∈ acts, Seqlock.step publish cells f a = some g →
      ({ s with file := some f } : State).lock lang updates events f g a =
        some { s with file := some g })
    (run : (shm publish zeroed).runFrom? before acts = some after) :
    (shmkv lang updates events).runFrom? s (acts.map .lock) =
      some { s with file := some after } := by
  have whole : ({ s with file := some before } : State) = s := by rw [← file]
  rw [← whole]
  clear whole file
  induction acts generalizing before with
  | nil =>
    cases run
    rfl
  | cons a rest ih =>
    obtain ⟨next, shared, tail⟩ := (Machine.runFrom?_cons_eq_some _).mp run
    rw [shm_step] at shared
    have taken : (shmkv lang updates events).step { s with file := some before } (.lock a) =
        some { s with file := some next } := by
      simp only [shmkv_step, State.step, shared]
      exact single before next a List.mem_cons_self shared
    rw [List.map_cons, Machine.runFrom?_cons taken]
    exact ih (fun f g b member => single f g b (List.mem_cons_of_mem a member)) tail

/-- One update of `serve` with the watcher asleep. -/
theorem runFrom?_updateActs {n : ℕ} (more : n + 1 ≤ updates.1) :
    (shmkv lang updates events).runFrom? (served n) (updateActs n) = some (served (n + 1)) := by
  have shared : (shm publish zeroed).runFrom? (fileAt n)
      (.bump :: List.replicate (publish (fileAt n).complete).length .store) = _ :=
    Seqlock.runFrom?_bump_stores zeroed rfl
  have complete : (fileAt n).complete = n := Nat.mul_div_cancel_left n (by omega)
  rw [complete] at shared
  rw [updateActs, Machine.runFrom?_append_of (runFrom?_lock rfl ?_ shared)]
  · have seq : (fileAt n).seq + 1 + 1 = (fileAt (n + 1)).seq := by
      simp only [fileAt, Seqlock.ofNat_add_one]
      rfl
    have after : ({ fileAt (n + 1) with seq := (fileAt n).seq + 1 + 1 } : Shm) =
        fileAt (n + 1) := by
      rw [seq]
    exact congrArg (fun f => some { served (n + 1) with file := some f }) after
  · intro f g a member shared
    rcases List.mem_cons.mp member with rfl | inside
    · exact if_pos more
    · rw [List.eq_of_mem_replicate inside]
      rfl

theorem runFrom?_updates {n : ℕ} (more : n ≤ updates.1) :
    (shmkv lang updates events).runFrom? (served 0) ((List.range n).flatMap updateActs) =
      some (served n) := by
  induction n with
  | zero => rfl
  | succ n ih =>
    rw [List.range_succ, List.flatMap_append, Machine.runFrom?_append_of (ih (by omega)),
      List.flatMap_singleton, runFrom?_updateActs more]

/-- What the watcher does with a copy does not depend on the file it was read from. -/
theorem observe_file (s : State) (before : Option Shm) (after : Shm)
    (got : (c : Cell) → Option c.Value) :
    ({ s with file := before } : State).observe lang events after got =
      s.observe lang events after got := by
  unfold State.observe
  generalize (taken got .counter : UInt64).toNat = counter
  by_cases more : counter > s.last
  · simp only [if_pos more]
  · simp only [if_neg more]

theorem step_reload {s : State} {before after : Shm} {snap : Seqlock.Snapshot Cell.Value}
    {rest : List (Seqlock.Snapshot Cell.Value)} {attempt : ℕ} (file : s.file = some before)
    (shared : Seqlock.step publish cells before .reload = some after)
    (reading : s.watch = .reading attempt) (kept : after.snaps = snap :: rest) :
    (shmkv lang updates events).step s (.lock .reload) =
      some (s.observe lang events { after with snaps := before.snaps } snap.got) := by
  simp only [shmkv_step, State.step, file, shared, State.lock, reading, kept]

/-- One read of the watcher with `serve` asleep. -/
theorem runFrom?_readActs (n : ℕ) : (shmkv lang updates events).runFrom? (served n) readActs =
    some ((served n).observe lang events (fileAt n) (whole (published n))) := by
  have even : (fileAt n).bumps % 2 = 0 := Nat.mul_mod_right 2 n
  let started : Seqlock.Reading Cell.Value 32 := ⟨(fileAt n).seq, 2 * n, fun _ => none⟩
  let copied : Seqlock.Reading Cell.Value 32 := ⟨(fileAt n).seq, 2 * n, whole (published n)⟩
  have loadShared : Seqlock.step publish cells (fileAt n) .load =
      some { fileAt n with reading := some started } :=
    Seqlock.step_load_of_even (by decide) even rfl rfl
  have load : (shmkv lang updates events).step (served n) (.lock .load) =
      some { served n with file := some { fileAt n with reading := some started } } := by
    simp [shmkv_step, State.step, served, loadShared, State.lock]
  have copyShared : (shm publish zeroed).runFrom? { fileAt n with reading := some started }
      (cells.map .copy) = some { fileAt n with reading := some copied } :=
    Seqlock.runFrom?_copy_all (s := fileAt n) zeroed _ _ nodup_cells
  have keptShared : Seqlock.step publish cells { fileAt n with reading := some copied } .reload =
      some { fileAt n with snaps := [⟨2 * n / 2, (2 * n - 2 * n + 1) / 2, whole (published n)⟩] } :=
    Seqlock.step_reload_of_same (r := copied) rfl (isSome_whole _) rfl
  have kept : (shmkv lang updates events).step
      { served n with file := some { fileAt n with reading := some copied } } (.lock .reload) =
      some ((served n).observe lang events (fileAt n) (whole (published n))) :=
    (step_reload rfl keptShared rfl rfl).trans (congrArg some (observe_file (served n) _ _ _))
  rw [readActs, Machine.runFrom?_cons load, Machine.runFrom?_append_of
    (runFrom?_lock rfl ?_ copyShared)]
  · exact Machine.runFrom?_cons kept []
  · intro f g a member shared
    obtain ⟨c, -, rfl⟩ := List.mem_map.mp member
    rfl

/-- `serve` publishes `n` updates before the watcher, attached from the start, first reads. -/
def delayedActs (n : ℕ) : List Action :=
  [.create, .attach, .top] ++ ((List.range n).flatMap updateActs ++ readActs)

theorem run?_delayedActs (lang : Language) (updates events : Count) {n : ℕ} (positive : 0 < n)
    (more : n ≤ updates.1) :
    ∃ s, (shmkv lang updates events).run? (delayedActs n) = some s ∧
      s.lines = backFill lang (published n) n 0 events.1 := by
  have start : (shmkv lang updates events).runFrom? (shmkv lang updates events).init
      [.create, .attach, .top] = some (served 0) := by
    have one : 0 < events.1 := events.2.1
    simp [Machine.runFrom?, shmkv, State.step, one]
    rfl
  refine ⟨(served n).observe lang events (fileAt n) (whole (published n)), ?_, ?_⟩
  · rw [delayedActs, Machine.run?, Machine.runFrom?_append_of start,
      Machine.runFrom?_append_of (runFrom?_updates more), runFrom?_readActs]
  · have small : n ≤ 1000000 := more.trans updates.2.2
    unfold State.observe
    rw [Follows.taken_of (whole_eq _), Follows.counter_toNat small]
    exact congrArg State.lines (if_pos positive)

/-- In every run, every line printed is right exactly when every copy that is kept has a counter
at most eight ahead of the last id seen. -/
theorem lines_right_iff (lang : Language) (updates events : Count) {acts : List Action} {s : State}
    (run : (shmkv lang updates events).run? acts = some s) :
    s.Right ↔ (shmkv lang updates events).Meets near (shmkv lang updates events).init acts := by
  have start : State.Right {} := by
    intro i line found
    cases found
  rw [@Machine.runFrom?_iff_meets _ _ (shmkv lang updates events) (Follows updates events)
    State.Right near (fun _ _ _ inv taken => inv.keeps taken)
    (fun _ _ _ inv taken => right_step inv taken) _ _ _ Follows.init run]
  exact and_iff_right start

/-- One update, then one line. -/
theorem lines_right_iff_one : ∃ s, (shmkv .cpp ⟨1, by decide⟩ ⟨1, by decide⟩).run?
      (delayedActs 1) = some s ∧ s.lines.length = 1 ∧
    (s.Right ↔ (shmkv .cpp ⟨1, by decide⟩ ⟨1, by decide⟩).Meets near
      (shmkv .cpp ⟨1, by decide⟩ ⟨1, by decide⟩).init (delayedActs 1)) := by
  obtain ⟨s, run, lines⟩ := run?_delayedActs .cpp ⟨1, by decide⟩ ⟨1, by decide⟩ (n := 1)
    (by decide) (by decide)
  refine ⟨s, run, ?_, lines_right_iff .cpp _ _ run⟩
  rw [lines]
  rfl

/-- Nine updates before the first read: the line of update 1 has the key and value of update 9. -/
theorem not_lines_right : ∃ s, (shmkv .cpp ⟨9, by decide⟩ ⟨1, by decide⟩).run?
      (delayedActs 9) = some s ∧ s.lines = [(1, keyOf 9, valOf 9)] ∧ ¬ s.Right := by
  obtain ⟨s, run, lines⟩ := run?_delayedActs .cpp ⟨9, by decide⟩ ⟨1, by decide⟩ (n := 9)
    (by decide) (by decide)
  have printed : s.lines = [(1, keyOf 9, valOf 9)] := by
    rw [lines]
    exact congrArg (fun line => [(1, line)])
      (readSlot_published .cpp (k := 9) (by decide) (by decide) (by decide))
  refine ⟨s, run, printed, fun right => ?_⟩
  have first := right 0 _ (by rw [printed]; rfl)
  have key := keyOf_injective (congrArg (fun line : Line => line.2.1) first)
  omega

end LinuxSys.Shmkv
