import LinuxSys.Manifest.Run

/-! # Where the parser is right

It reads a document for what it is unless an item of a flow list has a comma between its quotes. A
text that is no document is refused for a line in the list of examples, and for nothing else.
-/

namespace LinuxSys.Manifest

open Lib PyText

section Since

variable {α : Type} (starts keeps : α → Prop)

/-- Something starts it and everything since keeps it. -/
def Since (before : List α) : Prop :=
  ∃ front a since, before = front ++ a :: since ∧ starts a ∧ ∀ b ∈ since, keeps b

theorem not_since_nil : ¬ Since starts keeps [] := by
  rintro ⟨front, a, since, shape, -, -⟩
  simp at shape

theorem since_concat {before : List α} {a : α} :
    Since starts keeps (before ++ [a]) ↔ starts a ∨ Since starts keeps before ∧ keeps a := by
  constructor
  · rintro ⟨front, b, since, shape, starts_b, kept⟩
    rcases List.eq_nil_or_concat since with rfl | ⟨since, c, rfl⟩
    · obtain ⟨-, same⟩ := List.append_inj' shape rfl
      cases same
      exact .inl starts_b
    · rw [List.concat_eq_append, ← List.cons_append, ← List.append_assoc] at shape
      obtain ⟨same, last⟩ := List.append_inj' shape rfl
      cases last
      rw [List.concat_eq_append] at kept
      exact .inr ⟨⟨front, b, since, same, starts_b,
          fun d member => kept d (List.mem_append_left _ member)⟩,
        kept a (by simp)⟩
  · rintro (starts_a | ⟨⟨front, b, since, rfl, starts_b, kept⟩, keeps_a⟩)
    · exact ⟨before, a, [], rfl, starts_a, nofun⟩
    · refine ⟨front, b, since ++ [a], by simp, starts_b, ?_⟩
      intro c member
      rcases List.mem_append.mp member with old | new
      · exact kept c old
      · rw [List.mem_singleton.mp new]
        exact keeps_a

end Since

/-! Lines that are refused. -/

/-- Behind the header of the list, with no other top-level key since. -/
def InList : List Text → Prop :=
  Since (fun raw => opens raw) fun raw => skipped raw ∨ ¬ closes raw

/-- Behind an item, with no header since. -/
def HasItem : List Text → Prop :=
  Since (fun raw => (itemMatch raw).isSome) fun raw => ¬ opens raw

theorem inList_concat {before : List Text} {raw : Text} :
    InList (before ++ [raw]) ↔ opens raw ∨ InList before ∧ (skipped raw ∨ ¬ closes raw) :=
  since_concat _ _

theorem hasItem_concat {before : List Text} {raw : Text} :
    HasItem (before ++ [raw]) ↔ (itemMatch raw).isSome ∨ HasItem before ∧ ¬ opens raw :=
  since_concat _ _

/-- Neither a line to ignore nor a top-level key, and no pair with a value where it stands. -/
def Refuses (before : List Text) (raw : Text) : Prop :=
  skipped raw = false ∧ closes raw = false ∧ opens raw = false ∧
    match itemMatch raw with
    | some (_, v) => strip v = []
    | none => HasItem before → ∀ key v, kvMatch raw = some (key, v) → strip v = []

/-- Some line of the list is refused. -/
def Refused (all : List Text) : Prop :=
  ∃ before raw after, all = before ++ raw :: after ∧ InList before ∧ Refuses before raw

section Kinds

variable {raw : Text}

theorem head_of_itemMatch (item : (itemMatch raw).isSome) :
    (raw.dropWhile isSpace).head? = some '-' := by
  unfold itemMatch at item
  split at item
  · next c rest shape => rw [shape, List.head?_cons]
  · cases item

theorem not_skipped_of_item (item : (itemMatch raw).isSome) : skipped raw = false :=
  skipped_eq_false (head_of_itemMatch item) (by decide)

theorem not_opens_of_item (item : (itemMatch raw).isSome) : opens raw = false :=
  opens_eq_false (head_of_itemMatch item) (by decide)

theorem not_opens_of_skipped (skip : skipped raw = true) : opens raw = false := by
  apply Bool.eq_false_iff.mpr
  intro opened
  have same : strip raw = header := of_decide_eq_true (Bool.and_eq_true_iff.mp opened).1
  rw [skipped, same] at skip
  cases skip

theorem not_opens_of_closes (closed : closes raw = true) : opens raw = false := by
  apply Bool.eq_false_iff.mpr
  intro opened
  have same : strip raw = header := of_decide_eq_true (Bool.and_eq_true_iff.mp opened).1
  simp [closes, same] at closed

end Kinds

theorem parseValue_error_iff {v : Text} : (∃ c, parseValue v = .error c) ↔ strip v = [] := by
  unfold parseValue
  simp only
  split
  · next brackets =>
    refine iff_of_false (by rintro ⟨c, ⟨⟩⟩) fun none => ?_
    rw [none] at brackets
    cases brackets.1
  · split
    · next none => exact iff_of_true ⟨_, rfl⟩ none
    · next full => exact iff_of_false (by rintro ⟨c, ⟨⟩⟩) full

theorem map_error_iff {α β ε : Type} {r : Except ε α} {f : α → β} :
    (∃ e, r.map f = .error e) ↔ ∃ e, r = .error e := by
  cases r <;> simp [Except.map]

namespace State

variable {s t : State} {before : List Text} {raw : Text}

/-- What the state remembers of the lines before. -/
structure Tracks (s : State) (before : List Text) : Prop where
  list : s.inExamples = true ↔ InList before
  item : s.inExamples = true → (s.current.isSome = true ↔ HasItem before)

theorem Tracks.start : Tracks {} [] where
  list := iff_of_false nofun (not_since_nil _ _)
  item := nofun

/-- A line is an error where the list refuses it. -/
theorem step_error_iff (tracks : s.Tracks before) :
    (∃ c, s.step raw = .error c) ↔ InList before ∧ Refuses before raw := by
  unfold step
  split
  · next skip => simp [Refuses, skip]
  split
  · next closed => simp [Refuses, closed]
  split
  · next opened => simp [Refuses, opened]
  split
  · next outside =>
    rw [tracks.list] at outside
    simp [outside]
  next unskipped unclosed unopened inside =>
  rw [Decidable.not_not] at inside
  rw [and_iff_right (tracks.list.mp inside), Refuses, and_iff_right (Bool.eq_false_iff.mpr unskipped),
    and_iff_right (Bool.eq_false_iff.mpr unclosed), and_iff_right (Bool.eq_false_iff.mpr unopened),
    ← tracks.item inside]
  cases itemMatch raw with
  | some found => exact map_error_iff.trans parseValue_error_iff
  | none =>
    cases pair : kvMatch raw with
    | none => simp
    | some found =>
      cases s.current with
      | none => simp
      | some entry =>
        refine (map_error_iff.trans parseValue_error_iff).trans ⟨?_, fun all => all rfl _ _ rfl⟩
        rintro none - key v ⟨⟩
        exact none

theorem Tracks.step (tracks : s.Tracks before) (ok : s.step raw = .ok t) :
    t.Tracks (before ++ [raw]) := by
  unfold State.step at ok
  split at ok
  · next skip =>
    cases ok
    have unopened := not_opens_of_skipped skip
    have item : ¬ (itemMatch raw).isSome := fun item => by
      rw [not_skipped_of_item item] at skip
      cases skip
    constructor
    · simp [inList_concat, unopened, skip, tracks.list]
    · intro inside
      simpa [hasItem_concat, unopened, item] using tracks.item inside
  split at ok
  · next unskipped closed =>
    cases ok
    refine ⟨iff_of_false nofun ?_, nofun⟩
    simp [inList_concat, not_opens_of_closes closed, unskipped, closed]
  split at ok
  · next opened =>
    cases ok
    have item : ¬ (itemMatch raw).isSome := fun item => by
      rw [not_opens_of_item item] at opened
      cases opened
    refine ⟨iff_of_true rfl (inList_concat.mpr (.inl opened)), fun _ => iff_of_false nofun ?_⟩
    simp [hasItem_concat, item, opened]
  split at ok
  · next unopened outside =>
    cases ok
    refine ⟨iff_of_false outside ?_, fun inside => absurd inside outside⟩
    simp [inList_concat, unopened, ← tracks.list, outside]
  next unskipped unclosed unopened inside =>
  rw [Decidable.not_not] at inside
  have list : InList (before ++ [raw]) :=
    inList_concat.mpr (.inr ⟨tracks.list.mp inside, .inr unclosed⟩)
  split at ok
  · next key v item =>
    cases value : parseValue v with
    | error c => simp [value, Except.map] at ok
    | ok value' =>
      simp only [value, Except.map, Except.ok.injEq] at ok
      subst ok
      have new : HasItem (before ++ [raw]) := hasItem_concat.mpr (.inl (by rw [item]; rfl))
      exact ⟨iff_of_true rfl list, fun _ => iff_of_true rfl new⟩
  next none =>
  split at ok
  · next key v entry pair current =>
    cases value : parseValue v with
    | error c => simp [value, Except.map] at ok
    | ok value' =>
      simp only [value, Except.map, Except.ok.injEq] at ok
      subst ok
      have old : HasItem before := (tracks.item inside).mp (by rw [current]; rfl)
      have kept : HasItem (before ++ [raw]) := hasItem_concat.mpr (.inr ⟨old, unopened⟩)
      exact ⟨iff_of_true inside list, fun _ => iff_of_true rfl kept⟩
  · cases ok

theorem run_error_iff (tracks : s.Tracks before) (lineno : ℕ) (all : List Text) :
    (∃ e, s.run lineno all = .error e) ↔ ∃ mid raw after, all = mid ++ raw :: after ∧
      InList (before ++ mid) ∧ Refuses (before ++ mid) raw := by
  induction all generalizing s before lineno with
  | nil => simp [run]
  | cons raw rest ih =>
    rw [run]
    have here : (∃ c, s.step raw = .error c) ↔ InList before ∧ Refuses before raw :=
      step_error_iff tracks
    cases result : s.step raw with
    | error c =>
      have refused := here.mp ⟨c, result⟩
      refine iff_of_true ⟨_, rfl⟩ ⟨[], raw, rest, rfl, ?_⟩
      rwa [List.append_nil]
    | ok next =>
      have passes : ¬ (InList before ∧ Refuses before raw) := by
        rw [← here, result]
        rintro ⟨_, ⟨⟩⟩
      refine (ih (tracks.step result) (lineno + 1)).trans ⟨?_, ?_⟩
      · rintro ⟨mid, line, after, rfl, refused⟩
        refine ⟨raw :: mid, line, after, rfl, ?_⟩
        rwa [List.append_assoc] at refused
      · rintro ⟨mid, line, after, shape, refused⟩
        cases mid with
        | nil =>
          cases shape
          rw [List.append_nil] at refused
          exact absurd refused passes
        | cons first mid =>
          cases shape
          refine ⟨mid, line, after, rfl, ?_⟩
          rwa [List.append_assoc]

end State

/-- The parser fails on the texts with a line that is refused. -/
theorem parseManifestSubset_error_iff (text : Text) :
    (∃ e, parseManifestSubset text = .error e) ↔ Refused (splitlines text) :=
  map_error_iff.trans (State.run_error_iff State.Tracks.start 1 (splitlines text))

/-! What the parser owes. -/

/-- Entries of a document are read as they are written, and other text is no manifest. -/
structure Strict (text : Text) : Prop where
  document : ∀ all, Document text all →
    parseManifestSubset text = .ok (entries Written.value all)
  other : (¬ ∃ all, Document text all) → ∃ e, parseManifestSubset text = .error e

/-- The parser is strict on the documents without such a comma, and on other text with a line that
is refused. -/
theorem strict_iff (text : Text) :
    Strict text ↔ (∀ all, Document text all → NoCommas all) ∧
      ((¬ ∃ all, Document text all) → Refused (splitlines text)) := by
  have same : ∀ all, Document text all →
      (parseManifestSubset text = .ok (entries Written.value all) ↔ NoCommas all) := by
    intro all document
    rw [document.parse_eq, Except.ok.injEq, ← document.regular.readBack_iff,
      document.regular.furthers_eq_nil nofun readBack,
      document.regular.furthers_eq_nil nofun Written.value, and_iff_right rfl]
  constructor
  · rintro ⟨document, other⟩
    refine ⟨fun all written => (same all written).mp (document all written), fun none => ?_⟩
    exact (parseManifestSubset_error_iff text).mp (other none)
  · rintro ⟨document, other⟩
    refine ⟨fun all written => (same all written).mpr (document all written), fun none => ?_⟩
    exact (parseManifestSubset_error_iff text).mpr (other none)

/-- `examples:`, an entry whose item is quoted because of its comma. -/
def quotedComma : List Line :=
  [.examples [], .item 2 0 ⟨"id".toList, [], .scalar (.plain "a".toList), []⟩,
    .further 4 ⟨"langs".toList, [], .list [⟨[], .quoted '\'' "a,b".toList, []⟩], []⟩]

theorem plain_letter : Plain false ['a'] where
  full := List.cons_ne_nil _ _
  trimmed := ⟨by rintro c ⟨⟩; rfl, by rintro c ⟨⟩; rfl⟩
  oneLine := by
    rintro c (_ | ⟨_, ⟨⟩⟩)
    rfl
  first := by
    rintro c rest ⟨⟩
    exact .inl (by decide)
  colon := by
    intro front back shape
    have colon : ':' ∈ ['a'] := by simp [shape]
    cases List.mem_singleton.mp colon
  comment := by
    intro front back c shape
    have hash : '#' ∈ ['a'] := by simp [shape]
    cases List.mem_singleton.mp hash
  marks := nofun

theorem regular_quotedComma : Regular .top quotedComma := by
  have id_sound : Pair.Sound ⟨"id".toList, [], .scalar (.plain "a".toList), []⟩ :=
    ⟨by decide, List.all_eq_true.mp (by decide), nofun, plain_letter, nofun⟩
  have oneLine : OneLine "a,b".toList := by
    intro c member
    have all : "a,b".toList.all (fun c => !isLineBreak c) = true := by decide
    simpa using List.all_eq_true.mp all c member
  have quoted : Quoted '\'' "a,b".toList := ⟨rfl, by decide, nofun, oneLine⟩
  have item : Item.Sound ⟨[], .quoted '\'' "a,b".toList, []⟩ := ⟨nofun, quoted, nofun⟩
  have langs : Pair.Sound ⟨"langs".toList, [], .list [⟨[], .quoted '\'' "a,b".toList, []⟩], []⟩ :=
    ⟨by decide, List.all_eq_true.mp (by decide), nofun,
      ⟨List.cons_ne_nil _ _, List.forall_mem_singleton.mpr item⟩, nofun⟩
  exact ⟨nofun, _, rfl, id_sound, _, rfl, langs, _, rfl, trivial⟩

theorem not_always_strict : ¬ ∀ text, Strict text := by
  intro always
  have document : Document (quotedComma.flatMap fun line => line.render ++ ['\n']) quotedComma :=
    ⟨by decide +kernel, regular_quotedComma⟩
  have other : parseManifestSubset (quotedComma.flatMap fun line => line.render ++ ['\n']) ≠
      .ok (entries Written.value quotedComma) := by decide +kernel
  exact other ((always _).document quotedComma document)

end LinuxSys.Manifest
