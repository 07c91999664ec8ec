import LinuxSys.Manifest.Values

/-! # Reading a document

Each line of a document does to the state what it stands for. The parser ends with the entries of
the document, their values read back.
-/

namespace LinuxSys.Manifest

open Lib PyText

section Text

variable {raw pad : Text} {c d : Char}

theorem head?_strip (text : Text) : (strip text).head? = (text.dropWhile isSpace).head? := by
  cases left : text.dropWhile isSpace with
  | nil => rw [strip, left, List.rdropWhile_nil]
  | cons c rest =>
    have first : isSpace c = false := by
      have some : text.dropWhile isSpace ≠ [] := by
        rw [left]
        exact List.cons_ne_nil c rest
      have same := List.head_dropWhile_not isSpace some
      simpa only [left, List.head_cons] using same
    obtain ⟨back, same⟩ := List.rdropWhile_prefix isSpace (c :: rest)
    rw [strip, left]
    cases kept : (c :: rest).rdropWhile isSpace with
    | nil =>
      have space := List.rdropWhile_eq_nil_iff.mp kept c List.mem_cons_self
      rw [first] at space
      cases space
    | cons b later =>
      rw [kept] at same
      cases same
      rfl

theorem dropWhile_pad (space : ∀ b ∈ pad, isSpace b) (first : isSpace c = false) (rest : Text) :
    (pad ++ c :: rest).dropWhile isSpace = c :: rest := by
  rw [List.dropWhile_append_of_pos space, List.dropWhile_cons_of_neg (by simp [first])]

theorem strip_dropWhile (text : Text) : strip (text.dropWhile isSpace) = strip text := by
  rw [strip, List.dropWhile_idempotent, strip]

theorem skipped_eq_false (head : (raw.dropWhile isSpace).head? = some c) (other : c ≠ '#') :
    skipped raw = false := by
  rw [← head?_strip] at head
  rw [skipped, head]
  have full : strip raw ≠ [] := by
    intro none
    rw [none] at head
    cases head
  simp [full, other]

theorem opens_eq_false (head : (raw.dropWhile isSpace).head? = some c) (other : c ≠ 'e') :
    opens raw = false := by
  have different : strip raw ≠ header := by
    intro same
    rw [← head?_strip, same] at head
    cases head
    exact other rfl
  simp [opens, different]

end Text

/-! Pairs. -/

section Pairs

variable {p : Pair}

/-- A pair without the blanks behind it. -/
def Pair.core (p : Pair) : Text := p.key ++ ':' :: ' ' :: (p.gap ++ p.value.render)

theorem Pair.render_eq (p : Pair) : p.render = p.core ++ p.pad := by
  simp [Pair.render, Pair.core]

theorem Written.Sound.render_ne_nil {v : Written} (sound : v.Sound) : v.render ≠ [] := by
  cases v with
  | scalar s => exact Scalar.Sound.render_ne_nil (s := s) sound
  | nothing pad => exact List.cons_ne_nil _ _
  | list items => exact List.cons_ne_nil _ _

theorem Pair.Sound.last_core (sound : p.Sound) : ∀ c, p.core.getLast? = some c → isSpace c = false := by
  intro c last
  refine sound.value.trimmed.last c ?_
  have full := sound.value.render_ne_nil
  rw [Pair.core, List.getLast?_append_of_ne_nil _ (List.cons_ne_nil _ _), List.getLast?_cons_cons,
    List.getLast?_cons_of_ne_nil (by simp [full]), List.getLast?_append_of_ne_nil _ full] at last
  exact last

/-- The first two characters. -/
theorem Pair.Sound.head (sound : p.Sound) :
    ∃ c d rest, p.render = c :: d :: rest ∧ keyChar c ∧ isSpace d = false := by
  obtain ⟨c, later, key⟩ := List.exists_cons_of_ne_nil sound.full
  have chars := sound.key
  rw [key] at chars
  obtain ⟨first, others⟩ := List.forall_mem_cons.mp chars
  rw [Pair.render, key]
  cases later with
  | nil => exact ⟨c, ':', _, rfl, first, rfl⟩
  | cons d later =>
    exact ⟨c, d, _, rfl, first, isSpace_keyChar (others d List.mem_cons_self)⟩

theorem keyValue_cut {key : Text} (full : key ≠ []) (chars : ∀ c ∈ key, keyChar c) (rest : Text) :
    keyValue (key ++ ':' :: rest) = some (key, rest.dropWhile isSpace) := by
  have colon : ¬ keyChar ':' = true := by decide
  rw [keyValue, List.dropWhile_append_of_pos chars, List.takeWhile_append_of_pos chars,
    List.dropWhile_cons_of_neg colon, List.takeWhile_cons_of_neg colon, List.append_nil]
  simp [full]

/-- A pair is read from where it starts. -/
theorem Pair.Sound.keyValue_render (sound : p.Sound) :
    ∃ rest, keyValue p.render = some (p.key, rest) ∧ parseValue rest = .ok (readBack p.value) := by
  refine ⟨_, keyValue_cut sound.full sound.key _, parseValue_of_strip sound.value ?_⟩
  have front : ∀ c ∈ ' ' :: p.gap, isSpace c :=
    List.forall_mem_cons.mpr ⟨rfl, sound.gap.space⟩
  rw [strip_dropWhile]
  change strip (' ' :: p.gap ++ p.value.render ++ p.pad) = p.value.render
  exact strip_pads front sound.value.trimmed sound.pad.space

end Pairs

/-! Lines. -/

theorem replicate_space (n : ℕ) : ∀ c ∈ List.replicate n ' ', isSpace c := by
  intro c member
  rw [List.eq_of_mem_replicate member]
  rfl

section Lines

variable {pair : Pair} {indent gap : ℕ} {key rest : Text}

theorem unindented_replicate (positive : 0 < indent) (text : Text) :
    unindented (List.replicate indent ' ' ++ text) = false := by
  obtain ⟨n, rfl⟩ := Nat.exists_eq_add_one.mpr positive
  rfl

theorem kvMatch_further (sound : pair.Sound) :
    kvMatch (List.replicate indent ' ' ++ pair.render) = keyValue pair.render := by
  obtain ⟨c, d, rest, same, first, -⟩ := sound.head
  rw [kvMatch, same, dropWhile_pad (replicate_space _) (isSpace_keyChar first)]

theorem itemMatch_further (sound : pair.Sound) :
    itemMatch (List.replicate indent ' ' ++ pair.render) = none := by
  obtain ⟨c, d, rest, same, first, second⟩ := sound.head
  rw [itemMatch, same, dropWhile_pad (replicate_space _) (isSpace_keyChar first)]
  split
  · next c' rest' shape =>
    cases shape
    rw [second]
    rfl
  · rfl

theorem itemMatch_item (sound : pair.Sound) :
    itemMatch (Line.item indent gap pair).render = keyValue pair.render := by
  obtain ⟨c, d, rest, same, first, -⟩ := sound.head
  have space : ∀ c ∈ List.replicate gap ' ', isSpace c := replicate_space gap
  rw [itemMatch, Line.render, dropWhile_pad (replicate_space _) rfl, List.replicate_succ,
    List.cons_append]
  have blank : isSpace ' ' = true := rfl
  simp only
  rw [if_pos blank, same, dropWhile_pad space (isSpace_keyChar first)]

theorem strip_item (sound : pair.Sound) :
    strip (Line.item indent gap pair).render = '-' :: (List.replicate (gap + 1) ' ' ++ pair.core) := by
  have trimmed : Trimmed ('-' :: (List.replicate (gap + 1) ' ' ++ pair.core)) := by
    constructor
    · rintro c ⟨⟩
      rfl
    · intro c last
      have full : pair.core ≠ [] := by simp [Pair.core]
      rw [List.getLast?_cons_of_ne_nil (by simp [full]),
        List.getLast?_append_of_ne_nil _ full] at last
      exact sound.last_core c last
  rw [← strip_pads (replicate_space indent) trimmed sound.pad.space, Line.render, Pair.render_eq]
  simp

theorem takeWhile_key (chars : ∀ c ∈ key, keyChar c) (rest : Text) :
    (key ++ ':' :: rest).takeWhile keyChar = key := by
  have colon : ¬ keyChar ':' = true := by decide
  rw [List.takeWhile_append_of_pos chars, List.takeWhile_cons_of_neg colon, List.append_nil]

theorem dropWhile_other (full : key ≠ []) (chars : ∀ c ∈ key, keyChar c) (rest : Text) :
    ∃ c later, key ++ ':' :: rest = c :: later ∧ keyChar c ∧
      (key ++ ':' :: rest).dropWhile isSpace = c :: later := by
  obtain ⟨c, others, rfl⟩ := List.exists_cons_of_ne_nil full
  have first := chars c List.mem_cons_self
  exact ⟨c, _, rfl, first, List.dropWhile_cons_of_neg (by simp [isSpace_keyChar first])⟩

/-- The name of a top-level key is what stands before its colon. -/
theorem strip_other_ne (other : key ≠ "examples".toList) (full : key ≠ [])
    (chars : ∀ c ∈ key, keyChar c) (rest : Text) : strip (key ++ ':' :: rest) ≠ header := by
  intro same
  obtain ⟨c, later, shape, -, kept⟩ := dropWhile_other full chars rest
  obtain ⟨back, longer⟩ := List.rdropWhile_prefix isSpace (key ++ ':' :: rest)
  rw [strip, kept, ← shape] at same
  rw [same] at longer
  have names := congrArg (List.takeWhile keyChar) longer
  rw [takeWhile_key chars] at names
  exact other names.symm

theorem closes_other (other : key ≠ "examples".toList) (full : key ≠ [])
    (chars : ∀ c ∈ key, keyChar c) (rest : Text) : closes (key ++ ':' :: rest) = true := by
  obtain ⟨c, later, shape, first, kept⟩ := dropWhile_other full chars rest
  have start : unindented (key ++ ':' :: rest) = true := by
    rw [shape]
    simp [unindented, isSpace_keyChar first]
  have dash : ['-', ' '].isPrefixOf (strip (key ++ ':' :: rest)) = false := by
    apply Bool.eq_false_iff.mpr
    intro listed
    have longer := (List.isPrefixOf_iff_prefix.mp listed).trans
      (List.rdropWhile_prefix isSpace ((key ++ ':' :: rest).dropWhile isSpace))
    rw [kept, ← shape] at longer
    obtain ⟨after, same⟩ := longer
    cases key with
    | nil => exact full rfl
    | cons c others =>
      cases others with
      | nil => cases same
      | cons d others =>
        cases same
        cases chars ' ' (by simp)
  simp [closes, start, strip_other_ne other full chars rest, dash]

theorem closes_item (sound : pair.Sound) : closes (Line.item indent gap pair).render = false := by
  rw [closes, strip_item sound, List.replicate_succ]
  simp

end Lines

/-! Steps. -/

namespace State

variable {s : State} {p q : Place} {line : Line}

/-- What a line of a document stands for. -/
def take (s : State) : Line → State
  | .blank _ => s
  | .comment _ _ => s
  | .other _ _ => { s with inExamples := false }
  | .content _ => s
  | .examples _ => ⟨s.examples, none, true⟩
  | .item _ _ pair => ⟨s.examples, some [(pair.key, readBack pair.value)], true⟩
  | .further _ pair => { s with current := s.current.map (· ++ [(pair.key, readBack pair.value)]) }

/-- The state of a parser that has come to this place. -/
def At (s : State) : Place → Prop
  | .top => s.inExamples = false
  | .under _ => s.inExamples = false
  | .list => s.inExamples = true ∧ s.current = none
  | .entry _ column keys => s.inExamples = true ∧ 0 < column ∧
      ∃ entry, s.current = some entry ∧ ∀ key ∈ entry.map Prod.fst, key ∈ keys

theorem At.take (at_place : s.At p) (goes : p.next line = some q) : (s.take line).At q := by
  cases line with
  | blank pad =>
    cases p <;> cases goes <;> exact at_place
  | comment pad text =>
    cases p <;> cases goes <;> exact at_place
  | other key rest =>
    cases p <;> cases goes <;> rfl
  | content text =>
    cases p <;> cases goes
    exact at_place
  | examples pad =>
    cases p with
    | top =>
      cases goes
      exact ⟨rfl, rfl⟩
    | under listed =>
      cases listed <;> cases goes
      exact ⟨rfl, rfl⟩
    | list => cases goes
    | entry => cases goes
  | item indent gap pair =>
    have new : (s.take (.item indent gap pair)).At (.entry indent (indent + gap + 2) [pair.key]) :=
      ⟨rfl, by omega, _, rfl, by simp⟩
    cases p with
    | top => cases goes
    | under listed => cases listed <;> cases goes
    | list =>
      cases goes
      exact new
    | entry here column keys =>
      simp only [Place.next, Option.ite_none_right_eq_some, Option.some.injEq] at goes
      obtain ⟨-, rfl⟩ := goes
      exact new
  | further indent pair =>
    cases p with
    | top => cases goes
    | under listed => cases listed <;> cases goes
    | list => cases goes
    | entry here column keys =>
      simp only [Place.next, Option.ite_none_right_eq_some, Option.some.injEq] at goes
      obtain ⟨-, rfl⟩ := goes
      obtain ⟨inside, positive, entry, current, known⟩ := at_place
      refine ⟨inside, positive, _, by rw [State.take, current]; rfl, ?_⟩
      intro key member
      rw [List.map_append, List.mem_append] at member
      rcases member with old | new
      · exact List.mem_cons_of_mem _ (known key old)
      · simp only [List.map_singleton, List.mem_singleton] at new
        rw [new]
        exact List.mem_cons_self

theorem step_skipped {raw : Text} (skip : skipped raw = true) : s.step raw = .ok s :=
  if_pos skip

/-- Outside the list nothing but a header counts. -/
theorem step_outside {raw : Text} (outside : s.inExamples = false) (closed : opens raw = false) :
    s.step raw = .ok s := by
  have same : { s with inExamples := false } = s := by rw [← outside]
  rw [step, same, closed, outside]
  simp

theorem step_take (sound : line.Sound) (at_place : s.At p) (goes : p.next line = some q) :
    s.step line.render = .ok (s.take line) := by
  cases line with
  | blank pad =>
    have none : strip pad = [] := strip_eq_nil_iff.mpr (Pad.space sound)
    exact step_skipped (by simp [Line.render, skipped, none])
  | comment pad text =>
    have head : (strip (pad ++ '#' :: text)).head? = some '#' := by
      rw [head?_strip, dropWhile_pad (Pad.space sound.1) rfl]
      rfl
    exact step_skipped (by simp [Line.render, skipped, head])
  | other key rest =>
    obtain ⟨full, chars, different, -, -⟩ := sound
    obtain ⟨c, later, shape, first, kept⟩ := dropWhile_other full chars rest
    have unskipped : skipped (key ++ ':' :: rest) = false := by
      refine skipped_eq_false (c := c) (by rw [kept]; rfl) ?_
      rintro rfl
      cases first
    rw [Line.render, step, unskipped, closes_other different full chars rest]
    rfl
  | content text =>
    have outside : s.inExamples = false := by
      cases p <;> cases goes
      exact at_place
    refine step_outside outside ?_
    obtain ⟨-, ⟨rest, rfl⟩ | ⟨rest, rfl⟩⟩ := sound
    · simp [Line.render, opens, unindented, isSpace]
    · exact opens_eq_false (c := '-') rfl (by decide)
  | examples pad =>
    have whole : strip (header ++ pad) = header := by
      rw [strip_append_right (Pad.space sound)]
      decide
    have start : unindented (header ++ pad) = true := rfl
    have unskipped : skipped (header ++ pad) = false := by
      rw [skipped, whole]
      rfl
    rw [Line.render, step, unskipped, closes, opens, whole, start]
    rfl
  | item indent gap pair =>
    have inside : s.inExamples = true := by
      cases p with
      | top => cases goes
      | under listed => cases listed <;> cases goes
      | list => exact at_place.1
      | entry here column keys => exact at_place.1
    have head : ((Line.item indent gap pair).render.dropWhile isSpace).head? = some '-' := by
      rw [Line.render, dropWhile_pad (replicate_space _) rfl]
      rfl
    obtain ⟨rest, cut, parsed⟩ := sound.keyValue_render
    rw [step, skipped_eq_false head (by decide), closes_item sound,
      opens_eq_false head (by decide), inside, itemMatch_item sound, cut]
    simp [parsed, Except.map, take]
  | further indent pair =>
    cases p with
    | top => cases goes
    | under listed => cases listed <;> cases goes
    | list => cases goes
    | entry here column keys =>
      simp only [Place.next, Option.ite_none_right_eq_some, Option.some.injEq] at goes
      obtain ⟨⟨same, fresh⟩, rfl⟩ := goes
      obtain ⟨inside, positive, entry, current, known⟩ := at_place
      obtain ⟨c, d, later, shape, first, -⟩ := sound.head
      have start : unindented (List.replicate indent ' ' ++ pair.render) = false :=
        unindented_replicate (same ▸ positive) _
      have head : ((List.replicate indent ' ' ++ pair.render).dropWhile isSpace).head? = some c := by
        rw [shape, dropWhile_pad (replicate_space _) (isSpace_keyChar first)]
        rfl
      have unskipped : skipped (List.replicate indent ' ' ++ pair.render) = false := by
        refine skipped_eq_false head ?_
        rintro rfl
        cases first
      have new : assign entry pair.key (readBack pair.value) =
          entry ++ [(pair.key, readBack pair.value)] :=
        if_neg fun member => fresh (known _ member)
      obtain ⟨rest, cut, parsed⟩ := sound.keyValue_render
      rw [Line.render, step, unskipped, closes, opens, start, inside, itemMatch_further sound,
        kvMatch_further sound, cut, current]
      simp [parsed, Except.map, take, current, new, inside]

end State

/-! Runs. -/

section Runs

variable {s : State} {p : Place} {lines : List Line}

/-- Keys of an entry stand in no other place. -/
theorem Regular.furthers_eq_nil (regular : Regular p lines)
    (outside : ∀ here column keys, p ≠ .entry here column keys) (read : Written → Value) :
    furthers read lines = [] := by
  induction lines generalizing p with
  | nil => rfl
  | cons line rest ih =>
    obtain ⟨-, q, goes, later⟩ := regular
    cases line with
    | blank pad =>
      have same : p = q := by cases p <;> cases goes <;> rfl
      exact ih (same ▸ later) outside
    | comment pad text =>
      have same : p = q := by cases p <;> cases goes <;> rfl
      exact ih (same ▸ later) outside
    | other key text => rfl
    | content text => rfl
    | examples pad => rfl
    | item indent gap pair => rfl
    | further indent pair =>
      cases p with
      | top => cases goes
      | under listed => cases listed <;> cases goes
      | list => cases goes
      | entry here column keys => exact absurd rfl (outside here column keys)

/-- No entry goes on behind such a line. -/
def Line.ends : Line → Bool
  | .other _ _ => true
  | .content _ => true
  | .examples _ => true
  | _ => false

theorem Place.next_ne_entry {line : Line} (ends : line.ends) (here column : ℕ) (keys : List Text) :
    p.next line ≠ some (.entry here column keys) := by
  intro goes
  cases line with
  | other key rest => cases p <;> cases goes
  | content text => cases p <;> cases goes
  | examples pad =>
    cases p with
    | under listed => cases listed <;> cases goes
    | top => cases goes
    | list => cases goes
    | entry here column keys => cases goes
  | blank pad => cases ends
  | comment pad text => cases ends
  | item indent gap pair => cases ends
  | further indent pair => cases ends

theorem Regular.furthers_rest {line : Line} (regular : Regular p (line :: lines)) (ends : line.ends)
    (read : Written → Value) : furthers read lines = [] := by
  obtain ⟨-, q, goes, later⟩ := regular
  refine later.furthers_eq_nil ?_ read
  rintro here column keys rfl
  exact Place.next_ne_entry ends here column keys goes

/-- What the lines add to the examples. -/
def State.result (s : State) (lines : List Line) : List Entry :=
  s.done ++ (s.current.map (· ++ furthers readBack lines)).toList ++ entries readBack lines

theorem State.result_of_nil (none : furthers readBack lines = []) :
    s.result lines = s.examples ++ entries readBack lines := by
  rw [State.result, none, State.examples]
  simp

theorem State.result_take (regular : Regular p (line :: lines)) :
    (s.take line).result lines = s.result (line :: lines) := by
  cases line with
  | blank pad => rfl
  | comment pad text => rfl
  | other key rest =>
    rw [result_of_nil (regular.furthers_rest rfl readBack), result_of_nil rfl]
    rfl
  | content text =>
    rw [result_of_nil (regular.furthers_rest rfl readBack), result_of_nil rfl]
    rfl
  | examples pad =>
    rw [result_of_nil (regular.furthers_rest rfl readBack), result_of_nil rfl]
    simp [State.take, State.examples, entries]
  | item indent gap pair =>
    simp [State.take, State.result, State.examples, entries, furthers]
  | further indent pair =>
    cases current : s.current <;> simp [State.take, State.result, entries, furthers, current]

theorem State.run_regular (regular : Regular p lines) (at_place : s.At p) (lineno : ℕ) :
    (s.run lineno (lines.map Line.render)).map State.examples = .ok (s.result lines) := by
  induction lines generalizing s p lineno with
  | nil =>
    rw [State.result_of_nil rfl]
    simp [State.run, Except.map, entries]
  | cons line rest ih =>
    rw [← State.result_take regular]
    obtain ⟨sound, q, goes, later⟩ := regular
    rw [List.map_cons, State.run, State.step_take sound at_place goes]
    exact ih later (at_place.take goes) (lineno + 1)

/-- The parser reads the values of a document back. -/
theorem Document.parse_eq {text : Text} {all : List Line} (document : Document text all) :
    parseManifestSubset text = .ok (entries readBack all) := by
  have start : State.At {} .top := rfl
  rw [parseManifestSubset, document.lines, State.run_regular document.regular start]
  rw [State.result_of_nil (document.regular.furthers_eq_nil nofun readBack)]
  rfl

end Runs

/-! Entries. -/

section Entries

variable {p : Place} {lines : List Line}

/-- The values of these lines have no item with a comma. -/
def NoCommas (lines : List Line) : Prop :=
  ∀ line ∈ lines, ∀ pair, line.pair? = some pair → pair.value.NoCommas

theorem noCommas_cons_of_none {line : Line} (none : line.pair? = none) :
    NoCommas (line :: lines) ↔ NoCommas lines := by
  simp [NoCommas, none]

theorem noCommas_cons_of_some {line : Line} {pair : Pair} (same : line.pair? = some pair) :
    NoCommas (line :: lines) ↔ pair.value.NoCommas ∧ NoCommas lines := by
  simp [NoCommas, same]

theorem Regular.readBack_iff (regular : Regular p lines) :
    (furthers readBack lines = furthers Written.value lines ∧
      entries readBack lines = entries Written.value lines) ↔ NoCommas lines := by
  induction lines generalizing p with
  | nil => simp [furthers, entries, NoCommas]
  | cons line rest ih =>
    have whole := regular
    obtain ⟨sound, q, goes, later⟩ := regular
    have rest_iff := ih later
    cases line with
    | blank pad =>
      rw [noCommas_cons_of_none rfl]
      exact rest_iff
    | comment pad text =>
      rw [noCommas_cons_of_none rfl]
      exact rest_iff
    | other key text =>
      rw [noCommas_cons_of_none rfl, ← rest_iff, whole.furthers_rest rfl readBack,
        whole.furthers_rest rfl Written.value]
      rfl
    | content text =>
      rw [noCommas_cons_of_none rfl, ← rest_iff, whole.furthers_rest rfl readBack,
        whole.furthers_rest rfl Written.value]
      rfl
    | examples pad =>
      rw [noCommas_cons_of_none rfl, ← rest_iff, whole.furthers_rest rfl readBack,
        whole.furthers_rest rfl Written.value]
      rfl
    | item indent gap pair =>
      rw [noCommas_cons_of_some rfl, ← rest_iff, ← readBack_eq_iff sound.value]
      simp [furthers, entries, and_assoc]
    | further indent pair =>
      rw [noCommas_cons_of_some rfl, ← rest_iff, ← readBack_eq_iff sound.value]
      simp [furthers, entries, and_assoc]

end Entries

end LinuxSys.Manifest
