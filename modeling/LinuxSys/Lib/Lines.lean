import LinuxSys.Lib.Bytes

/-! # Streams read in pieces, and their lines

A stream arrives in segments; a read takes what has arrived, up to the room it has, and leaves the
rest for the next one. A line reader hands back one line at a time until it hands back none. Its
lines depend on the bytes alone where each line it hands back is the first of what was left.
-/

namespace LinuxSys.Lib

variable {α : Type*}

/-- What will arrive, in the pieces in which it arrives; after the last the stream is at its end. -/
structure Source (α : Type*) where
  segments : List (List α)
  nonempty : ∀ segment ∈ segments, segment ≠ []

namespace Source

def bytes (source : Source α) : List α := source.segments.flatten

/-- One read; it is empty at the end of the stream only. -/
def read (room : ℕ) : Source α → List α × Source α
  | ⟨[], whole⟩ => ([], ⟨[], whole⟩)
  | ⟨segment :: rest, whole⟩ =>
    (segment.take room,
      if left : segment.drop room = [] then
        ⟨rest, fun other member => whole other (List.mem_cons_of_mem segment member)⟩
      else
        ⟨segment.drop room :: rest, by
          intro other member
          rcases List.mem_cons.mp member with rfl | later
          · exact left
          · exact whole other (List.mem_cons_of_mem segment later)⟩)

theorem read_append_bytes (room : ℕ) (source : Source α) :
    (source.read room).1 ++ (source.read room).2.bytes = source.bytes := by
  obtain ⟨segments, whole⟩ := source
  cases segments with
  | nil => rfl
  | cons segment rest =>
    simp only [read]
    split
    · next left =>
      have all := List.take_append_drop room segment
      rw [left, List.append_nil] at all
      simp only [bytes, all, List.flatten_cons]
    · simp only [bytes, List.flatten_cons, ← List.append_assoc, List.take_append_drop]

theorem read_eq_nil_iff {room : ℕ} (positive : 0 < room) (source : Source α) :
    (source.read room).1 = [] ↔ source.bytes = [] := by
  obtain ⟨segments, whole⟩ := source
  cases segments with
  | nil => exact iff_of_true rfl rfl
  | cons segment rest =>
    have some := whole segment List.mem_cons_self
    refine iff_of_false (fun none => ?_) fun none => ?_
    · rcases List.take_eq_nil_iff.mp none with zero | empty
      · omega
      · exact some empty
    · exact some (List.append_eq_nil_iff.mp none).1

theorem length_read_le (room : ℕ) (source : Source α) : (source.read room).1.length ≤ room := by
  obtain ⟨segments, whole⟩ := source
  cases segments with
  | nil => exact Nat.zero_le room
  | cons segment rest => exact List.length_take_le room segment

/-- A read that is not empty leaves less. -/
theorem length_bytes_read_lt {room : ℕ} {source : Source α} (some : (source.read room).1 ≠ []) :
    (source.read room).2.bytes.length < source.bytes.length := by
  have whole := congrArg List.length (source.read_append_bytes room)
  rw [List.length_append] at whole
  have positive := List.length_pos_of_ne_nil some
  omega

end Source

section Lines

variable [DecidableEq α] {sep : α}

theorem length_of_splitFirst? {whole line rest : List α}
    (found : splitFirst? sep whole = some (line, rest)) :
    whole.length = line.length + 1 + rest.length := by
  obtain ⟨rfl, -⟩ := splitFirst?_eq_some_iff.mp found
  simp only [List.length_append, List.length_cons]
  omega

/-- The lines of a stream, the last one perhaps without its end. -/
def lines (sep : α) (whole : List α) : List (List α) :=
  match _found : splitFirst? sep whole with
  | some (line, rest) => line :: lines sep rest
  | none => if whole = [] then [] else [whole]
termination_by whole.length
decreasing_by
  have length := length_of_splitFirst? _found
  omega

@[simp] theorem lines_nil (sep : α) : lines sep [] = [] := by
  rw [lines]
  rfl

theorem lines_of_split {whole line rest : List α}
    (found : splitFirst? sep whole = some (line, rest)) :
    lines sep whole = line :: lines sep rest := by
  rw [lines]
  split
  · next other =>
    rw [found] at other
    cases other
    rfl
  · next other =>
    rw [found] at other
    cases other

theorem lines_of_not_mem {whole : List α} (fresh : sep ∉ whole) (some : whole ≠ []) :
    lines sep whole = [whole] := by
  have none := splitFirst?_eq_none_iff.mpr fresh
  rw [lines]
  split
  · next other =>
    rw [none] at other
    cases other
  · rw [if_neg some]

/-- The lines that have their end, and what follows the last of them. -/
def cutLines (sep : α) (whole : List α) : List (List α) × List α :=
  match _found : splitFirst? sep whole with
  | some (line, rest) => (line :: (cutLines sep rest).1, (cutLines sep rest).2)
  | none => ([], whole)
termination_by whole.length
decreasing_by
  all_goals
    have length := length_of_splitFirst? _found
    omega

theorem cutLines_of_split {whole line rest : List α}
    (found : splitFirst? sep whole = some (line, rest)) :
    cutLines sep whole = (line :: (cutLines sep rest).1, (cutLines sep rest).2) := by
  rw [cutLines]
  split
  · next other =>
    rw [found] at other
    cases other
    rfl
  · next other =>
    rw [found] at other
    cases other

theorem cutLines_of_not_mem {whole : List α} (fresh : sep ∉ whole) :
    cutLines sep whole = ([], whole) := by
  have none := splitFirst?_eq_none_iff.mpr fresh
  rw [cutLines]
  split
  · next other =>
    rw [none] at other
    cases other
  · rfl

/-- A fact about every stream, from its first line to the rest. -/
theorem lines_induction {motive : List α → Prop} (last : ∀ whole, sep ∉ whole → motive whole)
    (next : ∀ line rest, sep ∉ line → motive rest → motive (line ++ sep :: rest))
    (whole : List α) : motive whole := by
  induction size : whole.length using Nat.strongRecOn generalizing whole with
  | ind length ih =>
    subst size
    cases found : splitFirst? sep whole with
    | none => exact last whole (splitFirst?_eq_none_iff.mp found)
    | some pair =>
      obtain ⟨line, rest⟩ := pair
      have shorter := length_of_splitFirst? found
      obtain ⟨rfl, fresh⟩ := splitFirst?_eq_some_iff.mp found
      exact next line rest fresh (ih _ (by omega) rest rfl)

theorem lines_cons {line : List α} (fresh : sep ∉ line) (rest : List α) :
    lines sep (line ++ sep :: rest) = line :: lines sep rest :=
  lines_of_split (splitFirst?_append fresh rest)

theorem cutLines_cons {line : List α} (fresh : sep ∉ line) (rest : List α) :
    cutLines sep (line ++ sep :: rest) =
      (line :: (cutLines sep rest).1, (cutLines sep rest).2) :=
  cutLines_of_split (splitFirst?_append fresh rest)

/-- The lines are those that have their end and what follows, if anything does. -/
theorem lines_eq_cutLines (whole : List α) : lines sep whole = (cutLines sep whole).1 ++
    if (cutLines sep whole).2 = [] then [] else [(cutLines sep whole).2] := by
  induction whole using @lines_induction _ _ sep with
  | last whole fresh =>
    rw [cutLines_of_not_mem fresh]
    dsimp only
    split
    · next none => rw [none, lines_nil, List.nil_append]
    · next some => rw [lines_of_not_mem fresh some, List.nil_append]
  | next line rest fresh ih => rw [cutLines_cons fresh, lines_cons fresh, ih, List.cons_append]

/-- An end behind the text ends its last line. -/
theorem cutLines_concat (text : List α) :
    cutLines sep (text ++ [sep]) = ((cutLines sep text).1 ++ [(cutLines sep text).2], []) := by
  induction text using @lines_induction _ _ sep with
  | last text fresh =>
    rw [cutLines_cons fresh, cutLines_of_not_mem List.not_mem_nil, cutLines_of_not_mem fresh]
    rfl
  | next line rest fresh ih =>
    rw [List.append_assoc, List.cons_append, cutLines_cons fresh, cutLines_cons fresh, ih]
    rfl

theorem cutLines_ne_nil {text : List α} (full : text ≠ []) (unended : text.getLast? ≠ some sep) :
    (cutLines sep text).2 ≠ [] := by
  induction text using @lines_induction _ _ sep with
  | last text fresh =>
    rw [cutLines_of_not_mem fresh]
    exact full
  | next line rest fresh ih =>
    rw [cutLines_cons fresh]
    by_cases none : rest = []
    · rw [none] at unended
      exact absurd List.getLast?_concat unended
    · apply ih none
      intro ended
      apply unended
      rw [List.getLast?_append_of_ne_nil _ (List.cons_ne_nil sep rest), List.getLast?_cons, ended]
      rfl

/-- Lines written one after another are cut where they were joined. -/
theorem cutLines_flatMap {β : Type*} {body : β → List α} {items : List β}
    (fresh : ∀ item ∈ items, sep ∉ body item) :
    cutLines sep (items.flatMap fun item => body item ++ [sep]) = (items.map body, []) := by
  induction items with
  | nil => exact cutLines_of_not_mem List.not_mem_nil
  | cons item rest ih =>
    have tail := ih fun other member => fresh other (List.mem_cons_of_mem item member)
    rw [List.flatMap_cons, List.append_assoc, List.singleton_append,
      cutLines_cons (fresh item List.mem_cons_self), tail, List.map_cons]

theorem not_mem_cutLines (whole : List α) : sep ∉ (cutLines sep whole).2 := by
  induction whole using @lines_induction _ _ sep with
  | last whole fresh =>
    rw [cutLines_of_not_mem fresh]
    exact fresh
  | next line rest fresh ih =>
    rw [cutLines_cons fresh]
    exact ih

/-- What follows the finished lines is cut alone. -/
theorem lines_append (front back : List α) : lines sep (front ++ back) =
    (cutLines sep front).1 ++ lines sep ((cutLines sep front).2 ++ back) := by
  induction front using @lines_induction _ _ sep with
  | last front fresh =>
    rw [cutLines_of_not_mem fresh]
    rfl
  | next line rest fresh ih =>
    rw [cutLines_cons fresh, List.append_assoc, List.cons_append, lines_cons fresh, ih,
      List.cons_append]

theorem cutLines_append (front back : List α) : (cutLines sep (front ++ back)).2 =
    (cutLines sep ((cutLines sep front).2 ++ back)).2 := by
  induction front using @lines_induction _ _ sep with
  | last front fresh => rw [cutLines_of_not_mem fresh]
  | next line rest fresh ih =>
    rw [cutLines_cons fresh, List.append_assoc, List.cons_append, cutLines_cons fresh]
    exact ih

/-- Putting text in front of the first line makes at most one line more. -/
theorem length_lines_append_le (front : List α) (fresh : sep ∉ front) (back : List α) :
    (lines sep (front ++ back)).length ≤ (lines sep back).length + 1 := by
  induction back using @lines_induction _ _ sep with
  | last back absent =>
    rcases eq_or_ne (front ++ back) [] with none | some
    · rw [none, lines_nil]
      exact Nat.zero_le _
    · rw [lines_of_not_mem (by simp [fresh, absent]) some]
      exact Nat.le_add_left 1 _
  | next line rest absent ih =>
    rw [← List.append_assoc, lines_cons (by simp [fresh, absent]), lines_cons absent]
    exact Nat.le_succ _

end Lines

/-- A reader of lines: what it has not read yet shrinks with every line. -/
structure LineReader (σ : Type*) (α : Type*) where
  next : σ → Option (List α × σ)
  left : σ → List α
  shrinks : ∀ {s line t}, next s = some (line, t) → (left t).length < (left s).length

namespace LineReader

variable {σ : Type*} (reader : LineReader σ α)

/-- The lines handed back until none is. -/
def collect (s : σ) : List (List α) :=
  match _handed : reader.next s with
  | none => []
  | some (line, t) => line :: collect t
termination_by (reader.left s).length
decreasing_by exact reader.shrinks _handed

theorem collect_of_none {s : σ} (handed : reader.next s = none) : reader.collect s = [] := by
  rw [collect]
  split
  · rfl
  · next other =>
    rw [handed] at other
    cases other

theorem collect_of_some {s t : σ} {line : List α} (handed : reader.next s = some (line, t)) :
    reader.collect s = line :: reader.collect t := by
  rw [collect]
  split
  · next other =>
    rw [handed] at other
    cases other
  · next other =>
    rw [handed] at other
    cases other
    rfl

/-- A reader that hands back each first line that it takes, until the first that it does not take;
`view` sees of what it hands back what `text` says of the line. -/
theorem map_collect_of [DecidableEq α] {β : Type*} {sep : α} (inv : σ → Prop)
    {take : List α → Bool} {view text : List α → β}
    (ends : ∀ s, inv s → reader.next s = none → reader.left s = [] ∨
      ∃ line rest, lines sep (reader.left s) = line :: rest ∧ take line = false)
    (hands : ∀ s line t, inv s → reader.next s = some (line, t) → inv t ∧
      ∃ first, lines sep (reader.left s) = first :: lines sep (reader.left t) ∧
        take first = true ∧ view line = text first)
    {s : σ} (start : inv s) :
    (reader.collect s).map view = ((lines sep (reader.left s)).takeWhile take).map text := by
  induction size : (reader.left s).length using Nat.strongRecOn generalizing s with
  | ind length ih =>
    subst size
    cases handed : reader.next s with
    | none =>
      rw [reader.collect_of_none handed]
      rcases ends s start handed with empty | ⟨line, rest, first, refused⟩
      · rw [empty, lines_nil]
        rfl
      · rw [first, List.takeWhile_cons_of_neg (by rw [refused]; decide)]
        rfl
    | some pair =>
      obtain ⟨line, t⟩ := pair
      obtain ⟨kept, first, split, taken, same⟩ := hands s line t start handed
      rw [reader.collect_of_some handed, split, List.takeWhile_cons_of_pos taken, List.map_cons,
        List.map_cons, same, ih _ (reader.shrinks handed) kept rfl]

/-- What the reader hands back may differ from the line in what `view` does not see. -/
theorem map_collect [DecidableEq α] {β : Type*} {sep : α} (inv : σ → Prop) {take : List α → Bool}
    {view : List α → β}
    (ends : ∀ s, inv s → reader.next s = none → reader.left s = [] ∨
      ∃ line rest, lines sep (reader.left s) = line :: rest ∧ take line = false)
    (hands : ∀ s line t, inv s → reader.next s = some (line, t) → inv t ∧
      ∃ first, lines sep (reader.left s) = first :: lines sep (reader.left t) ∧
        take first = true ∧ view line = view first)
    {s : σ} (start : inv s) :
    (reader.collect s).map view = ((lines sep (reader.left s)).takeWhile take).map view :=
  reader.map_collect_of inv ends hands start

end LineReader

end LinuxSys.Lib
