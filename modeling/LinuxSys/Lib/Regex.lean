import Mathlib.Data.List.Basic
import Mathlib.Data.Nat.Notation

/-! # Regular expressions that backtrack

A match is tried from a place of the text and gives the ends it can reach, with what its groups have
captured, in the order in which a backtracking matcher comes to them; the first is the match. A
search goes through the text from left to right: after a match it goes on where that ended, and
after an empty one it wants the next to be longer or to start later.
-/

namespace LinuxSys.Lib

/-- The sets are predicates. A repetition has a least number of rounds and may have a number of
further ones; looking behind is over a fixed width. -/
inductive Regex (α : Type*) where
  | empty
  | set (p : α → Bool)
  | seq (first second : Regex α)
  | alt (first second : Regex α)
  | rep (lazy : Bool) (least : ℕ) (more : Option ℕ) (r : Regex α)
  | group (n : ℕ) (r : Regex α)
  | ahead (wanted : Bool) (r : Regex α)
  | behind (wanted : Bool) (width : ℕ) (r : Regex α)
  | boundary (word : α → Bool)
  | stop

namespace Regex

variable {α : Type*}

/-- A place of the text: what is before it, from there backwards, what is after it, and what the
groups have captured, the latest first. -/
structure Point (α : Type*) where
  before : List α
  after : List α
  groups : List (ℕ × List α) := []

/-- The text from one place to a later one. -/
def Point.upTo (start last : Point α) : List α :=
  start.after.take (start.after.length - last.after.length)

def times (step : Point α → List (Point α)) : ℕ → Point α → List (Point α)
  | 0, here => [here]
  | n + 1, here => (step here).flatMap (times step n)

/-- Up to so many rounds: a greedy repetition prefers more of them. -/
def upTo (lazy : Bool) (step : Point α → List (Point α)) : ℕ → Point α → List (Point α)
  | 0, here => [here]
  | n + 1, here =>
    let further := (step here).flatMap (upTo lazy step n)
    if lazy then here :: further else further ++ [here]

/-- Without a bound the rounds end with the text. -/
def run : Regex α → Point α → List (Point α)
  | empty, here => [here]
  | set p, here =>
    match here.after with
    | c :: rest => if p c then [{ here with before := c :: here.before, after := rest }] else []
    | [] => []
  | seq first second, here => (run first here).flatMap (run second)
  | alt first second, here => run first here ++ run second here
  | rep lazy least more r, here =>
    (times (run r) least here).flatMap fun middle =>
      upTo lazy (run r) (more.getD middle.after.length) middle
  | group n r, here =>
    (run r here).map fun last => { last with groups := (n, here.upTo last) :: last.groups }
  | ahead wanted r, here =>
    match run r here with
    | last :: _ => if wanted then [{ here with groups := last.groups }] else []
    | [] => if wanted then [] else [here]
  | behind wanted width r, here =>
    let start : Point α :=
      { here with
        before := here.before.drop width
        after := (here.before.take width).reverse ++ here.after }
    let there := width ≤ here.before.length ∧
      (run r start).any (·.after.length = here.after.length)
    if wanted = decide there then [here] else []
  | boundary word, here =>
    if here.before.head?.any word = here.after.head?.any word then [] else [here]
  | stop, here => if here.after.isEmpty then [here] else []

/-- A match: its text, what its groups captured, where it ends. -/
structure Match (α : Type*) where
  text : List α
  groups : List (ℕ × List α)
  stop : ℕ
deriving DecidableEq

def Match.start (m : Match α) : ℕ := m.stop - m.text.length

/-- A group that took no part captured nothing. -/
def Match.group (m : Match α) (n : ℕ) : List α := (m.groups.lookup n).getD []

/-- A search cuts a text into its matches and the elements that are in none. -/
inductive Piece (α : Type*) where
  | kept (c : α)
  | found (m : Match α)

def Piece.text : Piece α → List α
  | kept c => [c]
  | found m => m.text

/-- `longer` says that an empty match has just ended here. -/
def search (r : Regex α) : ℕ → Bool → List α → List α → List (Piece α)
  | 0, _, _, after => after.map .kept
  | fuel + 1, longer, before, after =>
    let start : Point α := { before, after }
    match (run r start).find? fun last => !longer || last.after.length < after.length with
    | some last =>
      .found ⟨start.upTo last, last.groups, last.before.length⟩ ::
        search r fuel (last.after.length = after.length) last.before last.after
    | none =>
      match after with
      | c :: rest => .kept c :: search r fuel false (c :: before) rest
      | [] => []

/-- Between two elements there is an empty match at most. -/
def pieces (r : Regex α) (text : List α) : List (Piece α) :=
  search r (2 * text.length + 2) false [] text

/-- `re.finditer`. -/
def finditer (r : Regex α) (text : List α) : List (Match α) :=
  (pieces r text).filterMap fun
    | .found m => some m
    | .kept _ => none

/-- `re.search`. -/
def find (r : Regex α) (text : List α) : Option (Match α) := (finditer r text).head?

/-- Where a match is that starts at a place of the text. -/
def matchAt (r : Regex α) (text : List α) (pos : ℕ) : Option (Point α) :=
  (run r { before := (text.take pos).reverse, after := text.drop pos }).head?

def Piece.sub (replace : Match α → List α) : Piece α → List α
  | kept c => [c]
  | found m => replace m

/-- `re.sub`. -/
def sub (r : Regex α) (replace : Match α → List α) (text : List α) : List α :=
  (pieces r text).flatMap (Piece.sub replace)

/-- The second place is the first, or a later one. -/
def Point.Reaches (start last : Point α) : Prop :=
  ∃ used, start.after = used ++ last.after ∧ last.before = used.reverse ++ start.before

theorem Point.Reaches.refl (here : Point α) : here.Reaches here := ⟨[], rfl, rfl⟩

theorem Point.Reaches.trans {first second third : Point α} (one : first.Reaches second)
    (two : second.Reaches third) : first.Reaches third := by
  obtain ⟨used, after, before⟩ := one
  obtain ⟨more, after', before'⟩ := two
  refine ⟨used ++ more, ?_, ?_⟩
  · rw [after, after', List.append_assoc]
  · rw [before', before, List.reverse_append, List.append_assoc]

theorem Point.Reaches.upTo_append {start last : Point α} (reaches : start.Reaches last) :
    start.upTo last ++ last.after = start.after := by
  obtain ⟨used, after, -⟩ := reaches
  have length : used.length + last.after.length - last.after.length = used.length := by omega
  rw [Point.upTo, after, List.length_append, length, List.take_left]

theorem Point.Reaches.length_le {start last : Point α} (reaches : start.Reaches last) :
    last.after.length ≤ start.after.length := by
  obtain ⟨used, after, -⟩ := reaches
  rw [after, List.length_append]
  omega

section Rounds

variable {step : Point α → List (Point α)}

theorem reaches_of_mem_times (reaches : ∀ here, ∀ last ∈ step here, here.Reaches last) {n : ℕ}
    {here last : Point α} (member : last ∈ times step n here) : here.Reaches last := by
  induction n generalizing here with
  | zero =>
    cases List.mem_singleton.mp member
    exact .refl _
  | succ n ih =>
    obtain ⟨next, first, others⟩ := List.mem_flatMap.mp member
    exact (reaches here next first).trans (ih others)

theorem reaches_of_mem_upTo (reaches : ∀ here, ∀ last ∈ step here, here.Reaches last) {lazy : Bool}
    {n : ℕ} {here last : Point α} (member : last ∈ upTo lazy step n here) : here.Reaches last := by
  induction n generalizing here with
  | zero =>
    cases List.mem_singleton.mp member
    exact .refl _
  | succ n ih =>
    have further (more : last ∈ (step here).flatMap (upTo lazy step n)) : here.Reaches last := by
      obtain ⟨next, first, others⟩ := List.mem_flatMap.mp more
      exact (reaches here next first).trans (ih others)
    cases lazy with
    | true =>
      cases List.mem_cons.mp member with
      | inl none => exact none ▸ .refl _
      | inr more => exact further more
    | false =>
      cases List.mem_append.mp member with
      | inl more => exact further more
      | inr none =>
        cases List.mem_singleton.mp none
        exact .refl _

end Rounds

/-- A match uses up a part of the text. -/
theorem reaches_of_mem_run (r : Regex α) {here last : Point α} (member : last ∈ run r here) :
    here.Reaches last := by
  induction r generalizing here last with
  | empty =>
    cases List.mem_singleton.mp member
    exact .refl _
  | set p =>
    rw [run] at member
    split at member
    · next c rest after =>
      split at member
      · cases List.mem_singleton.mp member
        exact ⟨[c], after, rfl⟩
      · cases member
    · cases member
  | seq first second ihFirst ihSecond =>
    obtain ⟨middle, one, two⟩ := List.mem_flatMap.mp member
    exact (ihFirst one).trans (ihSecond two)
  | alt first second ihFirst ihSecond =>
    cases List.mem_append.mp member with
    | inl one => exact ihFirst one
    | inr two => exact ihSecond two
  | rep lazy least more r ih =>
    obtain ⟨middle, one, two⟩ := List.mem_flatMap.mp member
    exact (reaches_of_mem_times (fun _ _ => ih) one).trans
      (reaches_of_mem_upTo (fun _ _ => ih) two)
  | group n r ih =>
    obtain ⟨end', inside, same⟩ := List.mem_map.mp member
    rw [← same]
    have reaches : here.Reaches end' := ih inside
    exact reaches
  | ahead wanted r ih =>
    rw [run] at member
    split at member
    · split at member
      · cases List.mem_singleton.mp member
        exact .refl _
      · cases member
    · split at member
      · cases member
      · cases List.mem_singleton.mp member
        exact .refl _
  | behind wanted width r ih =>
    simp only [run] at member
    split at member
    · cases List.mem_singleton.mp member
      exact .refl _
    · cases member
  | boundary word =>
    rw [run] at member
    split at member
    · cases member
    · cases List.mem_singleton.mp member
      exact .refl _
  | stop =>
    rw [run] at member
    split at member
    · cases List.mem_singleton.mp member
      exact .refl _
    · cases member

/-- More fuel than two rounds for each element and two at the end changes nothing. -/
theorem search_add_fuel (r : Regex α) {fuel : ℕ} {longer : Bool} {before after : List α}
    (enough : 2 * after.length + (if longer then 1 else 2) ≤ fuel) (more : ℕ) :
    search r (fuel + more) longer before after = search r fuel longer before after := by
  induction fuel generalizing longer before after with
  | zero =>
    split at enough
    · omega
    · omega
  | succ fuel ih =>
    rw [Nat.add_right_comm]
    simp only [search]
    split
    · next last found =>
      have reaches := reaches_of_mem_run r (List.mem_of_find?_eq_some found)
      have shorter : last.after.length ≤ after.length := reaches.length_le
      have wanted := List.find?_some found
      rw [ih]
      by_cases same : last.after.length = after.length
      · cases longer with
        | true => simp [same] at wanted
        | false =>
          simp only [same, decide_true, if_pos] at enough ⊢
          simp at enough
          omega
      · simp only [same, decide_false] at enough ⊢
        split at enough
        · simp
          omega
        · simp
          omega
    · split
      · next c rest =>
        rw [ih]
        rw [List.length_cons] at enough
        split at enough
        · simp
          omega
        · simp
          omega
      · rfl

theorem search_eq_pieces (r : Regex α) {fuel : ℕ} {text : List α}
    (enough : 2 * text.length + 2 ≤ fuel) : search r fuel false [] text = pieces r text := by
  obtain ⟨more, rfl⟩ := Nat.exists_eq_add_of_le enough
  have bound : 2 * text.length + (if false then 1 else 2) ≤ 2 * text.length + 2 := Nat.le_refl _
  exact search_add_fuel r bound more

/-- Every match uses up something. -/
def Consumes (r : Regex α) : Prop :=
  ∀ here, ∀ last ∈ run r here, last.after.length < here.after.length

theorem consumes_set (p : α → Bool) : Consumes (set p) := by
  intro here last member
  rw [run] at member
  split at member
  · next c rest after =>
    split at member
    · cases List.mem_singleton.mp member
      rw [after, List.length_cons]
      exact Nat.lt_succ_self _
    · cases member
  · cases member

theorem Consumes.seq {first : Regex α} (consumes : Consumes first) (second : Regex α) :
    Consumes (seq first second) := by
  intro here last member
  obtain ⟨middle, one, two⟩ := List.mem_flatMap.mp member
  exact Nat.lt_of_le_of_lt (reaches_of_mem_run second two).length_le (consumes here middle one)

/-- Where a match is that uses up something. -/
theorem within_of_mem_search {r : Regex α} (consumes : Consumes r) {fuel : ℕ} {longer : Bool}
    {before after : List α} {m : Match α} (member : .found m ∈ search r fuel longer before after) :
    m.text ≠ [] ∧ before.length + m.text.length ≤ m.stop ∧
      m.stop ≤ before.length + after.length := by
  induction fuel generalizing longer before after with
  | zero =>
    obtain ⟨c, -, other⟩ := List.mem_map.mp member
    cases other
  | succ fuel ih =>
    simp only [search] at member
    split at member
    · next last found =>
      have here := List.mem_of_find?_eq_some found
      have shorter := consumes _ last here
      obtain ⟨used, rest, front⟩ := reaches_of_mem_run r here
      have whole := (reaches_of_mem_run r here).upTo_append
      simp only at rest front shorter whole
      have text : Point.upTo { before, after } last = used :=
        List.append_cancel_right (whole.trans rest)
      have place : last.before.length = used.length + before.length := by
        rw [front, List.length_append, List.length_reverse]
      have length : after.length = used.length + last.after.length := by
        rw [rest, List.length_append]
      cases member with
      | head =>
        simp only [text, place]
        refine ⟨?_, ?_, ?_⟩
        · rintro rfl
          rw [List.length_nil] at length
          omega
        · omega
        · omega
      | tail _ later =>
        obtain ⟨some, above, below⟩ := ih later
        exact ⟨some, by omega, by omega⟩
    · split at member
      · next c rest _ =>
        cases member with
        | tail _ later =>
          obtain ⟨some, above, below⟩ := ih later
          rw [List.length_cons] at above below
          rw [List.length_cons]
          exact ⟨some, by omega, by omega⟩
      · cases member

theorem within_of_find {r : Regex α} (consumes : Consumes r) {text : List α} {m : Match α}
    (found : find r text = some m) :
    m.text ≠ [] ∧ m.text.length ≤ m.stop ∧ m.stop ≤ text.length := by
  obtain ⟨piece, member, same⟩ := List.mem_filterMap.mp (List.mem_of_mem_head? found)
  cases piece with
  | kept c => cases same
  | found m' =>
    cases same
    simpa using within_of_mem_search consumes member

end Regex

end LinuxSys.Lib
