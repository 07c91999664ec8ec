import LinuxSys.App.Serve

/-! # The replies of the three servers

A line is answered by nothing, by its number or by an error. The C++ program does that for every
stream. The Go scanner stops at a line that fills its largest buffer, Rust gives up at a line that
is no text; both take off more white space and a plus sign, and Rust casts a negative delay.
-/

namespace LinuxSys.App

open Lib

/-- The reply that a line should get. -/
def contract (line : Bytes) : Option Bytes :=
  if trim line = [] then none
  else
    match integer false (trim line) with
    | some seq => some (ok seq)
    | none => some badRequest

/-- The replies are those of the lines, and no delay is longer than four milliseconds. -/
def Right (lang : Language) (source : Source UInt8) : Prop :=
  serveConn lang source = (lines newline source.bytes).filterMap contract ∧
    ∀ delay ∈ delays lang source, delay ≤ 4

/-- A line that is blank or a number apart from white space has no white space around it but
spaces, tabs and carriage returns, and no plus sign. -/
def Plain (line : Bytes) : Prop :=
  trimSpace line = [] ∨ (atoi (trimSpace line)).isSome →
    trim line = trimSpace line ∧ (trimSpace line).head? ≠ some 0x2B

structure Sound (stream : Bytes) : Prop where
  valid : ∀ line ∈ lines newline stream, Utf8.Valid line
  plain : ∀ line ∈ lines newline stream, Plain line
  short : ∀ line ∈ (lines newline stream).dropWhile (fun line => line.length < maxTokenSize),
    trim line = []
  delay : ∀ line ∈ lines newline stream, ∀ seq, atoi (trimSpace line) = some seq →
    -1 ≤ seq.tmod 4

/-! The parsers. -/

/-- `from_chars` over the whole text reads an integer without a plus sign. -/
theorem parseI64_eq (s : Bytes) : parseI64 s = integer false s := by
  rw [parseI64]
  split
  · next empty =>
    rw [empty]
    rfl
  · rw [fromChars, integer]
    obtain ⟨negative, body⟩ := sign false s
    simp only
    by_cases whole : body.all isDigit = true
    · have digits := List.all_eq_true.mp whole
      have all : body.takeWhile isDigit = body := List.takeWhile_eq_self_iff.mpr digits
      have none : body.dropWhile isDigit = [] := List.dropWhile_eq_nil_iff.mpr digits
      rw [all, none]
      by_cases empty : body = []
      · rw [if_pos empty, if_pos (.inl empty)]
      · have valid : ¬ (body = [] ∨ ¬ body.all isDigit = true) := by
          rintro (nil | partly)
          · exact empty nil
          · exact partly whole
        rw [if_neg empty, if_neg valid]
        by_cases range : inRange (signed negative body)
        · rw [if_pos range, if_pos range]
        · rw [if_neg range, if_neg range]
    · have bad : body = [] ∨ ¬ body.all isDigit = true := .inr whole
      rw [if_pos bad]
      have some : body.dropWhile isDigit ≠ [] := by
        rw [ne_eq, List.dropWhile_eq_nil_iff, ← List.all_eq_true]
        exact whole
      obtain ⟨b, rest, more⟩ := List.exists_cons_of_ne_nil some
      rw [more]
      split
      · next n found =>
        split_ifs at found
        simp at found
      · rfl

theorem integer_false (s : Bytes) :
    integer false s = if s.head? = some 0x2B then none else integer true s := by
  cases s with
  | nil => rfl
  | cons c rest =>
    by_cases minus : c = 0x2D
    · simp [integer, sign, minus]
    · by_cases plus : c = 0x2B
      · have digit : isDigit 0x2B = false := by decide
        simp [integer, sign, plus, digit]
      · simp [integer, sign, minus, plus]

theorem digits_of_integer {plus : Bool} {s : Bytes} {n : ℤ} (read : integer plus s = some n) :
    ∀ b ∈ (sign plus s).2, isDigit b := by
  by_cases bad : (sign plus s).2 = [] ∨ ¬ (sign plus s).2.all isDigit = true
  · rw [integer] at read
    simp only at read
    rw [if_pos bad] at read
    cases read
  · rw [not_or, not_not, List.all_eq_true] at bad
    exact bad.2

/-- An integer without a plus sign consists of digits and a minus. -/
theorem of_integer {s : Bytes} {n : ℤ} (read : integer false s = some n) :
    s ≠ [] ∧ ∀ b ∈ s, isDigit b ∨ b = 0x2D := by
  have digits := digits_of_integer read
  cases s with
  | nil => cases read
  | cons c rest =>
    refine ⟨List.cons_ne_nil c rest, fun b member => ?_⟩
    by_cases minus : c = 0x2D
    · rw [sign, if_pos minus] at digits
      rcases List.mem_cons.mp member with rfl | inside
      · exact .inr minus
      · exact .inl (digits b inside)
    · rw [sign, if_neg minus, if_neg (by simp)] at digits
      exact .inl (digits b member)

/-! White space. -/

theorem isSpace_iff {c : UInt8} :
    isSpace c = true ↔ c = 0x20 ∨ c = 0x09 ∨ c = 0x0D ∨ c = 0x0A := by
  simp [isSpace, or_assoc]

theorem space_of_isSpace {c : UInt8} (space : isSpace c = true) :
    Single Utf8.spaces c ∧ [c] ∈ Utf8.spaces := by
  rcases isSpace_iff.mp space with rfl | rfl | rfl | rfl <;>
    exact ⟨Utf8.single_spaces (by decide), by decide⟩

theorem not_space_of_numeral {c : UInt8} (numeral : isDigit c ∨ c = 0x2D) :
    Single Utf8.spaces c ∧ [c] ∉ Utf8.spaces := by
  have apart : ∀ w ∈ Utf8.spaces, ∀ b ∈ w, ¬ (isDigit b ∨ b = 0x2D) := by
    simp [Utf8.spaces, isDigit]
  refine ⟨Utf8.single_spaces ?_, fun member => apart [c] member c List.mem_cons_self numeral⟩
  rcases numeral with digit | rfl
  · rw [isDigit_iff] at digit
    rw [UInt8.le_iff_toNat_le]
    exact digit.2.trans (by decide)
  · decide

/-- What `trim` takes off on both sides. -/
theorem trim_split (s : Bytes) : ∃ front back, s = front ++ trim s ++ back ∧
    (∀ b ∈ front, isSpace b = true) ∧ ∀ b ∈ back, isSpace b = true := by
  refine ⟨s.takeWhile isSpace, (s.dropWhile isSpace).rtakeWhile isSpace, ?_, ?_, ?_⟩
  · have back := @List.rdropWhile_append_rtakeWhile _ isSpace (s.dropWhile isSpace)
    rw [trim, List.append_assoc, back, List.takeWhile_append_dropWhile]
  · exact fun b member => List.mem_takeWhile_imp member
  · exact fun b member => List.mem_rtakeWhile_imp member

theorem trimSpace_append_newline (text : Bytes) :
    trimSpace (text ++ [newline]) = trimSpace text :=
  trimWords_append_one (Utf8.single_spaces (by decide)) Utf8.nil_not_mem_spaces (by decide) text

theorem trimSpace_dropCR (text : Bytes) : trimSpace (GoReader.dropCR text) = trimSpace text := by
  rw [GoReader.dropCR]
  split
  · next last =>
    have whole := List.dropLast_append_getLast? _ last
    conv_rhs => rw [← whole]
    exact (trimWords_append_one (Utf8.single_spaces (by decide)) Utf8.nil_not_mem_spaces
      (by decide) _).symm
  · rfl

theorem trimSpace_of_blank {line : Bytes} (blank : trim line = []) : trimSpace line = [] := by
  obtain ⟨front, back, split, left, right⟩ := trim_split line
  rw [blank, List.append_nil] at split
  refine trimWords_blank Utf8.nil_not_mem_spaces fun b member => space_of_isSpace ?_
  rw [split] at member
  rcases List.mem_append.mp member with before | behind
  · exact left b before
  · exact right b behind

/-- Around an integer there is no other white space. -/
theorem trimSpace_of_integer {line : Bytes} {n : ℤ} (read : integer false (trim line) = some n) :
    trimSpace line = trim line := by
  obtain ⟨some, inner⟩ := of_integer read
  obtain ⟨front, back, split, left, right⟩ := trim_split line
  have around : trimWords Utf8.spaces (front ++ trim line ++ back) = trim line := by
    refine trimWords_around Utf8.nil_not_mem_spaces some (fun b member => ?_) (fun b member => ?_)
      fun b member => ?_
    · exact space_of_isSpace (left b member)
    · exact space_of_isSpace (right b member)
    · exact not_space_of_numeral (inner b member)
  rwa [← split] at around

/-! The lines that are handled. -/

/-- The lines that a reader hands back. -/
def takes (lang : Language) (line : Bytes) : Bool :=
  match lang with
  | .cpp => true
  | .rust => Utf8.Valid line
  | .go => line.length < maxTokenSize

theorem map_handled (lang : Language) (source : Source UInt8) :
    (handled lang source).map (trimmed lang) =
      ((lines newline source.bytes).takeWhile (takes lang)).map (trimmed lang) := by
  cases lang with
  | cpp =>
    refine cppLines.map_collect (fun _ => True) (fun r _ handed => ?_)
      (fun r line next _ handed => ⟨trivial, line, ?_, rfl, rfl⟩) trivial
    · have spec := r.readLine_spec
      change r.readLine = none at handed
      rw [handed] at spec
      exact .inl spec
    · have spec := r.readLine_spec
      change r.readLine = some (line, next) at handed
      rw [handed] at spec
      exact spec.lines
  | rust =>
    refine rustLines.map_collect (fun _ => True) (fun r _ handed => ?_)
      (fun r line next _ handed => ⟨trivial, ?_⟩) trivial
    · have spec := r.readLine_spec
      change r.readLine = none at handed
      rw [handed] at spec
      rcases spec with spent | ⟨line, rest, first, bad⟩
      · exact .inl spent
      · exact .inr ⟨line, _, first.lines, decide_eq_false bad⟩
    · have spec := r.readLine_spec
      change r.readLine = some (line, next) at handed
      rw [handed] at spec
      obtain ⟨text, first, valid, ended | same⟩ := spec
      · exact ⟨text, first.lines, decide_eq_true valid, ended ▸ trimSpace_append_newline text⟩
      · exact ⟨text, first.lines, decide_eq_true valid, same ▸ rfl⟩
  | go =>
    refine goLines.map_collect GoReader.Inv (fun r inv handed => ?_)
      (fun r line next inv handed => ?_) (GoReader.Inv.init source)
    · have spec := GoReader.scan_spec inv
      change r.scan = none at handed
      rw [handed] at spec
      rcases spec with spent | ⟨line, rest, first, long⟩
      · exact .inl spent
      · exact .inr ⟨line, _, first.lines, decide_eq_false (not_lt.mpr long)⟩
    · have spec := GoReader.scan_spec inv
      change r.scan = some (line, next) at handed
      rw [handed] at spec
      obtain ⟨kept, text, first, short, same⟩ := spec
      exact ⟨kept, text, first.lines, decide_eq_true short, same ▸ trimSpace_dropCR text⟩

/-- The replies are those of the lines that are taken. -/
theorem serveConn_eq (lang : Language) (source : Source UInt8) : serveConn lang source =
    ((lines newline source.bytes).takeWhile (takes lang)).filterMap
      fun line => answer lang (trimmed lang line) := by
  have same := congrArg (List.filterMap (answer lang)) (map_handled lang source)
  rwa [List.filterMap_map, List.filterMap_map] at same

theorem delays_eq (lang : Language) (source : Source UInt8) : delays lang source =
    (((lines newline source.bytes).takeWhile (takes lang)).filterMap
      fun line => accepted lang (trimmed lang line)).map (work lang) := by
  have same := congrArg (List.filterMap (accepted lang)) (map_handled lang source)
  rw [List.filterMap_map, List.filterMap_map] at same
  exact congrArg (List.map (work lang)) same

/-! One line, and all of them. -/

theorem answer_cpp (line : Bytes) : answer .cpp (trimmed .cpp line) = contract line := by
  rw [answer, contract, trimmed, accepted, parseI64_eq] <;> rfl

theorem contract_eq_none_iff (line : Bytes) : contract line = none ↔ trim line = [] := by
  rw [contract]
  split
  · next blank => exact iff_of_true rfl blank
  · next some =>
    refine iff_of_false (fun none => ?_) some
    split at none <;> cases none

theorem ok_ne_badRequest (n : ℤ) : ok n ≠ badRequest := by
  have first : badRequest.head? = some 0x65 := rfl
  have other : (ok n).head? = some 0x6F := rfl
  intro same
  rw [same, first] at other
  cases other

/-- The answer of Go and Rust to a line. -/
def wide (line : Bytes) : Option Bytes := answer .go (trimSpace line)

theorem wide_eq_none_iff (line : Bytes) : wide line = none ↔ trimSpace line = [] := by
  rw [wide, answer]
  split
  · next blank => exact iff_of_true rfl blank
  · next some =>
    refine iff_of_false (fun none => ?_) some
    split at none <;> cases none

theorem isSome_contract_of_wide {line : Bytes} (answered : (wide line).isSome) :
    (contract line).isSome := by
  rw [Option.isSome_iff_ne_none, ne_eq, contract_eq_none_iff]
  intro blank
  rw [(wide_eq_none_iff line).mpr (trimSpace_of_blank blank)] at answered
  cases answered

theorem contract_of_some {line : Bytes} {n : ℤ} (read : integer false (trim line) = some n) :
    contract line = some (ok n) := by
  have some := (of_integer read).1
  rw [contract, if_neg some]
  simp only [read]

theorem contract_of_none {line : Bytes} (some : trim line ≠ [])
    (read : integer false (trim line) = none) : contract line = Option.some badRequest := by
  rw [contract, if_neg some]
  simp only [read]

theorem wide_of_some {line : Bytes} {n : ℤ} (read : atoi (trimSpace line) = some n) :
    wide line = some (ok n) := by
  have some : trimSpace line ≠ [] := by
    intro none
    rw [none] at read
    cases read
  rw [wide, answer, if_neg some]
  simp only [accepted, read]

theorem wide_of_none {line : Bytes} (some : trimSpace line ≠ [])
    (read : atoi (trimSpace line) = none) : wide line = Option.some badRequest := by
  rw [wide, answer, if_neg some]
  simp only [accepted, read]

/-- Go and Rust give a line the reply of the contract exactly when it is plain. -/
theorem wide_eq_contract_iff (line : Bytes) : wide line = contract line ↔ Plain line := by
  constructor
  · rintro same (blank | number)
    · rw [(wide_eq_none_iff line).mpr blank] at same
      rw [blank, (contract_eq_none_iff line).mp same.symm]
      exact ⟨rfl, by simp⟩
    · obtain ⟨n, read⟩ := Option.isSome_iff_exists.mp number
      rw [wide_of_some read] at same
      cases other : integer false (trim line) with
      | none =>
        have some : trim line ≠ [] := by
          intro blank
          rw [(contract_eq_none_iff line).mpr blank] at same
          cases same
        rw [contract_of_none some other] at same
        exact absurd (Option.some.inj same) (ok_ne_badRequest n)
      | some m =>
        have around := trimSpace_of_integer other
        refine ⟨around.symm, fun plus => ?_⟩
        rw [integer_false, ← around, if_pos plus] at other
        cases other
  · intro plain
    by_cases blank : trimSpace line = []
    · have blank' := (plain (.inl blank)).1.trans blank
      rw [(wide_eq_none_iff line).mpr blank, (contract_eq_none_iff line).mpr blank']
    · cases read : atoi (trimSpace line) with
      | some n =>
        obtain ⟨same, unsigned⟩ := plain (.inr (by rw [read]; rfl))
        rw [wide_of_some read, contract_of_some (n := n)]
        rw [same, integer_false, if_neg unsigned]
        exact read
      | none =>
        have some : trim line ≠ [] := fun none => blank (trimSpace_of_blank none)
        rw [wide_of_none blank read, contract_of_none some]
        cases other : integer false (trim line) with
        | none => rfl
        | some m =>
          rw [atoi, trimSpace_of_integer other] at read
          rw [integer_false] at other
          split_ifs at other
          rw [read] at other
          cases other

section FilterMap

variable {α β : Type*} {f g : α → Option β}

theorem length_filterMap_le (within : ∀ a, (g a).isSome → (f a).isSome) (l : List α) :
    (l.filterMap g).length ≤ (l.filterMap f).length := by
  induction l with
  | nil => exact le_rfl
  | cons a rest ih =>
    cases here : g a with
    | none =>
      rw [List.filterMap_cons_none here]
      exact ih.trans ((List.sublist_cons_self a rest).filterMap f).length_le
    | some b =>
      obtain ⟨c, there⟩ := Option.isSome_iff_exists.mp (within a (by rw [here]; rfl))
      rw [List.filterMap_cons_some here, List.filterMap_cons_some there]
      exact Nat.succ_le_succ ih

/-- A function that gives less gives a front of the list what another gives the whole list exactly
when they agree there and the other gives nothing behind it. -/
theorem filterMap_eq_append_iff (within : ∀ a, (g a).isSome → (f a).isSome) (first last : List α) :
    first.filterMap g = (first ++ last).filterMap f ↔
      (∀ a ∈ first, g a = f a) ∧ ∀ a ∈ last, f a = none := by
  induction first with
  | nil =>
    rw [List.nil_append, List.filterMap_nil, eq_comm, List.filterMap_eq_nil_iff]
    simp
  | cons a rest ih =>
    rw [List.cons_append, List.forall_mem_cons, and_assoc]
    cases there : f a with
    | none =>
      have here : g a = none := by
        by_contra some
        have answered := within a (Option.isSome_iff_ne_none.mpr some)
        rw [there] at answered
        cases answered
      rw [List.filterMap_cons_none here, List.filterMap_cons_none there, ih, here]
      simp
    | some b =>
      rw [List.filterMap_cons_some there]
      cases here : g a with
      | none =>
        refine iff_of_false (fun same => ?_) fun same => by cases same.1
        have length := congrArg List.length same
        have less := length_filterMap_le within rest
        have more := ((List.sublist_append_left rest last).filterMap f).length_le
        rw [List.filterMap_cons_none here, List.length_cons] at length
        omega
      | some c =>
        rw [List.filterMap_cons_some here, List.cons.injEq, ih, Option.some_inj]

end FilterMap

theorem tmod_bounds (seq : ℤ) : -4 < seq.tmod 4 ∧ seq.tmod 4 < 4 :=
  ⟨Int.lt_tmod_of_pos seq (by decide), Int.tmod_lt_of_pos seq (by decide)⟩

theorem work_le_iff (lang : Language) (seq : ℤ) :
    work lang seq ≤ 4 ↔ (lang = .rust → -1 ≤ seq.tmod 4) := by
  have bounds := tmod_bounds seq
  cases lang with
  | rust =>
    simp only [work, forall_const, BitVec.toNat_ofInt]
    omega
  | cpp =>
    refine iff_of_true ?_ (by simp)
    simp only [work]
    omega
  | go =>
    refine iff_of_true ?_ (by simp)
    simp only [work]
    omega

theorem delays_le_iff (lang : Language) (source : Source UInt8) :
    (∀ delay ∈ delays lang source, delay ≤ 4) ↔
      ∀ line ∈ (lines newline source.bytes).takeWhile (takes lang), ∀ seq,
        accepted lang (trimmed lang line) = some seq → lang = .rust → -1 ≤ seq.tmod 4 := by
  rw [delays_eq]
  simp only [List.mem_map, List.mem_filterMap, forall_exists_index, and_imp]
  constructor
  · intro short line member seq read
    exact (work_le_iff lang seq).mp (short _ seq line member read rfl)
  · rintro bounded delay seq line member read rfl
    exact (work_le_iff lang seq).mpr (bounded line member seq read)

theorem right_cpp (source : Source UInt8) : Right .cpp source := by
  refine ⟨?_, ?_⟩
  · have all : (lines newline source.bytes).takeWhile (takes .cpp) =
        lines newline source.bytes := List.takeWhile_eq_self_iff.mpr fun _ _ => rfl
    rw [serveConn_eq, all]
    exact congrArg (fun f => List.filterMap f _) (funext answer_cpp)
  · rw [delays_le_iff]
    intro line _ seq _ rust
    cases rust

/-- The replies of Go and Rust are right exactly when every line they take is plain and every line
from the first that they do not take is blank. -/
theorem serveConn_wide_iff {lang : Language} (other : lang ≠ .cpp) (source : Source UInt8) :
    serveConn lang source = (lines newline source.bytes).filterMap contract ↔
      (∀ line ∈ (lines newline source.bytes).takeWhile (takes lang), Plain line) ∧
        ∀ line ∈ (lines newline source.bytes).dropWhile (takes lang), trim line = [] := by
  have same : (fun line => answer lang (trimmed lang line)) = wide := by
    cases lang with
    | cpp => exact absurd rfl other
    | rust => rfl
    | go => rfl
  have split := filterMap_eq_append_iff (f := contract) (g := wide)
    (fun _ => isSome_contract_of_wide)
    ((lines newline source.bytes).takeWhile (takes lang))
    ((lines newline source.bytes).dropWhile (takes lang))
  rw [List.takeWhile_append_dropWhile] at split
  rw [serveConn_eq, same, split]
  simp only [wide_eq_contract_iff, contract_eq_none_iff]

theorem right_go_iff (source : Source UInt8) : Right .go source ↔
    (∀ line ∈ (lines newline source.bytes).takeWhile (takes .go), Plain line) ∧
      ∀ line ∈ (lines newline source.bytes).dropWhile (takes .go), trim line = [] := by
  rw [Right, serveConn_wide_iff (by decide), delays_le_iff]
  refine and_iff_left ?_
  intro line _ seq _ rust
  cases rust

theorem valid_of_blank {line : Bytes} (blank : trim line = []) : Utf8.Valid line := by
  obtain ⟨front, back, split, left, right⟩ := trim_split line
  have ascii : ∀ b, isSpace b = true → b ≤ 0x7F := by
    intro b space
    rcases isSpace_iff.mp space with rfl | rfl | rfl | rfl <;> decide
  refine Utf8.valid_of_ascii fun b member => ?_
  rw [split, blank, List.append_nil, List.mem_append] at member
  rcases member with before | behind
  · exact ascii b (left b before)
  · exact ascii b (right b behind)

theorem right_rust_iff (source : Source UInt8) : Right .rust source ↔
    ∀ line ∈ lines newline source.bytes, Utf8.Valid line ∧ Plain line ∧
      ∀ seq, atoi (trimSpace line) = some seq → -1 ≤ seq.tmod 4 := by
  rw [Right, serveConn_wide_iff (by decide), delays_le_iff]
  constructor
  · rintro ⟨⟨plain, blank⟩, delay⟩
    have none : (lines newline source.bytes).dropWhile (takes .rust) = [] := by
      by_contra some
      have refused := List.head_dropWhile_not (takes .rust) some
      have valid := valid_of_blank (blank _ (List.head_mem some))
      rw [takes, decide_eq_false_iff_not] at refused
      exact refused valid
    have valid := List.dropWhile_eq_nil_iff.mp none
    have all := List.takeWhile_eq_self_iff.mpr valid
    rw [all] at plain delay
    intro line member
    exact ⟨of_decide_eq_true (valid line member), plain line member, fun seq read =>
      delay line member seq read rfl⟩
  · intro right
    have valid : ∀ line ∈ lines newline source.bytes, takes .rust line = true := fun line member =>
      decide_eq_true (right line member).1
    rw [List.takeWhile_eq_self_iff.mpr valid, List.dropWhile_eq_nil_iff.mpr valid]
    refine ⟨⟨fun line member => (right line member).2.1, by simp⟩, ?_⟩
    exact fun line member seq read _ => (right line member).2.2 seq read

/-- However a stream is cut for each of them, the three servers reply as they should, and soon,
exactly when the stream is sound. -/
theorem servers_right_iff {stream : Bytes} (cut : Language → Source UInt8)
    (whole : ∀ lang, (cut lang).bytes = stream) :
    (∀ lang, Right lang (cut lang)) ↔ Sound stream := by
  have go := right_go_iff (cut .go)
  have rust := right_rust_iff (cut .rust)
  rw [whole] at go rust
  constructor
  · intro right
    have ofGo := go.mp (right .go)
    have ofRust := rust.mp (right .rust)
    exact ⟨fun line member => (ofRust line member).1, fun line member => (ofRust line member).2.1,
      ofGo.2, fun line member => (ofRust line member).2.2⟩
  · intro sound lang
    cases lang with
    | cpp => exact right_cpp (cut .cpp)
    | go =>
      refine go.mpr ⟨fun line member => ?_, sound.short⟩
      exact sound.plain line (List.takeWhile_subset _ member)
    | rust =>
      exact rust.mpr fun line member =>
        ⟨sound.valid line member, sound.plain line member, sound.delay line member⟩

/-- One segment. -/
def oneSegment (stream : Bytes) (some : stream ≠ []) : Source UInt8 :=
  ⟨[stream], fun segment member => by rwa [List.mem_singleton.mp member]⟩

theorem servers_right_iff_seven :
    (∀ lang, Right lang (oneSegment (ascii "7\n") (by decide))) ↔ Sound (ascii "7\n") :=
  servers_right_iff (fun _ => oneSegment (ascii "7\n") (by decide)) fun _ => rfl

/-- The number -2: Rust takes a delay of 2^64 - 1 milliseconds. -/
theorem not_servers_right : work .rust (-2) = 2 ^ 64 - 1 ∧
    ¬ ∀ lang, Right lang (oneSegment (ascii "-2\n") (by decide)) := by
  refine ⟨by decide, fun right => ?_⟩
  have split : splitFirst? newline (ascii "-2\n") = some (ascii "-2", []) := by decide
  have only : lines newline (ascii "-2\n") = [ascii "-2"] := by
    rw [lines_of_split split, lines_nil]
  have read : integer false (trim (ascii "-2")) = some (-2) := by decide
  have wide : atoi (trimSpace (ascii "-2")) = some (-2) := by
    rw [trimSpace_of_integer read]
    decide
  have member : ascii "-2" ∈ lines newline (oneSegment (ascii "-2\n") (by decide)).bytes := by
    have bytes : (oneSegment (ascii "-2\n") (by decide)).bytes = ascii "-2\n" := rfl
    rw [bytes, only]
    exact List.mem_cons_self
  have bound := ((right_rust_iff _).mp (right .rust) _ member).2.2 _ wide
  exact absurd bound (by decide)

end LinuxSys.App
