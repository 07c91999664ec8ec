import Mathlib.Data.List.DropRight
import LinuxSys.Language
import LinuxSys.Lib.Decimal
import LinuxSys.Lib.Lines
import LinuxSys.Lib.Space

/-! # app serve: lines in, replies out

A connection of `app serve` is read line by line, with three line readers: `LineReader` over
`read(2)`, `BufReader::read_line` and `bufio.Scanner`. A line is trimmed, skipped when blank, read
as an integer and answered; an integer first costs some milliseconds. Writes succeed here: the
replies are those the client gets while it takes them.
-/

namespace LinuxSys.App

open Lib

/-- The space, tab, carriage return and newline that the C++ program trims. -/
def isSpace (c : UInt8) : Bool := c = 0x20 || c = 0x09 || c = 0x0D || c = 0x0A

def trim (s : Bytes) : Bytes := (s.dropWhile isSpace).rdropWhile isSpace

def newline : UInt8 := 0x0A

def inRange (n : ℤ) : Prop := -2 ^ 63 ≤ n ∧ n < 2 ^ 63

instance (n : ℤ) : Decidable (inRange n) := inferInstanceAs (Decidable (_ ∧ _))

def signed (negative : Bool) (digits : Bytes) : ℤ :=
  if negative then -digitsValue digits else digitsValue digits

/-- Take the sign off: a minus, and a plus where the parser allows it. -/
def sign (plus : Bool) : Bytes → Bool × Bytes
  | [] => (false, [])
  | c :: rest =>
    if c = 0x2D then (true, rest)
    else if plus ∧ c = 0x2B then (false, rest)
    else (false, c :: rest)

/-- `std::from_chars`: the number at the front and the characters behind it. -/
def fromChars (s : Bytes) : Option (ℤ × Bytes) :=
  let (negative, body) := sign false s
  if body.takeWhile isDigit = [] then none
  else if inRange (signed negative (body.takeWhile isDigit)) then
    some (signed negative (body.takeWhile isDigit), body.dropWhile isDigit)
  else none

def parseI64 (s : Bytes) : Option ℤ :=
  if s = [] then none
  else
    match fromChars s with
    | some (n, []) => some n
    | _ => none

/-- A whole text as a 64-bit integer. -/
def integer (plus : Bool) (s : Bytes) : Option ℤ :=
  let (negative, body) := sign plus s
  if body = [] ∨ ¬ body.all isDigit then none
  else if inRange (signed negative body) then some (signed negative body)
  else none

/-- `strconv.Atoi`, and `str::parse` at `i64`. -/
def atoi (s : Bytes) : Option ℤ := integer true s

/-- `strings.TrimSpace`, and `str::trim`. -/
def trimSpace (s : Bytes) : Bytes := trimWords Utf8.spaces s

def ok (seq : ℤ) : Bytes := ascii "ok " ++ decimalInt seq ++ ascii "\n"

def badRequest : Bytes := ascii "err bad-request\n"

/-- The milliseconds of simulated work: a negative sleep is none, and Rust casts to unsigned. -/
def work (lang : Language) (seq : ℤ) : ℕ :=
  match lang with
  | .rust => (BitVec.ofInt 64 (1 + seq.tmod 4)).toNat
  | _ => (1 + seq.tmod 4).toNat

def trimmed (lang : Language) (line : Bytes) : Bytes :=
  match lang with
  | .cpp => trim line
  | _ => trimSpace line

/-- The number that a trimmed line is read as. -/
def accepted (lang : Language) (text : Bytes) : Option ℤ :=
  match lang with
  | .cpp => parseI64 text
  | _ => atoi text

/-- The answer to a trimmed line. -/
def answer (lang : Language) (text : Bytes) : Option Bytes :=
  if text = [] then none
  else
    match accepted lang text with
    | some seq => some (ok seq)
    | none => some badRequest

/-- `LineReader` over `read(2)`. -/
structure CppReader where
  buf : Bytes
  source : Source UInt8

namespace CppReader

def left (r : CppReader) : Bytes := r.buf ++ r.source.bytes

def readLine (r : CppReader) : Option (Bytes × CppReader) :=
  match splitFirst? newline r.buf with
  | some (line, rest) => some (line, { r with buf := rest })
  | none =>
    if _last : (r.source.read 4096).1 = [] then
      if r.buf = [] then none else some (r.buf, ⟨[], (r.source.read 4096).2⟩)
    else readLine ⟨r.buf ++ (r.source.read 4096).1, (r.source.read 4096).2⟩
termination_by r.source.bytes.length
decreasing_by exact Source.length_bytes_read_lt _last

end CppReader

/-- `BufReader`: what has been read into its buffer and not consumed. -/
structure RustReader where
  buf : Bytes
  source : Source UInt8

namespace RustReader

def left (r : RustReader) : Bytes := r.buf ++ r.source.bytes

/-- The buffer, filled when it is empty. -/
def fillBuf (r : RustReader) : RustReader :=
  if r.buf = [] then ⟨(r.source.read 8192).1, (r.source.read 8192).2⟩ else r

theorem fillBuf_left (r : RustReader) : r.fillBuf.left = r.left := by
  rw [fillBuf]
  split
  · next empty =>
    rw [left, left, empty]
    exact r.source.read_append_bytes 8192
  · rfl

/-- Append up to and with the newline, or everything. -/
def readUntil (line : Bytes) (r : RustReader) : Bytes × RustReader :=
  match splitFirst? newline r.fillBuf.buf with
  | some (text, rest) => (line ++ (text ++ [newline]), ⟨rest, r.fillBuf.source⟩)
  | none =>
    if _last : r.fillBuf.buf = [] then (line, r.fillBuf)
    else readUntil (line ++ r.fillBuf.buf) ⟨[], r.fillBuf.source⟩
termination_by r.left.length
decreasing_by
  have whole := congrArg List.length r.fillBuf_left
  have positive := List.length_pos_of_ne_nil _last
  simp only [left, List.length_append] at whole
  simp only [left, List.length_append, List.length_nil]
  omega

/-- A line with its newline; none at the end of the stream, and where the line is no text. -/
def readLine (r : RustReader) : Option (Bytes × RustReader) :=
  if ¬ Utf8.Valid (readUntil [] r).1 then none
  else if (readUntil [] r).1 = [] then none
  else some (readUntil [] r)

end RustReader

def maxTokenSize : ℕ := 65536
def startBufSize : ℕ := 4096

/-- `bufio.Scanner`: a buffer of `size` bytes, of which those from `start` on are `pending`. -/
structure GoReader where
  size : ℕ
  start : ℕ
  pending : Bytes
  eof : Bool
  source : Source UInt8

namespace GoReader

def left (r : GoReader) : Bytes := r.pending ++ r.source.bytes

def dropCR (line : Bytes) : Bytes :=
  if line.getLast? = some 0x0D then line.dropLast else line

/-- `bufio.ScanLines`: how far to advance, and the line. -/
def scanLines (data : Bytes) (atEOF : Bool) : Option (ℕ × Bytes) :=
  match splitFirst? newline data with
  | some (line, _) => some (line.length + 1, dropCR line)
  | none => if atEOF ∧ data ≠ [] then some (data.length, dropCR data) else none

/-- Move the pending bytes to the front where the room behind them is short. -/
def shift (r : GoReader) : GoReader :=
  if 0 < r.start ∧ (r.start + r.pending.length = r.size ∨ r.start > r.size / 2) then
    { r with start := 0 }
  else r

/-- Double a full buffer. -/
def grow (r : GoReader) : GoReader :=
  { r with
    size := min (if r.size * 2 = 0 then startBufSize else r.size * 2) maxTokenSize
    start := 0 }

/-- Room to read into; none when a line is too long. -/
def makeRoom (r : GoReader) : Option GoReader :=
  if r.shift.start + r.shift.pending.length ≠ r.shift.size then some r.shift
  else if maxTokenSize ≤ r.shift.size then none
  else some r.shift.grow

/-- One read into the room. -/
def fill (r : GoReader) : GoReader :=
  let (data, source) := r.source.read (r.size - (r.start + r.pending.length))
  if data = [] then { r with eof := true, source }
  else { r with pending := r.pending ++ data, source }

/-- What is still to come, and the end of it. -/
def ahead (r : GoReader) : ℕ := r.source.bytes.length + if r.eof then 0 else 1

theorem makeRoom_same {r s : GoReader} (made : r.makeRoom = some s) :
    s.pending = r.pending ∧ s.eof = r.eof ∧ s.source = r.source := by
  have same : r.shift.pending = r.pending ∧ r.shift.eof = r.eof ∧ r.shift.source = r.source := by
    rw [shift]
    split <;> exact ⟨rfl, rfl, rfl⟩
  rw [makeRoom] at made
  split_ifs at made <;> cases made <;> exact same

theorem fill_left (r : GoReader) : r.fill.left = r.left := by
  have whole := r.source.read_append_bytes (r.size - (r.start + r.pending.length))
  simp only [fill]
  split
  · next empty =>
    rw [empty, List.nil_append] at whole
    simp only [left, whole]
  · simp only [left, List.append_assoc, whole]

theorem ahead_fill_lt {r : GoReader} (more : r.eof = false) : r.fill.ahead < r.ahead := by
  have whole := congrArg List.length
    (r.source.read_append_bytes (r.size - (r.start + r.pending.length)))
  rw [List.length_append] at whole
  simp only [fill]
  split
  · next empty =>
    simp only [ahead, more]
    simp
    omega
  · next some =>
    have less := Source.length_bytes_read_lt some
    simp only [ahead, more]
    simpa using less

def scan (r : GoReader) : Option (Bytes × GoReader) :=
  match scanLines r.pending r.eof with
  | some (advance, token) =>
    some (token, { r with start := r.start + advance, pending := r.pending.drop advance })
  | none =>
    if _over : r.eof then none
    else
      match _made : r.makeRoom with
      | none => none
      | some s => scan s.fill
termination_by r.ahead
decreasing_by
  obtain ⟨-, sameEof, sameSource⟩ := makeRoom_same _made
  have less := ahead_fill_lt (r := s) (by rw [sameEof]; simpa using _over)
  have same : s.ahead = r.ahead := by rw [ahead, ahead, sameEof, sameSource]
  exact same ▸ less

end GoReader

/-! Each reader hands back the first line of what is left to it. -/

/-- `next` is the first line of `whole`, and `rest` is what follows it. -/
def FirstLine (whole line rest : Bytes) : Prop :=
  (whole = line ++ newline :: rest ∧ newline ∉ line) ∨
    (whole = line ∧ rest = [] ∧ newline ∉ line ∧ line ≠ [])

namespace FirstLine

variable {whole line rest : Bytes}

theorem lines (first : FirstLine whole line rest) :
    Lib.lines newline whole = line :: Lib.lines newline rest := by
  rcases first with ⟨rfl, fresh⟩ | ⟨rfl, rfl, fresh, some⟩
  · exact lines_of_split (splitFirst?_append fresh rest)
  · rw [lines_nil]
    exact lines_of_not_mem fresh some

theorem length_lt (first : FirstLine whole line rest) : rest.length < whole.length := by
  rcases first with ⟨rfl, -⟩ | ⟨rfl, rfl, -, some⟩
  · simp only [List.length_append, List.length_cons]
    omega
  · exact List.length_pos_of_ne_nil some

theorem exists_of_ne_nil (some : whole ≠ []) : ∃ line rest, FirstLine whole line rest := by
  cases found : splitFirst? newline whole with
  | none => exact ⟨whole, [], .inr ⟨rfl, rfl, splitFirst?_eq_none_iff.mp found, some⟩⟩
  | some parts =>
    obtain ⟨line, rest⟩ := parts
    exact ⟨line, rest, .inl (splitFirst?_eq_some_iff.mp found)⟩

/-- A line reaches over bytes without a newline. -/
theorem length_le {front later : Bytes} (first : FirstLine (front ++ later) line rest)
    (fresh : newline ∉ front) : front.length ≤ line.length := by
  rcases first with ⟨split, -⟩ | ⟨rfl, -⟩
  · by_contra short
    have front' : (line ++ [newline]) <+: front := by
      refine List.prefix_of_prefix_length_le ⟨rest, ?_⟩ ⟨later, rfl⟩ ?_
      · rw [split, List.append_assoc, List.singleton_append]
      · rw [List.length_append, List.length_singleton]
        omega
    exact fresh (front'.subset (by simp))
  · rw [List.length_append]
    omega

end FirstLine

namespace CppReader

theorem readLine_spec (r : CppReader) :
    match r.readLine with
    | none => r.left = []
    | some (line, next) => FirstLine r.left line next.left := by
  induction r using readLine.induct with
  | case1 r line rest found =>
    obtain ⟨whole, fresh⟩ := splitFirst?_eq_some_iff.mp found
    have handed : r.readLine = some (line, { r with buf := rest }) := by
      rw [readLine]
      simp only [found]
    rw [handed]
    refine .inl ⟨?_, fresh⟩
    simp only [left, whole, List.append_assoc, List.cons_append]
  | case2 r found last empty =>
    have spent := (Source.read_eq_nil_iff (by decide) r.source).mp last
    have handed : r.readLine = none := by
      rw [readLine]
      simp only [found]
      rw [dif_pos last, if_pos empty]
    rw [handed, left, empty, spent]
    rfl
  | case3 r found last some =>
    have spent := (Source.read_eq_nil_iff (by decide) r.source).mp last
    have rest := r.source.read_append_bytes 4096
    rw [last, spent, List.nil_append] at rest
    have handed : r.readLine = Option.some (r.buf, ⟨[], (r.source.read 4096).2⟩) := by
      rw [readLine]
      simp only [found]
      rw [dif_pos last, if_neg some]
    rw [handed]
    refine .inr ⟨?_, rest, splitFirst?_eq_none_iff.mp found, some⟩
    rw [left, spent, List.append_nil]
  | case4 r found more ih =>
    have same : left ⟨r.buf ++ (r.source.read 4096).1, (r.source.read 4096).2⟩ = r.left := by
      simp only [left, List.append_assoc, Source.read_append_bytes]
    have handed : r.readLine =
        readLine ⟨r.buf ++ (r.source.read 4096).1, (r.source.read 4096).2⟩ := by
      conv_lhs => rw [readLine]
      simp only [found]
      rw [dif_neg more]
    rw [handed, ← same]
    exact ih

end CppReader

namespace RustReader

theorem fillBuf_eq_nil_iff (r : RustReader) : r.fillBuf.buf = [] ↔ r.left = [] := by
  rw [fillBuf, left]
  split
  · next empty =>
    rw [empty, List.nil_append]
    exact Source.read_eq_nil_iff (by decide) r.source
  · next some => simp [some]

/-- `read_until` appends the first line, with its newline where it has one. -/
theorem readUntil_spec (line : Bytes) (r : RustReader) :
    (r.left = [] ∧ (readUntil line r).1 = line ∧ (readUntil line r).2.left = []) ∨ ∃ text,
      FirstLine r.left text (readUntil line r).2.left ∧
        ((readUntil line r).1 = line ++ (text ++ [newline]) ∨
          (readUntil line r).1 = line ++ text ∧ text ≠ []) := by
  induction line, r using readUntil.induct with
  | case1 line r text rest found =>
    have read : readUntil line r = (line ++ (text ++ [newline]), ⟨rest, r.fillBuf.source⟩) := by
      rw [readUntil]
      simp only [found]
    obtain ⟨whole, fresh⟩ := splitFirst?_eq_some_iff.mp found
    refine .inr ⟨text, .inl ⟨?_, fresh⟩, .inl (by rw [read])⟩
    rw [read, ← r.fillBuf_left, left, whole]
    simp only [left, List.append_assoc, List.cons_append]
  | case2 line r found last =>
    have read : readUntil line r = (line, r.fillBuf) := by
      rw [readUntil]
      simp only [found]
      rw [dif_pos last]
    have spent := r.fillBuf_eq_nil_iff.mp last
    refine .inl ⟨spent, by rw [read], ?_⟩
    rw [read]
    exact r.fillBuf_left.trans spent
  | case3 line r found more ih =>
    have read : readUntil line r = readUntil (line ++ r.fillBuf.buf) ⟨[], r.fillBuf.source⟩ := by
      conv_lhs => rw [readUntil]
      simp only [found]
      rw [dif_neg more]
    have whole : r.left = r.fillBuf.buf ++ left ⟨[], r.fillBuf.source⟩ := r.fillBuf_left.symm
    have fresh := splitFirst?_eq_none_iff.mp found
    rw [← read] at ih
    right
    rcases ih with ⟨spent, same, last⟩ | ⟨text, first, same⟩
    · refine ⟨r.fillBuf.buf, .inr ⟨?_, last, fresh, more⟩, .inr ⟨same, more⟩⟩
      rw [whole, spent, List.append_nil]
    · refine ⟨r.fillBuf.buf ++ text, ?_, ?_⟩
      · rw [whole]
        rcases first with ⟨split, clear⟩ | ⟨split, last, clear, some⟩
        · refine .inl ⟨?_, ?_⟩
          · rw [split, List.append_assoc]
          · simp [fresh, clear]
        · refine .inr ⟨by rw [split], last, ?_, ?_⟩
          · simp [fresh, clear]
          · simp [some]
      · rcases same with ended | ⟨same, some⟩
        · exact .inl (by simpa only [List.append_assoc] using ended)
        · exact .inr ⟨by simpa only [List.append_assoc] using same, by simp [some]⟩

theorem readLine_spec (r : RustReader) :
    match r.readLine with
    | none => r.left = [] ∨ ∃ line rest, FirstLine r.left line rest ∧ ¬ Utf8.Valid line
    | some (line, next) => ∃ text, FirstLine r.left text next.left ∧ Utf8.Valid text ∧
        (line = text ++ [newline] ∨ line = text) := by
  have valid (text : Bytes) : Utf8.Valid (text ++ [newline]) ↔ Utf8.Valid text := by
    rw [Utf8.valid_append_cons_iff (by decide)]
    exact and_iff_left Utf8.valid_nil
  rw [readLine]
  rcases readUntil_spec [] r with ⟨spent, same, -⟩ | ⟨text, first, same⟩
  · rw [same]
    rw [if_neg (not_not_intro Utf8.valid_nil), if_pos rfl]
    exact .inl spent
  · rw [List.nil_append, List.nil_append] at same
    by_cases whole : Utf8.Valid (readUntil [] r).1
    · have some : (readUntil [] r).1 ≠ [] := by
        rcases same with ended | ⟨same, some⟩
        · rw [ended]
          simp
        · rwa [same]
      rw [if_neg (not_not_intro whole), if_neg some]
      refine ⟨text, first, ?_, same.imp_right And.left⟩
      rcases same with ended | ⟨same, -⟩
      · rwa [ended, valid] at whole
      · rwa [same] at whole
    · rw [if_pos whole]
      refine .inr ⟨text, _, first, fun right => whole ?_⟩
      rcases same with ended | ⟨same, -⟩
      · rwa [ended, valid]
      · rwa [same]

end RustReader

namespace GoReader

/-- The buffer holds the pending bytes, and at the end of the stream it is not full. -/
structure Inv (r : GoReader) : Prop where
  inside : r.start + r.pending.length ≤ r.size
  size : r.size ≤ maxTokenSize
  spent : r.eof = true → r.source.bytes = [] ∧ r.pending.length < maxTokenSize

def init (source : Source UInt8) : GoReader := ⟨0, 0, [], false, source⟩

theorem Inv.init (source : Source UInt8) : (init source).Inv :=
  ⟨le_rfl, Nat.zero_le _, fun spent => by cases spent⟩

theorem scanLines_of_some {data token : Bytes} {atEOF : Bool} {advance : ℕ}
    (found : scanLines data atEOF = some (advance, token)) : ∃ line, token = dropCR line ∧
      advance ≤ data.length ∧ newline ∉ line ∧ (data = line ++ newline :: data.drop advance ∨
        atEOF = true ∧ data = line ∧ data.drop advance = [] ∧ line ≠ []) := by
  rw [scanLines] at found
  split at found
  · next line rest split =>
    cases found
    obtain ⟨rfl, fresh⟩ := splitFirst?_eq_some_iff.mp split
    refine ⟨line, rfl, ?_, fresh, .inl ?_⟩
    · simp only [List.length_append, List.length_cons]
      omega
    · have behind : (line ++ newline :: rest).drop (line.length + 1) = rest := by
        simp [List.drop_append]
      rw [behind]
  · next absent =>
    split_ifs at found with last
    cases found
    exact ⟨data, rfl, le_rfl, splitFirst?_eq_none_iff.mp absent,
      .inr ⟨last.1, rfl, List.drop_length, last.2⟩⟩

theorem scanLines_of_none {data : Bytes} {atEOF : Bool} (found : scanLines data atEOF = none) :
    newline ∉ data ∧ (atEOF = true → data = []) := by
  rw [scanLines] at found
  split at found
  · cases found
  · next absent =>
    split_ifs at found with last
    refine ⟨splitFirst?_eq_none_iff.mp absent, fun spent => ?_⟩
    by_contra some
    exact last ⟨spent, some⟩

/-- There is room unless the pending bytes fill the largest buffer. -/
theorem Inv.makeRoom {r : GoReader} (inv : r.Inv) :
    (r.makeRoom = none ∧ r.pending.length = maxTokenSize) ∨ ∃ s, r.makeRoom = some s ∧
      s.start + s.pending.length < s.size ∧ s.size ≤ maxTokenSize := by
  have inside := inv.inside
  have size := inv.size
  have moved : r.shift.pending = r.pending ∧ r.shift.size = r.size ∧
      r.shift.start + r.shift.pending.length ≤ r.shift.size ∧
      (r.shift.start + r.shift.pending.length = r.shift.size → r.shift.start = 0) := by
    rw [shift]
    split
    · exact ⟨rfl, rfl, by simp only; omega, fun _ => rfl⟩
    · next still => exact ⟨rfl, rfl, inside, fun full => by omega⟩
  obtain ⟨samePending, sameSize, within, front⟩ := moved
  rw [samePending, sameSize] at within front
  rw [GoReader.makeRoom, samePending, sameSize]
  split_ifs with room long
  · refine .inr ⟨r.shift, rfl, ?_, ?_⟩
    · rw [samePending, sameSize]
      omega
    · rw [sameSize]
      exact size
  · have zero := front (by omega)
    exact .inl ⟨rfl, by omega⟩
  · have zero := front (by omega)
    have large : startBufSize = 4096 ∧ maxTokenSize = 65536 := ⟨rfl, rfl⟩
    refine .inr ⟨r.shift.grow, rfl, ?_, min_le_right _ _⟩
    simp only [grow, samePending, sameSize]
    split <;> omega

theorem Inv.fill {r : GoReader} (inside : r.start + r.pending.length < r.size)
    (size : r.size ≤ maxTokenSize) (more : r.eof = false) : r.fill.Inv := by
  have short := Source.length_read_le (r.size - (r.start + r.pending.length)) r.source
  rw [GoReader.fill]
  simp only
  split
  · next empty =>
    have whole := r.source.read_append_bytes (r.size - (r.start + r.pending.length))
    have spent := (Source.read_eq_nil_iff (by omega) r.source).mp empty
    rw [empty, spent, List.nil_append] at whole
    exact ⟨inside.le, size, fun _ => ⟨whole, by simp only; omega⟩⟩
  · refine ⟨?_, size, fun spent => ?_⟩
    · simp only [List.length_append]
      omega
    · simp only [more] at spent
      cases spent

theorem scan_of_token {r : GoReader} {advance : ℕ} {token : Bytes}
    (found : scanLines r.pending r.eof = some (advance, token)) :
    r.scan = some (token, { r with
      start := r.start + advance, pending := r.pending.drop advance }) := by
  rw [scan]
  simp only [found]

theorem scan_of_spent {r : GoReader} (found : scanLines r.pending r.eof = none)
    (spent : r.eof = true) : r.scan = none := by
  rw [scan]
  simp only [found]
  rw [dif_pos spent]

theorem scan_of_full {r : GoReader} (found : scanLines r.pending r.eof = none)
    (more : ¬ r.eof = true) (made : r.makeRoom = none) : r.scan = none := by
  rw [scan]
  simp only [found]
  rw [dif_neg more]
  split
  · rfl
  · next other =>
    rw [made] at other
    cases other

theorem scan_of_room {r s : GoReader} (found : scanLines r.pending r.eof = none)
    (more : ¬ r.eof = true) (made : r.makeRoom = some s) : r.scan = s.fill.scan := by
  conv_lhs => rw [scan]
  simp only [found]
  rw [dif_neg more]
  split
  · next other =>
    rw [made] at other
    cases other
  · next other =>
    rw [made] at other
    cases other
    rfl

theorem left_of_room {r s : GoReader} (made : r.makeRoom = some s) : s.fill.left = r.left := by
  obtain ⟨samePending, -, sameSource⟩ := makeRoom_same made
  rw [fill_left, left, left, samePending, sameSource]

/-- A scan that hands back a token leaves less. -/
theorem scan_shrinks {r next : GoReader} {token : Bytes} (handed : r.scan = some (token, next)) :
    next.left.length < r.left.length := by
  induction r using scan.induct with
  | case1 r advance token found =>
    rw [scan_of_token found] at handed
    cases handed
    obtain ⟨line, -, -, -, split | ⟨-, same, none, some⟩⟩ := scanLines_of_some found
    · have length := congrArg List.length split
      simp only [left, List.length_append, List.length_cons] at length ⊢
      omega
    · have positive := List.length_pos_of_ne_nil some
      rw [← same] at positive
      simp only [left, none, List.length_append, List.length_nil]
      omega
  | case2 r found spent =>
    rw [scan_of_spent found spent] at handed
    cases handed
  | case3 r found more made =>
    rw [scan_of_full found more made] at handed
    cases handed
  | case4 r found more s made ih =>
    rw [scan_of_room found more made] at handed
    rw [← left_of_room made]
    exact ih handed

/-- A scan hands back the first line when it is shorter than the largest buffer. -/
theorem scan_spec {r : GoReader} (inv : r.Inv) :
    match r.scan with
    | none => r.left = [] ∨ ∃ line rest, FirstLine r.left line rest ∧ maxTokenSize ≤ line.length
    | some (token, next) => next.Inv ∧ ∃ line, FirstLine r.left line next.left ∧
        line.length < maxTokenSize ∧ token = dropCR line := by
  have inside := inv.inside
  have size := inv.size
  induction r using scan.induct with
  | case1 r advance token found =>
    obtain ⟨line, rfl, bound, fresh, place⟩ := scanLines_of_some found
    rw [scan_of_token found]
    refine ⟨⟨?_, size, fun spent => ?_⟩, line, ?_, ?_, rfl⟩
    · simp only [List.length_drop]
      omega
    · obtain ⟨last, short⟩ := inv.spent spent
      refine ⟨last, lt_of_le_of_lt ?_ short⟩
      simp only [List.length_drop]
      omega
    · simp only [left]
      rcases place with split | ⟨spent, same, none, some⟩
      · refine .inl ⟨?_, fresh⟩
        conv_lhs => rw [split]
        rw [List.append_assoc, List.cons_append]
      · rw [(inv.spent spent).1, none, same, List.append_nil]
        exact .inr ⟨rfl, rfl, fresh, some⟩
    · rcases place with split | ⟨spent, same, -⟩
      · have length := congrArg List.length split
        simp only [List.length_append, List.length_cons] at length
        omega
      · rw [← same]
        exact (inv.spent spent).2
  | case2 r found spent =>
    have none := (scanLines_of_none found).2 spent
    rw [scan_of_spent found spent, left, none, (inv.spent spent).1]
    exact .inl rfl
  | case3 r found more made =>
    have long : r.pending.length = maxTokenSize := by
      rcases inv.makeRoom with ⟨-, long⟩ | ⟨s, other, -⟩
      · exact long
      · rw [made] at other
        cases other
    have some : r.left ≠ [] := by
      intro none
      rw [(List.append_eq_nil_iff.mp none).1] at long
      cases long
    obtain ⟨line, rest, first⟩ := FirstLine.exists_of_ne_nil some
    have reach := first.length_le (scanLines_of_none found).1
    rw [scan_of_full found more made]
    exact .inr ⟨line, rest, first, by omega⟩
  | case4 r found more s made ih =>
    rcases inv.makeRoom with ⟨other, -⟩ | ⟨t, other, room, bound⟩
    · rw [made] at other
      cases other
    · rw [made] at other
      cases other
      have next := Inv.fill room bound (by rw [(makeRoom_same made).2.1]; simpa using more)
      rw [scan_of_room found more made, ← left_of_room made]
      exact ih next next.inside next.size

end GoReader

/-- The three line readers on a connection. -/
def cppLines : LineReader CppReader UInt8 where
  next := CppReader.readLine
  left := CppReader.left
  shrinks := by
    intro r line next handed
    have spec := r.readLine_spec
    rw [handed] at spec
    exact spec.length_lt

def rustLines : LineReader RustReader UInt8 where
  next := RustReader.readLine
  left := RustReader.left
  shrinks := by
    intro r line next handed
    have spec := r.readLine_spec
    rw [handed] at spec
    obtain ⟨text, first, -⟩ := spec
    exact first.length_lt

def goLines : LineReader GoReader UInt8 where
  next := GoReader.scan
  left := GoReader.left
  shrinks := GoReader.scan_shrinks

/-- The lines that the loop of `serve_conn` handles. -/
def handled (lang : Language) (source : Source UInt8) : List Bytes :=
  match lang with
  | .cpp => cppLines.collect ⟨[], source⟩
  | .rust => rustLines.collect ⟨[], source⟩
  | .go => goLines.collect (.init source)

/-- The replies of a connection, in order. -/
def serveConn (lang : Language) (source : Source UInt8) : List Bytes :=
  (handled lang source).filterMap fun line => answer lang (trimmed lang line)

/-- The delays of a connection, in order. -/
def delays (lang : Language) (source : Source UInt8) : List ℕ :=
  ((handled lang source).filterMap fun line => accepted lang (trimmed lang line)).map (work lang)

end LinuxSys.App
