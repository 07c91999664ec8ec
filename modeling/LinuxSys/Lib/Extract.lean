import LinuxSys.Lib.Numeral

/-! # Formatted input from a C++ stream

An extraction skips white space and takes the longest text that its scanner can use. A stream that
has ended or failed gives nothing more. A read that fails behind the text fails the stream, where
the end of the text only ends it.
-/

namespace LinuxSys.Lib

/-- What a scanner makes of a text that starts with no white space: a value, whether it is the one
that is written there, and what is left. -/
abbrev Scanner (α : Type) := Bytes → (α × Bool) × Bytes

structure InStream where
  rest : Bytes
  broken : Bool := false
  ended : Bool := false
  failed : Bool := false
deriving DecidableEq, Repr

namespace InStream

/-- `isspace` in the C locale. -/
def isSpace (b : UInt8) : Bool := b = 0x20 || (0x09 ≤ b && b ≤ 0x0D)

/-- `>>`; a variable that nothing is stored in keeps its value. -/
def extract {α : Type} (scan : Scanner α) (old : α) (s : InStream) : α × InStream :=
  if s.ended ∨ s.failed then (old, { s with failed := true })
  else
    let text := s.rest.dropWhile isSpace
    if text = [] then (old, { s with rest := [], ended := !s.broken, failed := true })
    else
      let ((v, ok), rest) := scan text
      if rest = [] ∧ s.broken then (old, { s with rest := [], failed := true })
      else (v, { s with rest := rest, ended := rest = [], failed := !ok })

def wordScanner : Scanner Bytes := fun text =>
  ((text.takeWhile fun b => !isSpace b, true), text.dropWhile fun b => !isSpace b)

/-- A 64-bit integer in front of a text. What is too large is stored as the bound it exceeds. -/
def intScanner : Scanner ℤ := fun text =>
  let (negative, body) := IntParser.parse64.sign text
  let digits := body.takeWhile isDigit
  let n := IntParser.value negative digits
  let read :=
    if digits = [] then (0, false)
    else if n < -2 ^ 63 then (-2 ^ 63, false)
    else if 2 ^ 63 - 1 < n then (2 ^ 63 - 1, false)
    else (n, true)
  (read, body.dropWhile isDigit)

/-- The characters of a double: whether there was a digit, a point, an exponent. -/
def doubleRun (digit point exponent : Bool) : Bytes → Bytes × Bytes
  | [] => ([], [])
  | b :: rest =>
    if isDigit b then
      let (run, left) := doubleRun true point exponent rest
      (b :: run, left)
    else if b = 0x2E ∧ ¬ point ∧ ¬ exponent then
      let (run, left) := doubleRun digit true exponent rest
      (b :: run, left)
    else if (b = 0x65 ∨ b = 0x45) ∧ ¬ exponent ∧ digit then
      match rest with
      | sign :: later =>
        if sign = 0x2B ∨ sign = 0x2D then
          let (run, left) := doubleRun digit point true later
          (b :: sign :: run, left)
        else
          let (run, left) := doubleRun digit point true (sign :: later)
          (b :: run, left)
      | [] => ([b], [])
    else ([], b :: rest)

/-- `strtod` is given what the stream collects. -/
def doubleScanner {F : Type} (zero : F) (strtod : Bytes → Option F) : Scanner F := fun text =>
  let (run, left) :=
    match text with
    | sign :: rest =>
      if sign = 0x2B ∨ sign = 0x2D then
        let (run, left) := doubleRun false false false rest
        (sign :: run, left)
      else doubleRun false false false text
    | [] => ([], [])
  match strtod run with
  | some v => ((v, true), left)
  | none => ((zero, false), left)

def word : StateM InStream Bytes := extract wordScanner []

def int : StateM InStream ℤ := extract intScanner 0

def double {F : Type} (zero : F) (strtod : Bytes → Option F) : StateM InStream F :=
  extract (doubleScanner zero strtod) zero

/-- A stream over a string. -/
def ofText (text : Bytes) : InStream := { rest := text }

def firstWord (text : Bytes) : Bytes := (text.dropWhile isSpace).takeWhile fun b => !isSpace b

theorem word_ofText (text : Bytes) : (word.run (ofText text)).1 = firstWord text := by
  change (extract wordScanner [] (ofText text)).1 = firstWord text
  unfold extract firstWord ofText
  rw [if_neg (by simp)]
  simp only
  split
  · next none => rw [none, List.takeWhile_nil]
  · rw [if_neg (by simp)]
    rfl

/-- `stoll`; what it cannot read it throws at. -/
def stoll (text : Bytes) : Option ℤ :=
  match intScanner (text.dropWhile isSpace) with
  | ((n, true), _) => some n
  | _ => none

end InStream

end LinuxSys.Lib
