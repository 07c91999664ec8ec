import LinuxSys.Lib.PyText

/-! # The manifest without PyYAML

`parse_manifest_subset` reads the manifest line by line. A value that starts with a bracket and ends
with one is cut at its commas. What does not look like an entry is an error in the list of examples
and ignored outside.
-/

namespace LinuxSys.Manifest

open Lib PyText

inductive Value where
  | scalar (text : Text)
  | list (items : List Text)
deriving DecidableEq, Repr

abbrev Entry := List (Text × Value)

inductive Complaint where
  | emptyValue
  | unsupported (stripped : Text)
deriving DecidableEq, Repr

structure ManifestError where
  lineno : ℕ
  complaint : Complaint
deriving DecidableEq, Repr

def keyChar (c : Char) : Bool := c.isAlphanum || c = '_' || c = '-'

def header : Text := "examples:".toList

/-- `([A-Za-z0-9_-]+):\s*(.*)$` -/
def keyValue (text : Text) : Option (Text × Text) :=
  match text.dropWhile keyChar with
  | ':' :: rest =>
    if text.takeWhile keyChar = [] then none
    else some (text.takeWhile keyChar, rest.dropWhile isSpace)
  | _ => none

/-- `kv_re` -/
def kvMatch (raw : Text) : Option (Text × Text) := keyValue (raw.dropWhile isSpace)

/-- `item_re` -/
def itemMatch (raw : Text) : Option (Text × Text) :=
  match raw.dropWhile isSpace with
  | '-' :: c :: rest => if isSpace c then keyValue (rest.dropWhile isSpace) else none
  | _ => none

def isQuote (c : Char) : Bool := c = '\'' || c = '"'

def unquote (s : Text) : Text :=
  if 2 ≤ s.length ∧ s.head? = s.getLast? ∧ s.head?.any isQuote then s.tail.dropLast else s

def parseItems (inner : Text) : List Text :=
  if inner = [] then [] else (inner.splitOn ',').map fun piece => unquote (strip piece)

def parseValue (v : Text) : Except Complaint Value :=
  let v := strip v
  if v.head? = some '[' ∧ v.getLast? = some ']' then
    .ok (.list (parseItems (strip v.tail.dropLast)))
  else if v = [] then .error .emptyValue
  else .ok (.scalar (unquote v))

/-- `entry[key] = value` -/
def assign (entry : Entry) (key : Text) (value : Value) : Entry :=
  if key ∈ entry.map Prod.fst then
    entry.map fun pair => if pair.1 = key then (key, value) else pair
  else entry ++ [(key, value)]

/-- `current` is the last of the examples, unless there is none yet in this list. -/
structure State where
  done : List Entry := []
  current : Option Entry := none
  inExamples : Bool := false
deriving DecidableEq, Repr

def State.examples (s : State) : List Entry := s.done ++ s.current.toList

/-- White space or a comment. -/
def skipped (raw : Text) : Bool := strip raw = [] || (strip raw).head? = some '#'

def unindented (raw : Text) : Bool := raw.head?.any fun c => !isSpace c

/-- The header of the list. -/
def opens (raw : Text) : Bool := strip raw = header && unindented raw

/-- Another top-level key. -/
def closes (raw : Text) : Bool :=
  unindented raw && strip raw ≠ header && !(['-', ' '].isPrefixOf (strip raw))

def State.step (s : State) (raw : Text) : Except Complaint State :=
  if skipped raw then .ok s
  else if closes raw then .ok { s with inExamples := false }
  else if opens raw then .ok ⟨s.examples, none, true⟩
  else if ¬ s.inExamples then .ok s
  else
    match itemMatch raw with
    | some (key, v) => (parseValue v).map fun value => ⟨s.examples, some [(key, value)], true⟩
    | none =>
      match kvMatch raw, s.current with
      | some (key, v), some entry =>
        (parseValue v).map fun value => { s with current := some (assign entry key value) }
      | _, _ => .error (.unsupported (strip raw))

def State.run (s : State) (lineno : ℕ) : List Text → Except ManifestError State
  | [] => .ok s
  | raw :: rest =>
    match s.step raw with
    | .ok next => next.run (lineno + 1) rest
    | .error complaint => .error ⟨lineno, complaint⟩

def parseManifestSubset (text : Text) : Except ManifestError (List Entry) :=
  (State.run {} 1 (splitlines text)).map State.examples

end LinuxSys.Manifest
