import LinuxSys.HostIds.Rules

/-! # Literal Liquid in prose

`validate.py` looks for `{{` and `{%` in the lines of a page that are neither in a fenced block nor
in a raw region. `annotate_body` guards a line as a whole, where a region begins and ends within a
line. It looks for one end of a region in a line only, so a line that ends a region and opens the
next one leaves it with the wrong idea of what follows.
-/

namespace LinuxSys.Validate

open Lib HostIds

variable (u : Unicode)

section Patterns

def space : Regex Char := .set u.isSpace

/-- `{%-?\s*` -/
def tagStart : List (Regex Char) := [str "\x7b%", opt (str "-"), star (space u)]

/-- `\s*-?%}` -/
def tagEnd : List (Regex Char) := [star (space u), opt (str "-"), str "%\x7d"]

def rawOpen : Regex Char := seqs (tagStart u ++ str "raw" :: tagEnd u)

def rawClose : Regex Char := seqs (tagStart u ++ str "endraw" :: tagEnd u)

/-- Three or more backticks or tildes behind white space. -/
def fence : Regex Char :=
  seqs [.group 1 (star (space u)),
    .group 2 (alts [.rep false 3 none (str "`"), .rep false 3 none (str "~")])]

def tagAllowed : Regex Char :=
  seqs (tagStart u ++ [.group 1 (oneOf ["include", "assign", "raw", "endraw"]), wordEdge u])

/-- `{{-?\s*(site|page|part|include)\.` -/
def varAllowed : Regex Char :=
  seqs [str "\x7b\x7b", opt (str "-"), star (space u),
    .group 1 (oneOf ["site", "page", "part", "include"]), str "."]

def token : Regex Char := .alt (str "\x7b\x7b") (str "\x7b%")

end Patterns

/-! `annotate_body`. -/

/-- The character and the length of a fence that a line starts with. -/
def fenceMark (line : Text) : Option (Char × ℕ) :=
  (Regex.matchAt (fence u) line 0).bind fun last =>
    let mark := (last.groups.lookup 2).getD []
    mark.head?.map fun c => (c, mark.length)

def closes (mark : Char × ℕ) (line : Text) : Bool :=
  (fenceMark u line).any fun other => other.1 = mark.1 && mark.2 ≤ other.2

structure Scan where
  fence : Option (Char × ℕ) := none
  inRaw : Bool := false
deriving DecidableEq, Repr

structure Note where
  guarded : Bool := false
  fenceOpen : Bool := false
deriving DecidableEq, Repr

def annotateLine (s : Scan) (line : Text) : Scan × Note :=
  match s.fence with
  | some mark =>
    ({ s with fence := if closes u mark line then none else some mark }, { guarded := true })
  | none =>
    if s.inRaw then
      ({ s with inRaw := (Regex.find (rawClose u) line).isNone }, { guarded := true })
    else
      match Regex.find (rawOpen u) line with
      | some m =>
        ({ s with inRaw := (Regex.find (rawClose u) (line.drop m.stop)).isNone },
          { guarded := true })
      | none =>
        match fenceMark u line with
        | some mark => ({ s with fence := some mark }, { guarded := true, fenceOpen := true })
        | none => (s, {})

def annotateFrom : Scan → List Text → List Note
  | _, [] => []
  | s, line :: rest => (annotateLine u s line).2 :: annotateFrom (annotateLine u s line).1 rest

/-- The lines before `start` are the front matter. -/
def annotateBody (lines : List Text) (start : ℕ) : List Note :=
  List.replicate start ({} : Note) ++ annotateFrom u {} (lines.drop start)

/-! `check_liquid`. -/

structure Finding where
  line : ℕ
  tok : Text
deriving DecidableEq, Repr

def Finding.message (f : Finding) : Text :=
  "line ".toList ++ (toString f.line).toList ++ ": unguarded literal '".toList ++ f.tok ++
    "' — fence it, \x7b% raw %\x7d-guard it, or use an allowed form".toList

/-- `str.find` from a place on. -/
def findFrom (needle hay : Text) (pos : ℕ) : Option ℕ :=
  (List.range' pos (hay.length + 1 - pos)).find? fun k => needle.isPrefixOf (hay.drop k)

def contains (needle hay : Text) : Bool := hay.tails.any needle.isPrefixOf

def allowed (line : Text) (m : Regex.Match Char) : Bool :=
  if m.text = "\x7b%".toList then (Regex.matchAt (tagAllowed u) line m.start).isSome
  else
    (Regex.matchAt (varAllowed u) line m.start).isSome ||
      (findFrom "\x7d\x7d".toList line m.stop).any fun last =>
        contains "| relative_url".toList ((line.take last).drop m.start)

/-- The literals of the line with this index. -/
def lineFindings (i : ℕ) (line : Text) : List Finding :=
  (Regex.finditer token line).filterMap fun m =>
    if allowed u line m then none else some ⟨i + 1, m.text⟩

def checkLiquid (lines : List Text) (start : ℕ) (notes : List Note) : List Finding :=
  (List.range' start (lines.length - start)).flatMap fun i =>
    if (notes.getD i {}).guarded then [] else lineFindings u i (lines.getD i [])

/-- What is flagged in the line with this index. -/
def reported (lines : List Text) (start i : ℕ) : List Finding :=
  (checkLiquid u lines start (annotateBody u lines start)).filter fun f => f.line = i + 1

/-! The regions. -/

/-- Where a line begins: in prose, in a fenced block or in a raw region. -/
inductive Zone where
  | prose
  | fenced (mark : Char × ℕ)
  | raw
deriving DecidableEq, Repr

/-- Which characters of a line are in raw regions, whether one is open at its end, and whether one
has ended in it. -/
structure Regions where
  inside : List Bool
  raw : Bool
  ended : Bool
deriving DecidableEq, Repr

/-- What begins a region, and in a region what ends it. -/
def delimiter (raw : Bool) : Regex Char := if raw then rawClose u else rawOpen u

theorem consumes_delimiter (raw : Bool) : Regex.Consumes (delimiter u raw) := by
  have brace : Regex.Consumes (str "\x7b%") := (Regex.consumes_set _).seq _
  cases raw with
  | false => exact brace.seq _
  | true => exact brace.seq _

/-- A region goes from an opener to the first closer behind it, both included. -/
def regions (raw : Bool) (line : Text) : Regions :=
  match _found : Regex.find (delimiter u raw) line with
  | none => ⟨line.map fun _ => raw, raw, false⟩
  | some m =>
    let rest := regions (!raw) (line.drop m.stop)
    ⟨List.replicate m.start raw ++ List.replicate m.text.length true ++ rest.inside, rest.raw,
      raw || rest.ended⟩
termination_by line.length
decreasing_by
  obtain ⟨some, above, below⟩ := Regex.within_of_find (consumes_delimiter u raw) _found
  have positive := List.length_pos_of_ne_nil some
  rw [List.length_drop]
  omega

def Zone.next (zone : Zone) (line : Text) : Zone :=
  let after (raw : Bool) : Zone := if (regions u raw line).raw then .raw else .prose
  match zone with
  | .fenced mark => if closes u mark line then .prose else .fenced mark
  | .raw => after true
  | .prose =>
    match fenceMark u line with
    | some mark => .fenced mark
    | none => after false

/-- Which characters of a line are in a region. -/
def Zone.inside (zone : Zone) (line : Text) : List Bool :=
  match zone with
  | .fenced _ => line.map fun _ => true
  | .raw => (regions u true line).inside
  | .prose =>
    if (fenceMark u line).isSome then line.map fun _ => true else (regions u false line).inside

/-- No region is open behind one that ends in the line, and no raw region opens in the line that
opens a fenced block. -/
def Regular (zone : Zone) (line : Text) : Prop :=
  match zone with
  | .fenced _ => True
  | .raw => (regions u true line).ended → (regions u true line).raw = false
  | .prose =>
    ((regions u false line).ended → (regions u false line).raw = false) ∧
      ((fenceMark u line).isSome → Regex.find (rawOpen u) line = none)

variable {u : Unicode} {line : Text}

/-- What `annotate_body` remembers of a place. -/
def Zone.scan : Zone → Scan
  | .prose => {}
  | .fenced mark => { fence := some mark }
  | .raw => { inRaw := true }

def literal : Text := "\x7b\x7b foo".toList

end LinuxSys.Validate
