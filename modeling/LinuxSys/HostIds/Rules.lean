import LinuxSys.Lib.Regex

/-! # The rules of `host_ids.py`

A rule has a pattern and what its matches become. The generic rules find identifiers of any
machine; the others are literals, this machine's own values. Texts are sequences of characters, and
the classes of characters that a Python pattern may name are taken from the Unicode tables.
-/

namespace LinuxSys.HostIds

open Lib

abbrev Text := List Char

/-- The tables: `\d`, `\w`, `\s`, equality under `IGNORECASE`, `str.lower`. -/
structure Unicode where
  isDecimal : Char → Bool
  isWord : Char → Bool
  isSpace : Char → Bool
  sameCase : Char → Char → Bool
  lower : Text → Text

/-- What they say of ASCII characters. -/
def ascii : Unicode where
  isDecimal c := c.isDigit
  isWord c := c.isAlphanum || c == '_'
  isSpace c := c.isWhitespace || c == '\x0B' || c == '\x0C' ||
    decide (0x1C ≤ c.toNat ∧ c.toNat ≤ 0x1F)
  sameCase c d := c.toLower == d.toLower
  lower text := text.map Char.toLower

inductive Category where
  | cpuModel
  | productName
  | kernelBuild
  | kernelVersion
  | bootUuid
  | homePath
  | extra
  | machineId
  | mac
  | hostname
  | account
deriving DecidableEq, Repr

def Category.name : Category → String
  | cpuModel => "cpu-model"
  | productName => "product-name"
  | kernelBuild => "kernel-build"
  | kernelVersion => "kernel-version"
  | bootUuid => "boot-uuid"
  | homePath => "home-path"
  | extra => "extra"
  | machineId => "machine-id"
  | mac => "mac"
  | hostname => "hostname"
  | account => "account"

/-- A part of a `re.sub` template. -/
inductive Part where
  | text (t : Text)
  | group (n : ℕ)

structure Rule where
  category : Category
  pattern : Regex Char
  replacement : List Part
  literal : Text := []

section Patterns

def seqs (parts : List (Regex Char)) : Regex Char := parts.foldr .seq .empty

def alts : List (Regex Char) → Regex Char
  | [] => .set fun _ => false
  | [r] => r
  | r :: rest => .alt r (alts rest)

/-- `re.escape`, where `same` compares two characters. -/
def escape (same : Char → Char → Bool) (value : Text) : Regex Char :=
  seqs (value.map fun c => .set (same c))

def str (text : String) : Regex Char := escape (· == ·) text.toList

def oneOf (texts : List String) : Regex Char := alts (texts.map str)

def chars (text : String) (c : Char) : Bool := text.toList.contains c

def range (first last c : Char) : Bool := decide (first ≤ c ∧ c ≤ last)

def opt (r : Regex Char) : Regex Char := .rep false 0 (some 1) r

def plus (r : Regex Char) : Regex Char := .rep false 1 none r

def star (r : Regex Char) : Regex Char := .rep false 0 none r

def between (least most : ℕ) (r : Regex Char) : Regex Char :=
  .rep false least (some (most - least)) r

def exactly (n : ℕ) (r : Regex Char) : Regex Char := .rep false n (some 0) r

def upper : Regex Char := .set (range 'A' 'Z')

variable (u : Unicode)

def digit : Regex Char := .set u.isDecimal

def wordChar : Regex Char := .set u.isWord

def wordEdge : Regex Char := .boundary u.isWord

/-- `\d+\.\d+` -/
def version : Regex Char := seqs [plus (digit u), str ".", plus (digit u)]

/-- `(?<![\w.-])` -/
def noVersionBefore : Regex Char := .behind false 1 (.set fun c => u.isWord c || chars ".-" c)

/-- `\.\d+-\d+(?:\.\w+)*?\.(?:fc|el)\d+(?:_\d+)?` -/
def distRelease : Regex Char :=
  seqs [str ".", plus (digit u), str "-", plus (digit u),
    .rep true 0 none (.seq (str ".") (plus (wordChar u))), str ".", oneOf ["fc", "el"],
    plus (digit u), opt (.seq (str "_") (plus (digit u)))]

def kernelBuild : Regex Char :=
  .alt
    (seqs [.behind false 7 (str "kernel-"), noVersionBefore u, .group 1 (version u), distRelease u,
      str ".", oneOf ["x86_64", "aarch64"], .ahead false (str ".rpm"), wordEdge u])
    (seqs [noVersionBefore u, .group 2 (version u), str ".", plus (digit u), str "-",
      plus (digit u), str "-",
      oneOf ["generic", "lowlatency", "amd64", "arm64", "cloud-amd64"], wordEdge u])

end Patterns

end LinuxSys.HostIds
