import LinuxSys.Manifest.Parse

/-! # The documented subset

Full-line comments, blank lines, one key `examples:` with a list of entries, other top-level keys
with what is under them. An entry has one key to a line, all of them in one column, and its values
are plain or quoted scalars of one line or flow lists of these.
-/

namespace LinuxSys.Manifest

open Lib PyText

def OneLine (text : Text) : Prop := ∀ c ∈ text, isLineBreak c = false

/-- Blanks and tabs. -/
def Pad (text : Text) : Prop := ∀ c ∈ text, c = ' ' ∨ c = '\t'

/-- Characters that a plain scalar does not start with. -/
def indicators : Text := "-?:,[]{}#&*!|>'\"%@\x60".toList

def flowMarks : Text := ",[]{}".toList

/-- A plain scalar of one line; in a flow list it has none of the list's marks. -/
structure Plain (flow : Bool) (text : Text) : Prop where
  full : text ≠ []
  trimmed : Trimmed text
  oneLine : OneLine text
  first : ∀ c rest, text = c :: rest → c ∉ indicators ∨
    c ∈ "-?:".toList ∧ ∃ d later, rest = d :: later ∧ isSpace d = false
  colon : ∀ front back, text = front ++ ':' :: back → ∃ c later, back = c :: later ∧ isSpace c = false
  comment : ∀ front back c, text = front ++ c :: '#' :: back → isSpace c = false
  marks : flow = true → ∀ c ∈ text, c ∉ flowMarks

/-- What stands between two quotes. Escapes are not documented. -/
structure Quoted (mark : Char) (text : Text) : Prop where
  quote : isQuote mark
  inside : mark ∉ text
  escape : mark = '"' → '\\' ∉ text
  oneLine : OneLine text

inductive Scalar where
  | plain (text : Text)
  | quoted (mark : Char) (text : Text)
deriving DecidableEq, Repr

namespace Scalar

def text : Scalar → Text
  | .plain text => text
  | .quoted _ text => text

def render : Scalar → Text
  | .plain text => text
  | .quoted mark text => mark :: (text ++ [mark])

def Sound (flow : Bool) : Scalar → Prop
  | .plain text => Plain flow text
  | .quoted mark text => Quoted mark text

end Scalar

/-- An item of a flow list between what is left blank. -/
structure Item where
  before : Text := []
  scalar : Scalar
  after : Text := []
deriving DecidableEq, Repr

structure Item.Sound (i : Item) : Prop where
  before : Pad i.before
  scalar : i.scalar.Sound true
  after : Pad i.after

def Item.render (i : Item) : Text := i.before ++ i.scalar.render ++ i.after

/-- A value as it is written. -/
inductive Written where
  | scalar (s : Scalar)
  | nothing (pad : Text)
  | list (items : List Item)
deriving DecidableEq, Repr

namespace Written

def value : Written → Value
  | .scalar s => .scalar s.text
  | .nothing _ => .list []
  | .list items => .list (items.map fun i => i.scalar.text)

def render : Written → Text
  | .scalar s => s.render
  | .nothing pad => '[' :: (pad ++ [']'])
  | .list items => '[' :: ([','].intercalate (items.map Item.render) ++ [']'])

def Sound : Written → Prop
  | .scalar s => s.Sound false
  | .nothing pad => Pad pad
  | .list items => items ≠ [] ∧ ∀ i ∈ items, i.Sound

/-- No item has a comma between its quotes. -/
def NoCommas : Written → Prop
  | .list items => ∀ i ∈ items, ',' ∉ i.scalar.text
  | _ => True

end Written

/-- One line of an entry: `key: value`. -/
structure Pair where
  key : Text
  gap : Text := []
  value : Written
  pad : Text := []
deriving DecidableEq, Repr

structure Pair.Sound (p : Pair) : Prop where
  full : p.key ≠ []
  key : ∀ c ∈ p.key, keyChar c
  gap : Pad p.gap
  value : p.value.Sound
  pad : Pad p.pad

def Pair.render (p : Pair) : Text := p.key ++ ':' :: ' ' :: (p.gap ++ p.value.render ++ p.pad)

inductive Line where
  | blank (pad : Text)
  | comment (pad text : Text)
  | other (key rest : Text)
  | content (text : Text)
  | examples (pad : Text)
  | item (indent gap : ℕ) (pair : Pair)
  | further (indent : ℕ) (pair : Pair)
deriving DecidableEq, Repr

namespace Line

def render : Line → Text
  | .blank pad => pad
  | .comment pad text => pad ++ '#' :: text
  | .other key rest => key ++ ':' :: rest
  | .content text => text
  | .examples pad => header ++ pad
  | .item indent gap pair =>
    List.replicate indent ' ' ++ '-' :: (List.replicate (gap + 1) ' ' ++ pair.render)
  | .further indent pair => List.replicate indent ' ' ++ pair.render

def Sound : Line → Prop
  | .blank pad => Pad pad
  | .comment pad text => Pad pad ∧ OneLine text
  | .other key rest => key ≠ [] ∧ (∀ c ∈ key, keyChar c) ∧ key ≠ "examples".toList ∧ OneLine rest ∧
      (rest = [] ∨ ∃ later, rest = ' ' :: later)
  | .content text => OneLine text ∧ ((∃ rest, text = ' ' :: rest) ∨ ∃ rest, text = '-' :: ' ' :: rest)
  | .examples pad => Pad pad
  | .item _ _ pair => pair.Sound
  | .further _ pair => pair.Sound

def pair? : Line → Option Pair
  | .item _ _ pair => some pair
  | .further _ pair => some pair
  | _ => none

end Line

/-- Where a line stands: at the top, before or behind the list and perhaps under another key; in the
list; in an entry, whose item has an indent and whose keys have a column. -/
inductive Place where
  | top
  | under (listed : Bool)
  | list
  | entry (indent column : ℕ) (keys : List Text)

namespace Place

def listed : Place → Bool
  | .top => false
  | .under listed => listed
  | .list => true
  | .entry _ _ _ => true

def next : Place → Line → Option Place
  | p, .blank _ => some p
  | p, .comment _ _ => some p
  | p, .other _ _ => some (.under p.listed)
  | .under listed, .content _ => some (.under listed)
  | .top, .examples _ => some .list
  | .under false, .examples _ => some .list
  | .list, .item indent gap pair => some (.entry indent (indent + gap + 2) [pair.key])
  | .entry here _ _, .item indent gap pair =>
    if indent = here then some (.entry indent (indent + gap + 2) [pair.key]) else none
  | .entry here column keys, .further indent pair =>
    if indent = column ∧ pair.key ∉ keys then some (.entry here column (pair.key :: keys)) else none
  | _, _ => none

end Place

def Regular (p : Place) : List Line → Prop
  | [] => True
  | line :: rest => line.Sound ∧ ∃ q, p.next line = some q ∧ Regular q rest

/-- The text is a document of these lines. -/
structure Document (text : Text) (all : List Line) : Prop where
  lines : splitlines text = all.map Line.render
  regular : Regular .top all

section Entries

variable (read : Written → Value)

/-- The lines of an entry behind its item. -/
def furthers : List Line → Entry
  | .further _ pair :: rest => (pair.key, read pair.value) :: furthers rest
  | .blank _ :: rest => furthers rest
  | .comment _ _ :: rest => furthers rest
  | _ => []

/-- The entries that are written. -/
def entries : List Line → List Entry
  | [] => []
  | .item _ _ pair :: rest => ((pair.key, read pair.value) :: furthers read rest) :: entries rest
  | _ :: rest => entries rest

end Entries

end LinuxSys.Manifest
