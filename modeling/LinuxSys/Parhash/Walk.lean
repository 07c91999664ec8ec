import Mathlib.Data.List.Perm.Basic
import LinuxSys.Language
import LinuxSys.Lib.Utf8

/-! # The walks of parhash

A directory is read entry by entry, and the three programs walk it each in their own way: C++ with
an iterator that is at its end after an error, Rust by recursion over names made into text, Go with
`WalkDir`, which takes the names of a directory in order and does not follow a root that is a link.
The tree does not change while it is walked.
-/

namespace LinuxSys.Parhash

open Lib

/-- The entries of a directory in the order in which they are read; `denied` is a directory that
cannot be opened, `other` what is no regular file and no directory. -/
inductive Tree where
  | nil
  | file (name : Bytes) (rest : Tree)
  | other (name : Bytes) (rest : Tree)
  | denied (name : Bytes) (rest : Tree)
  | dir (name : Bytes) (inside rest : Tree)
deriving DecidableEq, Repr

/-- The directory that the argument names: whether the argument itself is a link to it, its entries
if it can be opened, and what a file holds that can be opened and read at a path below it. -/
structure Root where
  link : Bool := false
  entries : Option Tree
  content : Bytes → Option Bytes

/-- What a walk meets; a file has its path below the root. -/
inductive Visit where
  | file (rel : Bytes)
  | other
  | denied
deriving DecidableEq, Repr

def slash : UInt8 := 47

def Visit.under (name : Bytes) : Visit → Visit
  | .file rel => .file (name ++ slash :: rel)
  | v => v

def Visit.file? : Visit → Option Bytes
  | .file rel => some rel
  | _ => none

/-- The regular files of a walk. -/
def filesOf (visits : List Visit) : List Bytes := visits.filterMap Visit.file?

namespace Tree

/-- A directory comes before what is in it. -/
def visits : Tree → List Visit
  | nil => []
  | file name rest => .file name :: rest.visits
  | other _ rest => .other :: rest.visits
  | denied _ rest => .denied :: rest.visits
  | dir name inside rest => .other :: (inside.visits.map (Visit.under name) ++ rest.visits)

def inOrder (blocks : List (Bytes × List Visit)) : List Visit :=
  (blocks.mergeSort fun one other => decide (one.1 ≤ other.1)).flatMap Prod.snd

/-- What `WalkDir` meets at each entry; it reports a directory before it reads it. -/
def blocks : Tree → List (Bytes × List Visit)
  | nil => []
  | file name rest => (name, [.file name]) :: rest.blocks
  | other name rest => (name, [.other]) :: rest.blocks
  | denied name rest => (name, [.other, .denied]) :: rest.blocks
  | dir name inside rest =>
    (name, .other :: (inOrder inside.blocks).map (Visit.under name)) :: rest.blocks

end Tree

/-- `increment(ec)` cannot open a directory: the iterator is at its end. -/
def untilDenied : List Visit → List Visit
  | [] => []
  | .denied :: _ => [.denied]
  | v :: rest => v :: untilDenied rest

/-- `to_string_lossy` of the path. -/
def Visit.lossy : Visit → Visit
  | .file rel => .file (Utf8.lossy rel)
  | v => v

namespace Root

def visits (r : Root) : List Visit := (r.entries.map Tree.visits).getD []

def walk (r : Root) : Language → List Visit
  | .cpp => untilDenied r.visits
  | .rust => r.visits.map Visit.lossy
  | .go =>
    .other ::
      if r.link then []
      else match r.entries with
        | some t => Tree.inOrder t.blocks
        | none => [.denied]

end Root

end LinuxSys.Parhash
