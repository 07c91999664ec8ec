import Mathlib.Data.List.Basic
import Mathlib.Logic.Function.Basic

/-! # Files behind names

Names lead to files by number, and several may lead to one. A file is written through its number,
and all its names see it.
-/

namespace LinuxSys.Lib

/-- A new file gets a number that no name leads to. -/
structure Inodes (Path Item : Type*) where
  dir : Path → Option ℕ
  data : ℕ → List Item
  next : ℕ
  fresh : ∀ p i, dir p = some i → i < next

namespace Inodes

variable {Path Item : Type*} (fs : Inodes Path Item)

def contents (p : Path) : Option (List Item) := (fs.dir p).map fs.data

def setData (i : ℕ) (items : List Item) : Inodes Path Item :=
  { fs with data := Function.update fs.data i items }

/-- What a read at an offset can give. -/
def readAt (i off n : ℕ) : List Item := ((fs.data i).drop off).take n

def writeAt (i off : ℕ) (items : List Item) : Inodes Path Item :=
  fs.setData i ((fs.data i).take off ++ items ++ (fs.data i).drop (off + items.length))

/-- The file of a name, created or truncated, and its number. -/
def openTrunc [DecidableEq Path] (p : Path) : Inodes Path Item × ℕ :=
  match fs.dir p with
  | some i => (fs.setData i [], i)
  | none =>
    ({ dir := Function.update fs.dir p (some fs.next)
       data := Function.update fs.data fs.next []
       next := fs.next + 1
       fresh := by
        intro q i leads
        by_cases same : q = p
        · subst same
          rw [Function.update_self] at leads
          exact Option.some.inj leads ▸ Nat.lt_succ_self _
        · rw [Function.update_of_ne same] at leads
          exact Nat.lt_succ_of_lt (fs.fresh q i leads) }, fs.next)

variable {fs} {p q : Path} {i : ℕ}

/-- A name that does not lead to the file keeps what it has. -/
theorem contents_eq_of_data {other : Inodes Path Item} (dir : other.dir q = fs.dir q)
    (data : ∀ i, fs.dir q = some i → other.data i = fs.data i) :
    other.contents q = fs.contents q := by
  rw [contents, contents, dir]
  cases leads : fs.dir q with
  | none => rfl
  | some i => exact congrArg some (data i leads)

/-- Writing at the end of a file appends. -/
theorem data_writeAt_length {items : List Item} {off : ℕ} (atEnd : (fs.data i).length = off) :
    (fs.writeAt i off items).data i = fs.data i ++ items := by
  have rest : (fs.data i).drop (off + items.length) = [] :=
    List.drop_eq_nil_iff.mpr (by omega)
  rw [writeAt, setData, rest, List.append_nil, List.take_of_length_le (Nat.le_of_eq atEnd)]
  exact Function.update_self ..

variable [DecidableEq Path]

theorem data_openTrunc_self : (fs.openTrunc p).1.data (fs.openTrunc p).2 = [] := by
  rw [openTrunc]
  cases fs.dir p <;> exact Function.update_self ..

theorem data_openTrunc_of_ne (other : i ≠ (fs.openTrunc p).2) :
    (fs.openTrunc p).1.data i = fs.data i := by
  rw [openTrunc] at other ⊢
  cases here : fs.dir p with
  | some j =>
    rw [here] at other
    exact Function.update_of_ne other ..
  | none =>
    rw [here] at other
    exact Function.update_of_ne other ..

theorem dir_openTrunc_self : (fs.openTrunc p).1.dir p = some (fs.openTrunc p).2 := by
  rw [openTrunc]
  cases here : fs.dir p with
  | some j => exact here
  | none => exact Function.update_self ..

theorem dir_openTrunc_of_ne (other : q ≠ p) : (fs.openTrunc p).1.dir q = fs.dir q := by
  rw [openTrunc]
  cases fs.dir p with
  | some j => rfl
  | none => exact Function.update_of_ne other ..

/-- The names that lead to the opened file are those that led there before. -/
theorem leads_iff (fs : Inodes Path Item) (p q : Path) :
    fs.dir q = some (fs.openTrunc p).2 ↔ fs.dir q ≠ none ∧ fs.dir q = fs.dir p := by
  rw [openTrunc]
  cases here : fs.dir p with
  | some j =>
    refine ⟨fun leads => ⟨?_, leads⟩, fun leads => leads.2⟩
    rw [leads]
    exact Option.some_ne_none j
  | none =>
    refine ⟨fun leads => ?_, fun leads => absurd leads.2 leads.1⟩
    exact absurd (fs.fresh q _ leads) (Nat.lt_irrefl _)

end Inodes

end LinuxSys.Lib
