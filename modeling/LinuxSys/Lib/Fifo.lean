import Mathlib.Data.List.Basic
import Mathlib.Data.Nat.Notation

/-! # A FIFO and its ends

What a FIFO holds lasts as long as one of its ends is open: a writer may put something in only while
a reader is there, readers that come later get what earlier ones have left, and all of it is gone
once the last end is closed.
-/

namespace LinuxSys.Lib

structure Fifo (α : Type*) where
  content : List α := []
  readers : ℕ := 0
  writer : Bool := false
deriving DecidableEq, Repr

namespace Fifo

variable {α : Type*} {f g : Fifo α} {n : ℕ} {items : List α}

/-- Without an open end the content is freed. -/
def settle (f : Fifo α) : Fifo α :=
  if f.readers = 0 ∧ f.writer = false then { f with content := [] } else f

def attach (f : Fifo α) : Fifo α := { f with readers := f.readers + 1 }

def detach (f : Fifo α) : Fifo α := settle { f with readers := f.readers - 1 }

def openWriter (f : Fifo α) : Fifo α := { f with writer := true }

def closeWriter (f : Fifo α) : Fifo α := settle { f with writer := false }

/-- Something is put in where a reader is there and it fits. -/
def put? (capacity : ℕ) (f : Fifo α) (items : List α) : Option (Fifo α) :=
  if items ≠ [] ∧ 0 < f.readers ∧ f.content.length + items.length ≤ capacity then
    some { f with content := f.content ++ items }
  else none

def take? (f : Fifo α) (n : ℕ) : Option (List α × Fifo α) :=
  if 0 < f.readers ∧ n ≤ f.content.length then
    some (f.content.take n, { f with content := f.content.drop n })
  else none

theorem put?_eq_some {capacity : ℕ} (put : f.put? capacity items = some g) :
    items ≠ [] ∧ 0 < f.readers ∧ f.content.length + items.length ≤ capacity ∧
      g = { f with content := f.content ++ items } := by
  obtain ⟨⟨some', reader, fits⟩, same⟩ := Option.ite_none_right_eq_some.mp put
  exact ⟨some', reader, fits, (Option.some.inj same).symm⟩

theorem take?_eq_some (taken : f.take? n = some (items, g)) :
    f.content = items ++ g.content ∧ g.readers = f.readers ∧ g.writer = f.writer := by
  obtain ⟨-, same⟩ := Option.ite_none_right_eq_some.mp taken
  obtain ⟨rfl, rfl⟩ := Prod.mk.inj (Option.some.inj same)
  exact ⟨(List.take_append_drop n f.content).symm, rfl, rfl⟩

theorem settle_writer (f : Fifo α) : f.settle.writer = f.writer := by
  rw [settle]
  split <;> rfl

/-- Closing an end loses nothing where another is open or the FIFO is empty. -/
theorem settle_content (kept : f.readers = 0 → f.writer = false → f.content = []) :
    f.settle.content = f.content := by
  rw [settle]
  split
  · next closed => exact (kept closed.1 closed.2).symm
  · rfl

/-- What is left is all or nothing. -/
theorem settle_content_or (f : Fifo α) : f.settle.content = f.content ∨ f.settle.content = [] := by
  rw [settle]
  split
  · exact .inr rfl
  · exact .inl rfl

end Fifo

end LinuxSys.Lib
