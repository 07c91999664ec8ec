import Mathlib.Data.List.Basic
import Mathlib.Logic.Function.Basic

/-! # A file behind a write-back cache

What is written to a file goes to a cache, and from there to the disk when the kernel likes: item by
item, in any order, with the size of the file apart. A crash loses the cache. While the file only
grows, a prefix that has once been synced stays on the disk.
-/

namespace LinuxSys.Lib

structure WriteBack (α : Type*) where
  /-- The file as readers and writers see it. -/
  cached : List α
  disk : ℕ → α
  /-- The size of the file on the disk. -/
  size : ℕ

namespace WriteBack

variable {α : Type*} (f : WriteBack α)

def truncate : WriteBack α := { f with cached := [] }

def append (items : List α) : WriteBack α := { f with cached := f.cached ++ items }

/-- The kernel writes the item at a position to the disk. -/
def flush (i : ℕ) : WriteBack α :=
  match f.cached[i]? with
  | some item => { f with disk := Function.update f.disk i item }
  | none => f

/-- The size on the disk follows that of the file: up, and down where the file was truncated. -/
def resize (n : ℕ) : WriteBack α :=
  if n ≤ f.cached.length ∧ (f.size ≤ n ∨ f.cached.length < f.size) then { f with size := n } else f

/-- All items and the size are on the disk. -/
def sync : WriteBack α :=
  { f with
    disk := fun i => f.cached.getD i (f.disk i)
    size := f.cached.length }

/-- What is in the file after a crash. -/
def recovered : List α := (List.range f.size).map f.disk

/-- The first `k` items have been synced. -/
structure Durable (k : ℕ) : Prop where
  there : k ≤ f.cached.length
  size : k ≤ f.size
  settled : 0 < k → f.size ≤ f.cached.length
  disk : ∀ i < k, f.cached[i]? = some (f.disk i)

@[simp] theorem cached_flush (i : ℕ) : (f.flush i).cached = f.cached := by
  rw [flush]
  cases f.cached[i]? <;> rfl

@[simp] theorem size_flush (i : ℕ) : (f.flush i).size = f.size := by
  rw [flush]
  cases f.cached[i]? <;> rfl

@[simp] theorem cached_resize (n : ℕ) : (f.resize n).cached = f.cached := by
  rw [resize]
  split_ifs <;> rfl

theorem size_resize (n : ℕ) (fits : f.size ≤ f.cached.length) :
    (f.resize n).size ≤ f.cached.length := by
  rw [resize]
  split_ifs with allowed
  · exact allowed.1
  · exact fits

variable {f} {k : ℕ}

theorem durable_zero : f.Durable 0 :=
  ⟨Nat.zero_le _, Nat.zero_le _, fun some => absurd some (Nat.lt_irrefl 0), fun i below =>
    absurd below (Nat.not_lt_zero i)⟩

namespace Durable

variable (durable : f.Durable k)

include durable

theorem append (items : List α) : (f.append items).Durable k := by
  have longer : f.cached.length ≤ (f.append items).cached.length := by
    simp [WriteBack.append]
  refine ⟨Nat.le_trans durable.there longer, durable.size,
    fun some => Nat.le_trans (durable.settled some) longer, fun i below => ?_⟩
  have inside : i < f.cached.length := Nat.lt_of_lt_of_le below durable.there
  exact (List.getElem?_append_left inside).trans (durable.disk i below)

theorem flush (i : ℕ) : (f.flush i).Durable k := by
  rw [WriteBack.flush]
  cases item : f.cached[i]? with
  | none => exact durable
  | some x =>
    refine ⟨durable.there, durable.size, durable.settled, fun j below => ?_⟩
    by_cases same : j = i
    · subst same
      simpa using item
    · simpa [Function.update_of_ne same] using durable.disk j below

theorem resize (n : ℕ) : (f.resize n).Durable k := by
  rw [WriteBack.resize]
  split_ifs with allowed
  · have there := durable.there
    have size := durable.size
    have settled := durable.settled
    exact ⟨there, show k ≤ n by omega, fun _ => allowed.1, durable.disk⟩
  · exact durable

theorem recovered_take : f.recovered.take k = f.cached.take k := by
  refine List.ext_getElem? fun i => ?_
  rcases Nat.lt_or_ge i k with below | beyond
  · have inside : i < f.size := Nat.lt_of_lt_of_le below durable.size
    rw [List.getElem?_take_of_lt below, List.getElem?_take_of_lt below, durable.disk i below,
      recovered, List.getElem?_map, List.getElem?_range inside, Option.map_some]
  · rw [List.getElem?_take_eq_none beyond, List.getElem?_take_eq_none beyond]

end Durable

theorem durable_sync (f : WriteBack α) : f.sync.Durable f.cached.length := by
  refine ⟨Nat.le_refl _, Nat.le_refl _, fun _ => Nat.le_refl _, fun i below => ?_⟩
  simp [sync, List.getElem?_eq_getElem below]

/-- Where everything has been synced, a crash loses nothing. -/
theorem recovered_of_durable (durable : f.Durable f.cached.length)
    (size : f.size ≤ f.cached.length) : f.recovered = f.cached := by
  have short : f.recovered.length ≤ f.cached.length := by simpa [recovered] using size
  have same := durable.recovered_take
  rwa [List.take_of_length_le short, List.take_length] at same

end WriteBack

end LinuxSys.Lib
