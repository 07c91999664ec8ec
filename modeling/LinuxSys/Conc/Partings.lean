import LinuxSys.Conc.Run
import Mathlib.Algebra.BigOperators.Group.Finset.Piecewise

/-! # Draws and the gaps between them

What one more draw adds to the times of the workers and to the consecutive draws that another worker
parts.
-/

namespace LinuxSys.Conc

open Lib

section Times

variable (drawers : List ℕ) (i j : ℕ)

theorem times_lt {k : ℕ} (member : k ∈ times drawers i) : k < drawers.length :=
  List.mem_range.mp (List.mem_filter.mp member).1

theorem mem_times_iff {k : ℕ} : k ∈ times drawers i ↔ drawers[k]? = some i := by
  rw [times, List.mem_filter, List.mem_range, decide_eq_true_eq]
  exact and_iff_right_of_imp fun found => (List.getElem?_eq_some_iff.mp found).1

theorem times_concat : times (drawers ++ [j]) i =
    times drawers i ++ if j = i then [drawers.length] else [] := by
  have old : (List.range drawers.length).filter (fun k => (drawers ++ [j])[k]? = some i) =
      times drawers i := by
    refine List.filter_congr fun k member => ?_
    rw [List.getElem?_append_left (List.mem_range.mp member)]
  rw [times, List.length_append, List.length_singleton, List.range_succ, List.filter_append, old]
  congr 1
  by_cases same : j = i
  · rw [if_pos same, List.filter_singleton]
    simp [same]
  · rw [if_neg same, List.filter_singleton]
    simp [same]

/-- Each draw is one of a worker. -/
theorem sum_length_times {workers : ℕ} (all : ∀ k ∈ drawers, k < workers) :
    ∑ i ∈ Finset.range workers, (times drawers i).length = drawers.length := by
  induction drawers using List.reverseRecOn with
  | nil => exact Finset.sum_eq_zero fun i _ => rfl
  | append_singleton drawers j ih =>
    have last : j ∈ Finset.range workers := Finset.mem_range.mpr (all j (by simp))
    have front : ∀ k ∈ drawers, k < workers := fun k member => all k (List.mem_append_left _ member)
    have more : ∀ i, (times (drawers ++ [j]) i).length =
        (times drawers i).length + if j = i then 1 else 0 := by
      intro i
      rw [times_concat, List.length_append]
      split_ifs <;> rfl
    simp only [more]
    rw [Finset.sum_add_distrib, ih front, Finset.sum_ite_eq, if_pos last, List.length_append]
    rfl

/-- The last draw of a worker is behind all of its others. -/
theorem le_of_getLast?_times {last k : ℕ} (found : (times drawers i).getLast? = some last)
    (member : k ∈ times drawers i) : k ≤ last := by
  have sorted : (times drawers i).Pairwise (· < ·) := List.pairwise_lt_range.filter _
  obtain ⟨front, same⟩ := List.getLast?_eq_some_iff.mp found
  rw [same] at member sorted
  rcases List.mem_append.mp member with before | here
  · exact ((List.pairwise_append.mp sorted).2.2 k before last (List.mem_singleton_self last)).le
  · exact (List.mem_singleton.mp here).le

end Times

section Partings

variable {drawers : List ℕ} {i j : ℕ}

theorem zip_tail_concat (ts : List ℕ) (n : ℕ) : (ts ++ [n]).zip (ts ++ [n]).tail =
    ts.zip ts.tail ++ ts.getLast?.toList.map fun last => (last, n) := by
  induction ts with
  | nil => rfl
  | cons a rest ih =>
    cases rest with
    | nil => rfl
    | cons b later =>
      rw [List.getLast?_cons_cons]
      exact congrArg ((a, b) :: ·) ih

/-- The draws of other workers between two draws stay what they are. -/
theorem parted_concat {pair : ℕ × ℕ} (inside : pair.2 ≤ drawers.length) :
    parted (drawers ++ [j]) i pair = parted drawers i pair := by
  rw [Bool.eq_iff_iff, parted, parted, List.any_eq_true, List.any_eq_true]
  refine exists_congr fun k => and_congr_right fun member => ?_
  rw [List.getElem?_append_left ((List.mem_range.mp member).trans_le inside)]

theorem countP_parted_concat :
    ((times drawers i).zip (times drawers i).tail).countP (parted (drawers ++ [j]) i) =
      partings drawers i := by
  refine List.countP_congr fun pair member => ?_
  have second : pair.2 ∈ times drawers i := List.mem_of_mem_tail (List.of_mem_zip member).2
  rw [parted_concat (times_lt _ _ second).le]

theorem partings_concat_of_ne (other : j ≠ i) : partings (drawers ++ [j]) i = partings drawers i := by
  rw [partings, times_concat, if_neg other, List.append_nil]
  exact countP_parted_concat

/-- Behind the last draw of a worker all draws are those of others. -/
theorem parted_last {last : ℕ} (found : (times drawers i).getLast? = some last) :
    parted drawers i (last, drawers.length) = decide (drawers.length ≠ last + 1) := by
  have inside := times_lt _ _ (List.mem_of_getLast? found)
  have next : drawers[last + 1]? ≠ some i := fun again =>
    absurd (le_of_getLast?_times _ _ found ((mem_times_iff _ _).mpr again)) (by omega)
  rw [Bool.eq_iff_iff, parted, List.any_eq_true, decide_eq_true_eq]
  constructor
  · rintro ⟨k, member, between⟩
    have bound := List.mem_range.mp member
    have behind := of_decide_eq_true (Bool.and_eq_true_iff.mp between).1
    omega
  · intro far
    exact ⟨last + 1, List.mem_range.mpr (by omega), by simp [next]⟩

/-- One more draw is parted from the last one unless it follows at once. -/
theorem partings_concat_self : partings (drawers ++ [i]) i =
    partings drawers i + (skips (times drawers i).getLast? drawers.length).toNat := by
  rw [partings, times_concat, if_pos rfl, zip_tail_concat, List.countP_append, countP_parted_concat]
  congr 1
  cases found : (times drawers i).getLast? with
  | none => rfl
  | some last =>
    rw [Option.toList_some, List.map_singleton, List.countP_singleton, parted_concat le_rfl,
      parted_last found, skips, Option.any_some]
    cases decide (drawers.length ≠ last + 1) <;> rfl

theorem sum_partings_concat {workers : ℕ} (inside : i < workers) :
    ∑ j ∈ Finset.range workers, partings (drawers ++ [i]) j =
      ∑ j ∈ Finset.range workers, partings drawers j +
        (skips (times drawers i).getLast? drawers.length).toNat := by
  have member : i ∈ Finset.range workers := Finset.mem_range.mpr inside
  have others : ∑ j ∈ (Finset.range workers).erase i, partings (drawers ++ [i]) j =
      ∑ j ∈ (Finset.range workers).erase i, partings drawers j :=
    Finset.sum_congr rfl fun j other => partings_concat_of_ne (Finset.ne_of_mem_erase other).symm
  rw [← Finset.add_sum_erase _ _ member, ← Finset.add_sum_erase _ (partings drawers) member, others,
    partings_concat_self]
  omega

end Partings

end LinuxSys.Conc
