import Mathlib.Data.List.Induction
import Mathlib.Data.List.Perm.Subperm
import Mathlib.Data.Int.Order.Basic
import LinuxSys.Language

/-! # The correction of benchlab for coordinated omission

A slow call keeps a closed loop from making the calls that a caller at a fixed rate would have made
meanwhile. For each sample longer than the expected interval `co_correct` adds what those calls
would have taken, up to a cap on the length of the list. The three programs test the cap in
different places. No difference of a sample and the interval overflows, for it is only taken when
both are positive.
-/

namespace LinuxSys.Benchlab

/-- The inner loop in C++. -/
def backfillCpp (interval : ℤ) (cap : ℕ) (missing : ℤ) (out : List ℤ) : List ℤ :=
  if interval ≤ missing ∧ out.length < cap then
    backfillCpp interval cap (missing - interval) (out ++ [missing])
  else out
termination_by cap - out.length
decreasing_by
  rw [List.length_append, List.length_singleton]
  omega

/-- The inner loop in Rust and Go, and whether it leaves the outer one. -/
def backfill (interval : ℤ) (cap : ℕ) (missing : ℤ) (out : List ℤ) : List ℤ × Bool :=
  if interval ≤ missing then
    if cap ≤ out.length then (out, true)
    else backfill interval cap (missing - interval) (out ++ [missing])
  else (out, false)
termination_by cap - out.length
decreasing_by
  rw [List.length_append, List.length_singleton]
  omega

def fill (lang : Language) (interval : ℤ) (cap : ℕ) (missing : ℤ) (out : List ℤ) :
    List ℤ × Bool :=
  match lang with
  | .cpp =>
    let filled := backfillCpp interval cap missing out
    (filled, cap ≤ filled.length)
  | .rust | .go => backfill interval cap missing out

/-- The loop over the samples. -/
def correctFrom (lang : Language) (interval : ℤ) (cap : ℕ) : List ℤ → List ℤ → List ℤ
  | out, [] => out
  | out, v :: rest =>
    if interval ≤ 0 ∨ v ≤ interval then correctFrom lang interval cap (out ++ [v]) rest
    else
      match fill lang interval cap (v - interval) (out ++ [v]) with
      | (filled, true) => filled
      | (filled, false) => correctFrom lang interval cap filled rest

def coCorrect (lang : Language) (raw : List ℤ) (interval : ℤ) (cap : ℕ) : List ℤ :=
  correctFrom lang interval cap [] raw

/-! What the correction is for. -/

def Stalls (interval v : ℤ) : Prop := 0 < interval ∧ interval < v

instance (interval v : ℤ) : Decidable (Stalls interval v) := inferInstanceAs (Decidable (_ ∧ _))

/-- From `top` down by the interval to the last value that is no shorter than it. -/
def rungs (interval top : ℤ) : List ℤ :=
  (List.range (top / interval).toNat).map fun (k : ℕ) => top - k * interval

/-- What the calls held up by a sample would have taken. -/
def missed (interval v : ℤ) : List ℤ :=
  if Stalls interval v then rungs interval (v - interval) else []

def expansion (interval : ℤ) (raw : List ℤ) : List ℤ := raw.flatMap fun v => v :: missed interval v

structure Right (raw : List ℤ) (interval : ℤ) (cap : ℕ) : Prop where
  keeps : ∀ lang, raw.Subperm (coCorrect lang raw interval cap)
  fits : (expansion interval raw).length ≤ cap →
    ∀ lang, coCorrect lang raw interval cap = expansion interval raw
  same : ∀ one other, coCorrect one raw interval cap = coCorrect other raw interval cap

/-- The samples are `front`, then `v`, at which the cap is reached by a stall for the first time,
then `rest`. -/
structure Fills (interval : ℤ) (cap : ℕ) (raw front : List ℤ) (v : ℤ) (rest : List ℤ) : Prop where
  split : raw = front ++ v :: rest
  stalls : Stalls interval v
  full : cap ≤ (expansion interval (front ++ [v])).length
  first : ∀ before w after, front = before ++ w :: after → Stalls interval w →
    (expansion interval (before ++ [w])).length < cap

/-- The cap cuts the values added for `v` short, and the samples behind happen to be among the
values added so far. -/
structure Repeats (interval : ℤ) (cap : ℕ) (front : List ℤ) (v : ℤ) (rest : List ℤ) : Prop where
  some : missed interval v ≠ []
  short : cap < (expansion interval (front ++ [v])).length
  again : rest.Subperm (front.flatMap (missed interval) ++
    (missed interval v).take (cap - ((expansion interval front).length + 1)))

/-! One sample. -/

section

variable {interval top v : ℤ} {cap : ℕ}

theorem rungs_of_lt (low : top < interval) (least : 0 ≤ top) : rungs interval top = [] := by
  rw [rungs, Int.ediv_eq_zero_of_lt least low]
  rfl

theorem rungs_of_le (positive : 0 < interval) (high : interval ≤ top) :
    rungs interval top = top :: rungs interval (top - interval) := by
  have count : (top / interval).toNat = ((top - interval) / interval).toNat + 1 := by
    have one : top / interval = (top - interval) / interval + 1 := by
      rw [← Int.add_mul_ediv_right _ _ (ne_of_gt positive)]
      congr 1
      omega
    have least : 0 ≤ (top - interval) / interval :=
      Int.ediv_nonneg (by omega) (le_of_lt positive)
    omega
  rw [rungs, count, List.range_succ_eq_map, List.map_cons, List.map_map]
  congr 1
  · simp
  · apply List.map_congr_left
    intro k _
    change top - ((k + 1 : ℕ) : ℤ) * interval = top - interval - k * interval
    rw [Int.natCast_add, Int.add_mul, Int.natCast_one, Int.one_mul]
    omega

theorem backfillCpp_eq (positive : 0 < interval) (least : 0 ≤ top) (out : List ℤ) :
    backfillCpp interval cap top out = out ++ (rungs interval top).take (cap - out.length) := by
  induction top, out using backfillCpp.induct interval cap with
  | case1 top out more ih =>
    obtain ⟨high, room⟩ := more
    have next := ih (by omega)
    have left : cap - out.length = cap - (out ++ [top]).length + 1 := by
      rw [List.length_append, List.length_singleton]
      omega
    rw [backfillCpp, if_pos ⟨high, room⟩, next, rungs_of_le positive high, left,
      List.take_succ_cons, List.append_assoc, List.singleton_append]
  | case2 top out done =>
    rw [backfillCpp, if_neg done]
    by_cases low : top < interval
    · rw [rungs_of_lt low least, List.take_nil, List.append_nil]
    · have none : cap - out.length = 0 := by omega
      rw [none, List.take_zero, List.append_nil]

theorem backfill_eq (positive : 0 < interval) (least : 0 ≤ top) (out : List ℤ) :
    backfill interval cap top out = (out ++ (rungs interval top).take (cap - out.length),
      decide (rungs interval top ≠ [] ∧ cap < out.length + (rungs interval top).length)) := by
  induction top, out using backfill.induct interval cap with
  | case1 top out high full =>
    have none : cap - out.length = 0 := by omega
    rw [backfill, if_pos high, if_pos full, none, rungs_of_le positive high]
    have longer : cap < out.length + ((rungs interval (top - interval)).length + 1) := by omega
    simpa using longer
  | case2 top out high room ih =>
    have next := ih (by omega)
    have left : cap - out.length = cap - (out ++ [top]).length + 1 := by
      rw [List.length_append, List.length_singleton]
      omega
    rw [backfill, if_pos high, if_neg room, next, rungs_of_le positive high, left,
      List.take_succ_cons, List.append_assoc, List.singleton_append]
    congr 1
    rw [decide_eq_decide, List.length_append, List.length_singleton, List.length_cons]
    constructor
    · rintro ⟨-, longer⟩
      exact ⟨List.cons_ne_nil _ _, by omega⟩
    · rintro ⟨-, longer⟩
      refine ⟨fun none => ?_, by omega⟩
      rw [none, List.length_nil] at longer
      omega
  | case3 top out low =>
    rw [backfill, if_neg low, rungs_of_lt (by omega) least]
    simp

end

/-! One turn of the loop over the samples. -/

section

variable {lang : Language} {interval v : ℤ} {cap : ℕ}

/-- Whether the loop ends with the sample. -/
def Stops (lang : Language) (interval : ℤ) (cap : ℕ) (v : ℤ) (out : List ℤ) : Prop :=
  match lang with
  | .cpp => Stalls interval v ∧ cap ≤ out.length + 1 + (missed interval v).length
  | .rust | .go => missed interval v ≠ [] ∧ cap < out.length + 1 + (missed interval v).length

instance (out : List ℤ) : Decidable (Stops lang interval cap v out) := by
  cases lang <;> exact inferInstanceAs (Decidable (_ ∧ _))

theorem stalls_of_missed (some : missed interval v ≠ []) : Stalls interval v := by
  by_contra calm
  exact some (if_neg calm)

theorem Stops.stalls {out : List ℤ} (stops : Stops lang interval cap v out) :
    Stalls interval v := by
  cases lang with
  | cpp => exact stops.1
  | rust => exact stalls_of_missed stops.1
  | go => exact stalls_of_missed stops.1

theorem Stops.full {out : List ℤ} (stops : Stops lang interval cap v out) :
    cap ≤ out.length + 1 + (missed interval v).length := by
  cases lang with
  | cpp => exact stops.2
  | rust => exact Nat.le_of_lt stops.2
  | go => exact Nat.le_of_lt stops.2

theorem fill_eq (stalls : Stalls interval v) (out : List ℤ) :
    fill lang interval cap (v - interval) (out ++ [v]) =
      (out ++ v :: (missed interval v).take (cap - (out.length + 1)),
        decide (Stops lang interval cap v out)) := by
  obtain ⟨positive, longer⟩ := stalls
  have least : 0 ≤ v - interval := by omega
  have added : missed interval v = rungs interval (v - interval) := if_pos ⟨positive, longer⟩
  have count : (out ++ [v]).length = out.length + 1 := by
    rw [List.length_append, List.length_singleton]
  have shape (more : List ℤ) : out ++ [v] ++ more = out ++ v :: more := by
    rw [List.append_assoc, List.singleton_append]
  rw [added]
  cases lang with
  | cpp =>
    rw [fill, backfillCpp_eq positive least, count, shape]
    congr 1
    rw [decide_eq_decide, Stops, added, List.length_append, List.length_cons, List.length_take]
    constructor
    · intro full
      exact ⟨⟨positive, longer⟩, by omega⟩
    · rintro ⟨-, full⟩
      omega
  | rust =>
    rw [fill, backfill_eq positive least, count, shape]
    congr 1
    rw [decide_eq_decide, Stops, added]
  | go =>
    rw [fill, backfill_eq positive least, count, shape]
    congr 1
    rw [decide_eq_decide, Stops, added]

theorem correctFrom_cons (out rest : List ℤ) : correctFrom lang interval cap out (v :: rest) =
    if Stops lang interval cap v out then
      out ++ v :: (missed interval v).take (cap - (out.length + 1))
    else correctFrom lang interval cap (out ++ v :: missed interval v) rest := by
  by_cases stalls : Stalls interval v
  · have turn : ¬ (interval ≤ 0 ∨ v ≤ interval) := by
      obtain ⟨positive, longer⟩ := stalls
      omega
    rw [correctFrom, if_neg turn, fill_eq stalls]
    by_cases stops : Stops lang interval cap v out
    · rw [if_pos stops, decide_eq_true stops]
    · have whole : (missed interval v).take (cap - (out.length + 1)) = missed interval v := by
        apply List.take_of_length_le
        cases lang with
        | cpp =>
          have room : ¬ cap ≤ out.length + 1 + (missed interval v).length :=
            fun full => stops ⟨stalls, full⟩
          omega
        | rust | go =>
          by_cases none : missed interval v = []
          · rw [none]
            exact Nat.zero_le _
          · have room : ¬ cap < out.length + 1 + (missed interval v).length :=
              fun short => stops ⟨none, short⟩
            omega
      rw [if_neg stops, decide_eq_false stops, whole]
  · have turn : interval ≤ 0 ∨ v ≤ interval := by
      by_contra other
      exact stalls ⟨by omega, by omega⟩
    have none : missed interval v = [] := if_neg stalls
    rw [correctFrom, if_pos turn, if_neg fun stops => stalls stops.stalls, none]

/-- What is in the list stays at its front. -/
theorem prefix_correctFrom (out rest : List ℤ) : out <+: correctFrom lang interval cap out rest := by
  induction rest generalizing out with
  | nil => exact List.prefix_rfl
  | cons v rest ih =>
    rw [correctFrom_cons]
    split
    · exact List.prefix_append _ _
    · exact (List.prefix_append _ _).trans (ih _)

end

/-! All samples. -/

section

variable {lang : Language} {interval v : ℤ} {cap : ℕ} {raw front rest : List ℤ}

theorem expansion_append (front rest : List ℤ) :
    expansion interval (front ++ rest) = expansion interval front ++ expansion interval rest :=
  List.flatMap_append

theorem expansion_concat (front : List ℤ) (v : ℤ) :
    expansion interval (front ++ [v]) = expansion interval front ++ v :: missed interval v := by
  rw [expansion_append, expansion, expansion, List.flatMap_singleton]

theorem length_expansion_concat (front : List ℤ) (v : ℤ) :
    (expansion interval (front ++ [v])).length =
      (expansion interval front).length + 1 + (missed interval v).length := by
  rw [expansion_concat, List.length_append, List.length_cons]
  omega

/-- Every stall leaves room under the cap. -/
def Roomy (interval : ℤ) (cap : ℕ) (raw : List ℤ) : Prop :=
  ∀ before w after, raw = before ++ w :: after → Stalls interval w →
    (expansion interval (before ++ [w])).length < cap

/-- Up to where the cap is reached the list is the expansion. -/
theorem coCorrect_of_roomy (roomy : Roomy interval cap front) (rest : List ℤ) :
    coCorrect lang (front ++ rest) interval cap =
      correctFrom lang interval cap (expansion interval front) rest := by
  induction front using List.reverseRecOn generalizing rest with
  | nil => rfl
  | append_singleton front v ih =>
    have before : Roomy interval cap front := by
      intro a w b split stalls
      exact roomy a w (b ++ [v]) (by rw [split, List.append_assoc, List.cons_append]) stalls
    have goes : ¬ Stops lang interval cap v (expansion interval front) := by
      intro stops
      have room := roomy front v [] rfl stops.stalls
      rw [length_expansion_concat] at room
      exact absurd stops.full (by omega)
    rw [List.append_assoc, List.singleton_append, ih before, correctFrom_cons, if_neg goes,
      expansion_concat]

theorem roomy_or_fills (interval : ℤ) (cap : ℕ) (raw : List ℤ) :
    Roomy interval cap raw ∨ ∃ front v rest, Fills interval cap raw front v rest := by
  induction raw using List.reverseRecOn with
  | nil =>
    left
    intro before w after split
    simp at split
  | append_singleton raw x ih =>
    rcases ih with roomy | ⟨front, v, rest, fills⟩
    · by_cases full : Stalls interval x ∧ cap ≤ (expansion interval (raw ++ [x])).length
      · exact .inr ⟨raw, x, [], rfl, full.1, full.2, roomy⟩
      · left
        intro before w after split stalls
        rcases List.eq_nil_or_concat after with rfl | ⟨rest, y, rfl⟩
        · obtain ⟨rfl, same⟩ := List.append_inj' split rfl
          obtain rfl := List.singleton_inj.mp same
          exact Nat.lt_of_not_le fun reached => full ⟨stalls, reached⟩
        · rw [List.concat_eq_append, ← List.cons_append, ← List.append_assoc] at split
          exact roomy before w rest (List.append_inj' split rfl).1 stalls
    · refine .inr ⟨front, v, rest ++ [x], ?_, fills.stalls, fills.full, fills.first⟩
      rw [fills.split, List.append_assoc, List.cons_append]

theorem perm_expansion (raw : List ℤ) :
    (expansion interval raw).Perm (raw ++ raw.flatMap (missed interval)) := by
  have parts := raw.flatMap_append_perm (fun v => [v]) (missed interval)
  rw [List.flatMap_singleton'] at parts
  exact parts.symm

theorem right_of_all (whole : ∀ lang, coCorrect lang raw interval cap = expansion interval raw) :
    Right raw interval cap where
  keeps lang := by
    rw [whole]
    exact ((List.sublist_append_left _ _).subperm).trans (perm_expansion raw).symm.subperm
  fits _ := whole
  same one other := by rw [whole, whole]

namespace Fills

variable (fills : Fills interval cap raw front v rest)
include fills

theorem coCorrect_eq (lang : Language) : coCorrect lang raw interval cap =
    correctFrom lang interval cap (expansion interval front) (v :: rest) := by
  rw [fills.split]
  exact coCorrect_of_roomy fills.first (v :: rest)

theorem coCorrect_of_stops (stops : Stops lang interval cap v (expansion interval front)) :
    coCorrect lang raw interval cap = expansion interval front ++
      v :: (missed interval v).take (cap - ((expansion interval front).length + 1)) := by
  rw [fills.coCorrect_eq, correctFrom_cons, if_pos stops]

theorem stops_cpp : Stops .cpp interval cap v (expansion interval front) := by
  have full := fills.full
  rw [length_expansion_concat] at full
  exact ⟨fills.stalls, full⟩

/-- Where the values added for `v` are all there, only C++ leaves out what follows. -/
theorem right_iff_of_whole (goes : ¬ Stops .rust interval cap v (expansion interval front)) :
    Right raw interval cap ↔ rest = [] := by
  have whole : (missed interval v).take (cap - ((expansion interval front).length + 1)) =
      missed interval v := by
    apply List.take_of_length_le
    by_cases none : missed interval v = []
    · rw [none]
      exact Nat.zero_le _
    · have room : ¬ cap < (expansion interval front).length + 1 + (missed interval v).length :=
        fun short => goes ⟨none, short⟩
      omega
  have cpp := fills.coCorrect_of_stops fills.stops_cpp
  rw [whole, ← expansion_concat] at cpp
  have others (lang : Language) (other : lang ≠ .cpp) : coCorrect lang raw interval cap =
      correctFrom lang interval cap (expansion interval (front ++ [v])) rest := by
    have stays : ¬ Stops lang interval cap v (expansion interval front) := by
      cases lang with
      | cpp => exact absurd rfl other
      | rust | go => exact goes
    rw [fills.coCorrect_eq, correctFrom_cons, if_neg stays, expansion_concat]
  constructor
  · intro right
    cases rest with
    | nil => rfl
    | cons w rest =>
      have same := right.same .rust .cpp
      rw [others .rust (by decide), cpp, correctFrom_cons] at same
      split at same
      · simp at same
      · have front : expansion interval (front ++ [v]) ++ w :: missed interval w <+: correctFrom .rust
            interval cap (expansion interval (front ++ [v]) ++ w :: missed interval w) rest :=
          prefix_correctFrom _ _
        have longer := front.length_le
        rw [same, List.length_append, List.length_cons] at longer
        omega
  · rintro rfl
    apply right_of_all
    intro lang
    rw [fills.split]
    rw [fills.split] at cpp others
    by_cases other : lang = .cpp
    · rw [other, cpp]
    · rw [others lang other, correctFrom]

/-- Where they are cut short the three programs lose what follows. -/
theorem right_iff_of_short (stops : Stops .rust interval cap v (expansion interval front)) :
    Right raw interval cap ↔ rest = [] ∨ Repeats interval cap front v rest := by
  have short : cap < (expansion interval (front ++ [v])).length := by
    rw [length_expansion_concat]
    exact stops.2
  have cut (lang : Language) : coCorrect lang raw interval cap = expansion interval front ++
      v :: (missed interval v).take (cap - ((expansion interval front).length + 1)) := by
    apply fills.coCorrect_of_stops
    cases lang with
    | cpp => exact fills.stops_cpp
    | rust | go => exact stops
  have kept (lang : Language) : raw.Subperm (coCorrect lang raw interval cap) ↔
      rest.Subperm (front.flatMap (missed interval) ++
        (missed interval v).take (cap - ((expansion interval front).length + 1))) := by
    have perm := ((@perm_expansion interval front).append_right
      (v :: (missed interval v).take (cap - ((expansion interval front).length + 1))))
    have shape : (front ++ front.flatMap (missed interval) ++
        v :: (missed interval v).take (cap - ((expansion interval front).length + 1))).Perm
        (front ++ v :: (front.flatMap (missed interval) ++
          (missed interval v).take (cap - ((expansion interval front).length + 1)))) := by
      rw [List.append_assoc]
      exact List.perm_middle.append_left front
    rw [cut, (perm.trans shape).subperm_left]
    conv_lhs => rw [fills.split]
    rw [List.subperm_append_left, List.subperm_cons]
  constructor
  · intro right
    exact .inr ⟨stops.1, short, (kept .cpp).mp (right.keeps .cpp)⟩
  · intro either
    have again : rest.Subperm (front.flatMap (missed interval) ++
        (missed interval v).take (cap - ((expansion interval front).length + 1))) := by
      rcases either with rfl | repeats
      · exact List.nil_subperm
      · exact repeats.again
    refine ⟨fun lang => (kept lang).mpr again, fun fits => ?_, fun one other => ?_⟩
    · have longer : (expansion interval (front ++ [v])).length ≤
          (expansion interval raw).length := by
        have split : raw = (front ++ [v]) ++ rest := by
          rw [fills.split, List.append_assoc, List.singleton_append]
        rw [split, expansion_append _ rest, List.length_append]
        exact Nat.le_add_right _ _
      omega
    · rw [cut, cut]

theorem right_iff : Right raw interval cap ↔ rest = [] ∨ Repeats interval cap front v rest := by
  by_cases stops : Stops .rust interval cap v (expansion interval front)
  · exact fills.right_iff_of_short stops
  · rw [fills.right_iff_of_whole stops]
    refine (or_iff_left fun repeats => stops ⟨repeats.some, ?_⟩).symm
    have short := repeats.short
    rwa [length_expansion_concat] at short

end Fills

end

/-- The correction loses no sample and is the same in the three programs exactly where the stall
that reaches the cap has no samples behind it, or behind it are only repetitions of added values. -/
theorem coCorrect_right_iff (raw : List ℤ) (interval : ℤ) (cap : ℕ) :
    Right raw interval cap ↔ ∀ front v rest, Fills interval cap raw front v rest →
      rest = [] ∨ Repeats interval cap front v rest := by
  constructor
  · intro right front v rest fills
    exact fills.right_iff.mp right
  · intro met
    rcases roomy_or_fills interval cap raw with roomy | ⟨front, v, rest, fills⟩
    · apply right_of_all
      intro lang
      have whole := @coCorrect_of_roomy lang _ _ _ roomy []
      rw [List.append_nil] at whole
      rw [whole, correctFrom]
    · exact fills.right_iff.mpr (met front v rest fills)

/-- The stall of the first sample takes the room of the second. -/
theorem not_right_lost : ¬ Right [10, 1] 3 2 := by
  intro right
  have lost : coCorrect .cpp [10, 1] 3 2 = [10, 7] := by
    simp [coCorrect, correctFrom, fill, backfillCpp]
  have kept := (right.keeps .cpp).subset (List.mem_cons_of_mem 10 List.mem_cons_self)
  rw [lost] at kept
  revert kept
  decide

end LinuxSys.Benchlab
