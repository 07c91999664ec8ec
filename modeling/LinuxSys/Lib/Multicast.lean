import Mathlib.Data.List.Basic
import Mathlib.Data.List.Nodup
import Mathlib.Logic.Function.Basic

/-! # One item after another to a changing group

Whoever joins is given a greeting, and an item goes to all who are members when it comes up, to one
after another. What a member has been given is then a first part of the greeting and the items since
it joined, in the one order of all items.
-/

namespace LinuxSys.Lib

structure Multicast (ι α : Type*) where
  members : List ι
  log : List α
  /-- How many items there were when a member joined. -/
  since : ι → ℕ
  given : ι → List α
  /-- To whom the current item still goes. -/
  sending : List (ι × α)

namespace Multicast

variable {ι α : Type*} [DecidableEq ι] (g : Multicast ι α)

/-- What is on its way to a member. -/
def owed (m : ι) : List α := (g.sending.filter fun p => p.1 = m).map Prod.snd

/-- What a member is to be given. -/
def due (greeting : α) (m : ι) : List α := greeting :: g.log.drop (g.since m)

def join (greeting : α) (m : ι) : Multicast ι α where
  members := m :: g.members
  log := g.log
  since := Function.update g.since m g.log.length
  given := Function.update g.given m []
  sending := [(m, greeting)]

def cast (item : α) (order : List ι) : Multicast ι α :=
  { g with log := g.log ++ [item], sending := order.map fun m => (m, item) }

/-- The first of those to whom something still goes is given it. -/
def give : Multicast ι α :=
  match g.sending with
  | [] => g
  | (m, item) :: rest =>
    { g with given := Function.update g.given m (g.given m ++ [item]), sending := rest }

def keep (stays : ι → Bool) : Multicast ι α := { g with members := g.members.filter stays }

/-- Members have been given what is due but for what is on its way, others the first part of it. -/
structure Whole (greeting : α) : Prop where
  nodup : g.members.Nodup
  there : ∀ p ∈ g.sending, p.1 ∈ g.members
  known : ∀ m, g.since m ≤ g.log.length
  whole : ∀ m ∈ g.members, g.given m ++ g.owed m = g.due greeting m
  gone : ∀ m, m ∉ g.members → g.given m <+: g.due greeting m

variable {g} {greeting item : α} {m : ι}

theorem owed_of_idle (idle : g.sending = []) (m : ι) : g.owed m = [] := by
  rw [owed, idle]
  rfl

/-- What a member has been given is a first part of what is due. -/
theorem Whole.given_prefix (whole : g.Whole greeting) (m : ι) : g.given m <+: g.due greeting m := by
  by_cases here : m ∈ g.members
  · exact ⟨g.owed m, whole.whole m here⟩
  · exact whole.gone m here

theorem Whole.join (whole : g.Whole greeting) (idle : g.sending = []) (new : m ∉ g.members) :
    (g.join greeting m).Whole greeting where
  nodup := List.nodup_cons.mpr ⟨new, whole.nodup⟩
  there p member := by
    obtain rfl := List.mem_singleton.mp member
    exact List.mem_cons_self
  known n := by
    rcases eq_or_ne n m with rfl | apart
    · exact Nat.le_of_eq (Function.update_self ..)
    · exact Nat.le_trans (Nat.le_of_eq (Function.update_of_ne apart ..)) (whole.known n)
  whole n member := by
    rcases eq_or_ne n m with rfl | apart
    · simp [Multicast.join, owed, due]
    · have before := whole.whole n ((List.mem_cons.mp member).resolve_left apart)
      rw [owed_of_idle idle] at before
      simpa [Multicast.join, owed, due, apart, apart.symm] using before
  gone n absent := by
    obtain ⟨apart, absent⟩ := not_or.mp (List.mem_cons.not.mp absent)
    simpa [Multicast.join, due, apart] using whole.gone n absent

theorem Whole.cast (whole : g.Whole greeting) (idle : g.sending = []) (item : α) {order : List ι}
    (all : order.Perm g.members) : (g.cast item order).Whole greeting := by
  have longer (n : ι) : (g.cast item order).due greeting n = g.due greeting n ++ [item] := by
    rw [due, due, Multicast.cast, List.drop_append_of_le_length (whole.known n), List.cons_append]
  refine ⟨whole.nodup, fun p member => ?_, fun n => ?_, fun n member => ?_, fun n absent => ?_⟩
  · obtain ⟨n, there, rfl⟩ := List.mem_map.mp member
    exact all.mem_iff.mp there
  · exact Nat.le_trans (whole.known n) (by simp [Multicast.cast])
  · have once : (g.cast item order).owed n = [item] := by
      have found : order.filter (fun k => decide (k = n)) = [n] := by
        have nodup := all.nodup_iff.mpr whole.nodup
        rw [List.filter_eq, List.count_eq_one_of_mem nodup (all.mem_iff.mpr member),
          List.replicate_one]
      rw [owed, Multicast.cast, List.filter_map, List.map_map]
      exact (congrArg (List.map _) found).trans rfl
    have before := whole.whole n member
    rw [owed_of_idle idle, List.append_nil] at before
    rw [once, longer, ← before]
    rfl
  · rw [longer]
    exact (whole.gone n absent).trans (List.prefix_append _ _)

theorem Whole.give (whole : g.Whole greeting) : g.give.Whole greeting := by
  rw [Multicast.give]
  cases sending : g.sending with
  | nil => exact whole
  | cons p rest =>
    obtain ⟨m, item⟩ := p
    have here : m ∈ g.members := whole.there (m, item) (sending ▸ List.mem_cons_self)
    refine ⟨whole.nodup, fun p member => ?_, whole.known, fun n member => ?_, fun n absent => ?_⟩
    · exact whole.there p (sending ▸ List.mem_cons_of_mem _ member)
    · have before := whole.whole n member
      rw [owed, sending] at before
      rcases eq_or_ne n m with rfl | apart
      · simpa [owed, due] using before
      · simpa [owed, due, apart, apart.symm] using before
    · have apart : n ≠ m := fun same => absent (same ▸ here)
      simpa [due, apart] using whole.gone n absent

theorem Whole.keep (whole : g.Whole greeting) (idle : g.sending = []) (stays : ι → Bool) :
    (g.keep stays).Whole greeting where
  nodup := whole.nodup.filter stays
  there p member := by
    rw [Multicast.keep, idle] at member
    cases member
  known := whole.known
  whole n member := whole.whole n (List.mem_of_mem_filter member)
  gone n _ := whole.given_prefix n

end Multicast

end LinuxSys.Lib
