import LinuxSys.Language
import LinuxSys.Lib.Decimal
import LinuxSys.Lib.Seqlock
import LinuxSys.Lib.Utf8

/-! # The shared file of shmkv v1

The update counter and eight slots of 64 bytes behind a 32-bit sequence word. The counter is loaded
and stored whole, the slots byte by byte. A writer's update is any list of such stores;
`publish` is the one `serve` makes.
-/

namespace LinuxSys.Shmkv

open Lib

def kSlotCount : ℕ := 8
def kKeySize : ℕ := 24
def kValSize : ℕ := 40
def kSlotSize : ℕ := 64

/-- What the lock covers: `counter` and the bytes of `slots`. -/
inductive Cell where
  | counter
  | slots (i : Fin 512)
deriving DecidableEq, Repr

def Cell.Value : Cell → Type
  | .counter => UInt64
  | .slots _ => UInt8

abbrev Contents := (c : Cell) → c.Value

def cells : List Cell := .counter :: (List.finRange 512).map .slots

theorem mem_cells (c : Cell) : c ∈ cells := by
  cases c with
  | counter => exact List.mem_cons_self
  | slots i => exact List.mem_cons_of_mem _ (List.mem_map_of_mem (List.mem_finRange i))

theorem nodup_cells : cells.Nodup := by
  refine List.nodup_cons.mpr ⟨by simp, (List.nodup_finRange 512).map ?_⟩
  rintro i j ⟨⟩
  rfl

abbrev Shm := Seqlock.State Cell.Value 32

/-- A writer whose updates are `mutate 0`, `mutate 1`, .. and a reader in `seqlock_read`. -/
def shm (mutate : ℕ → List (Sigma Cell.Value)) (start : Contents) :
    Machine Shm (Seqlock.Action Cell) :=
  Seqlock.machine mutate cells start

theorem shm_step (mutate : ℕ → List (Sigma Cell.Value)) (start : Contents) (s : Shm)
    (a : Seqlock.Action Cell) : (shm mutate start).step s a = Seqlock.step mutate cells s a := rfl

/-- A snapshot that saw fewer than `2 ^ 31` updates begin is what the file held after some
complete update. -/
theorem seqlock_read_consistent (mutate : ℕ → List (Sigma Cell.Value)) (start : Contents)
    {acts : List (Seqlock.Action Cell)} {s : Shm} (run : (shm mutate start).run? acts = some s)
    {snap : Seqlock.Snapshot Cell.Value} (returned : snap ∈ s.snaps)
    (few : snap.during < 2 ^ 31) :
    ∃ k ≤ s.complete, ∀ c, snap.got c = some (Seqlock.contents mutate start k c) := by
  have kept : Seqlock.Kept mutate cells start s :=
    Machine.run?_keeps Seqlock.Kept.init (fun _ _ _ inv => inv.keeps (by decide)) run
  obtain ⟨after, whole⟩ := kept.snaps snap returned
  exact ⟨snap.after, after, fun c => whole (by omega) c (mem_cells c)⟩

/-- What `bench` stores under the lock: only the counter. -/
def benchUpdate (k : ℕ) : List (Sigma Cell.Value) := [⟨.counter, UInt64.ofNat (k + 1)⟩]

def zeroed : Contents
  | .counter => (0 : UInt64)
  | .slots _ => (0 : UInt8)

/-- The copy of a reader that nothing disturbs. -/
def whole (c : Contents) : (c : Cell) → Option c.Value := fun a =>
  if a ∈ cells then some (c a) else none

theorem isSome_whole (c : Contents) : ∀ a ∈ cells, (whole c a).isSome := by
  intro a member
  rw [whole, if_pos member, Option.isSome_some]

theorem whole_eq (c : Contents) (a : Cell) : whole c a = some (c a) := if_pos (mem_cells a)

theorem seqlock_read_consistent_bench :
    ∃ acts, ∃ s : Shm, (shm benchUpdate zeroed).run? acts = some s ∧
      ∃ snap ∈ s.snaps, ∃ k ≤ s.complete,
        ∀ c, snap.got c = some (Seqlock.contents benchUpdate zeroed k c) := by
  let loaded : Shm := { seq := 2, mem := Seqlock.contents benchUpdate zeroed 1, bumps := 2 }
  let full : Shm := { loaded with reading := some ⟨2, 2, whole loaded.mem⟩ }
  let snap : Seqlock.Snapshot Cell.Value := ⟨2 / 2, (2 - 2 + 1) / 2, whole loaded.mem⟩
  have update : (shm benchUpdate zeroed).runFrom? (shm benchUpdate zeroed).init
      [.bump, .store, .unbump] = some loaded := rfl
  have even : loaded.bumps % 2 = 0 := Nat.mod_self 2
  have load : (shm benchUpdate zeroed).step loaded .load =
      some { loaded with reading := some ⟨2, 2, fun _ => none⟩ } := by
    rw [shm_step]
    exact Seqlock.step_load_of_even (by decide) even rfl rfl
  have copied : (shm benchUpdate zeroed).runFrom?
      { loaded with reading := some ⟨2, 2, fun _ => none⟩ } (cells.map .copy) = some full :=
    Seqlock.runFrom?_copy_all zeroed 2 2 nodup_cells
  have kept : (shm benchUpdate zeroed).step full .reload =
      some { full with reading := none, snaps := full.snaps ++ [snap] } := by
    rw [shm_step]
    exact Seqlock.step_reload_of_same (r := ⟨2, 2, whole loaded.mem⟩) rfl (isSome_whole _) rfl
  have run : (shm benchUpdate zeroed).run?
      ([.bump, .store, .unbump] ++ .load :: (cells.map .copy ++ [.reload])) =
        some { full with reading := none, snaps := full.snaps ++ [snap] } := by
    rw [Machine.run?, Machine.runFrom?_append_of update, Machine.runFrom?_cons load,
      Machine.runFrom?_append_of copied, Machine.runFrom?_cons kept, Machine.runFrom?_nil]
  have few : snap.during < 2 ^ 31 := by
    simp [snap]
  exact ⟨_, _, run, snap, List.mem_singleton_self snap,
    seqlock_read_consistent benchUpdate zeroed run (List.mem_singleton_self snap) few⟩

end LinuxSys.Shmkv
