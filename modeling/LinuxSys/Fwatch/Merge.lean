import Mathlib.Data.List.Induction
import Mathlib.Data.Nat.Bitwise

/-! # What fwatch makes of the events of a window

`merge` folds the events that arrive for a name between two lines into one of three kinds. The
window's net effect compares only whether the name existed at its start and at its end.
-/

namespace LinuxSys.Fwatch

def IN_MODIFY : ℕ := 0x2
def IN_ATTRIB : ℕ := 0x4
def IN_MOVED_FROM : ℕ := 0x40
def IN_MOVED_TO : ℕ := 0x80
def IN_CREATE : ℕ := 0x100
def IN_DELETE : ℕ := 0x200
def IN_ISDIR : ℕ := 0x40000000

inductive Kind where
  | created
  | modified
  | deleted
deriving DecidableEq, Repr

def classify (mask : ℕ) : Option Kind :=
  if mask &&& (IN_CREATE ||| IN_MOVED_TO) ≠ 0 then some .created
  else if mask &&& (IN_DELETE ||| IN_MOVED_FROM) ≠ 0 then some .deleted
  else if mask &&& (IN_MODIFY ||| IN_ATTRIB) ≠ 0 then some .modified
  else none

def merge : Option Kind → Kind → Kind
  | none, kind => kind
  | some _, .deleted => .deleted
  | some .created, _ => .created
  | some _, _ => .modified

/-- An event on a name in the watched directory. -/
inductive Event where
  | create
  | movedTo
  | delete
  | movedFrom
  | modify
  | attrib
deriving DecidableEq, Repr

namespace Event

/-- The mask that the kernel reports. -/
def mask (e : Event) (isDir : Bool) : ℕ :=
  (if isDir then IN_ISDIR else 0) ||| match e with
    | create => IN_CREATE
    | movedTo => IN_MOVED_TO
    | delete => IN_DELETE
    | movedFrom => IN_MOVED_FROM
    | modify => IN_MODIFY
    | attrib => IN_ATTRIB

def kind : Event → Kind
  | create | movedTo => .created
  | delete | movedFrom => .deleted
  | modify | attrib => .modified

/-- Whether the name exists afterwards. -/
def after (present : Bool) (e : Event) : Bool :=
  match e.kind with
  | .created => true
  | .deleted => false
  | .modified => present

/-- A name is created where it is absent and deleted where it is present. A rename may replace what
had the name, and a file that was unlinked may still be written. -/
def Consistent (present : Bool) : Event → Prop
  | create => present = false
  | delete | movedFrom => present = true
  | movedTo | modify | attrib => True

instance (present : Bool) : (e : Event) → Decidable (e.Consistent present)
  | create => inferInstanceAs (Decidable (present = false))
  | delete | movedFrom => inferInstanceAs (Decidable (present = true))
  | movedTo | modify | attrib => isTrue trivial

end Event

theorem classify_mask (e : Event) (isDir : Bool) : classify (e.mask isDir) = some e.kind := by
  cases e <;> cases isDir <;> rfl

/-- The kind that the events of a window add up to. -/
def merged (window : List Event) : Option Kind :=
  window.foldl (fun old e => some (merge old e.kind)) none

/-- Whether the name exists after the window. -/
def presentAfter (start : Bool) (window : List Event) : Bool := window.foldl Event.after start

/-- What a name's existence before and after comes to. -/
def netEffect (start finish : Bool) : Kind :=
  if finish then if start then .modified else .created else .deleted

/-- The window starts with a creation and has no deletion. -/
def Fresh (window : List Event) : Prop :=
  window.head?.map Event.kind = some .created ∧ ∀ e ∈ window, e.kind ≠ .deleted

instance (window : List Event) : Decidable (Fresh window) := inferInstanceAs (Decidable (_ ∧ _))

/-- Where the name is absent at the end, the last event deletes it. Where it is present at the end,
the window is fresh if the name was absent at the start, and is not if it was present. -/
def Coherent (start : Bool) (window : List Event) : Prop :=
  if presentAfter start window then Fresh window ↔ start = false
  else window.getLast?.map Event.kind = some .deleted

instance (start : Bool) (window : List Event) : Decidable (Coherent start window) :=
  inferInstanceAs (Decidable (if presentAfter start window then Fresh window ↔ start = false
    else window.getLast?.map Event.kind = some .deleted))

theorem merged_append (window : List Event) (e : Event) :
    merged (window ++ [e]) = some (merge (merged window) e.kind) := by
  rw [merged, List.foldl_append]
  rfl

theorem present_append (start : Bool) (window : List Event) (e : Event) :
    presentAfter start (window ++ [e]) = e.after (presentAfter start window) := by
  rw [presentAfter, List.foldl_append]
  rfl

theorem merged_eq_none_iff (window : List Event) : merged window = none ↔ window = [] := by
  rcases List.eq_nil_or_concat window with rfl | ⟨before, e, rfl⟩
  · exact iff_of_true rfl rfl
  · simp [List.concat_eq_append, merged_append]

theorem fresh_append {window : List Event} (nonempty : window ≠ []) (e : Event) :
    Fresh (window ++ [e]) ↔ Fresh window ∧ e.kind ≠ .deleted := by
  have first : (window ++ [e]).head? = window.head? := by
    obtain ⟨a, rest, rfl⟩ := List.exists_cons_of_ne_nil nonempty
    rfl
  rw [Fresh, Fresh, first, and_assoc]
  apply and_congr_right
  intro _
  simp only [List.mem_append, List.mem_singleton, or_imp, forall_and, forall_eq]

theorem not_fresh_of_last {window : List Event}
    (last : window.getLast?.map Event.kind = some .deleted) : ¬ Fresh window := by
  rintro ⟨-, kept⟩
  obtain ⟨e, found, kind⟩ := Option.map_eq_some_iff.mp last
  exact kept e (List.mem_of_getLast? found) kind

/-- The kind is `deleted` where the last event deletes, `created` where the window is fresh, and
`modified` everywhere else. -/
theorem merged_eq {window : List Event} (nonempty : window ≠ []) : merged window = some
    (if window.getLast?.map Event.kind = some .deleted then .deleted
      else if Fresh window then .created else .modified) := by
  induction window using List.reverseRecOn with
  | nil => exact absurd rfl nonempty
  | append_singleton window e ih =>
    rw [merged_append, List.getLast?_concat]
    by_cases first : window = []
    · subst first
      cases e <;> rfl
    · rw [ih first]
      by_cases deletion : e.kind = .deleted
      · simp [deletion, merge]
      · -- A deletion before the last event is remembered only as `modified`.
        by_cases last : window.getLast?.map Event.kind = some .deleted
        · have stale := not_fresh_of_last last
          rw [if_pos last]
          simp [deletion, merge, fresh_append first, stale]
        · rw [if_neg last]
          by_cases fresh : Fresh window <;> simp [deletion, merge, fresh_append first, fresh]

theorem present_of_last {window : List Event}
    (last : window.getLast?.map Event.kind = some .deleted) (start : Bool) :
    presentAfter start window = false := by
  obtain ⟨e, found, kind⟩ := Option.map_eq_some_iff.mp last
  obtain ⟨before, rfl⟩ := List.getLast?_eq_some_iff.mp found
  rw [present_append, Event.after, kind]

/-- The merged kind is the net effect of exactly the coherent windows. -/
theorem merged_eq_netEffect_iff {window : List Event} (nonempty : window ≠ []) (start : Bool) :
    merged window = some (netEffect start (presentAfter start window)) ↔ Coherent start window := by
  rw [merged_eq nonempty, Option.some_inj, Coherent]
  by_cases last : window.getLast?.map Event.kind = some .deleted
  · rw [present_of_last last, if_pos last]
    simp [netEffect, last]
  · rw [if_neg last]
    cases presentAfter start window with
    | false => by_cases fresh : Fresh window <;> simp [netEffect, last, fresh]
    | true => by_cases fresh : Fresh window <;> cases start <;> simp [netEffect, fresh]

end LinuxSys.Fwatch
