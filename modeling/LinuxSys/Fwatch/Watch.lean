import LinuxSys.Fwatch.Merge
import LinuxSys.Language
import LinuxSys.Lib.Machine
import LinuxSys.Lib.Utf8

/-! # The watch of fwatch

An event on a name merges into the name's pending entry and puts off its line; a flush prints the
entries that are due, or all of them when the watch ends. Rust keys the entries by a lossy text of
the name. The history of a flush says which events its lines stand for, and what had existed before.
-/

namespace LinuxSys.Fwatch

open Lib

/-- How a name is kept and printed. -/
def textOf : Language → Bytes → Bytes
  | .rust, name => Utf8.lossy name
  | _, name => name

/-- In nanoseconds. -/
def kDebounce : ℕ := 100000000

structure Pending where
  kind : Kind
  due : ℕ
deriving DecidableEq, Repr

/-- `event: <kind> <name>` -/
structure Line where
  kind : Kind
  name : Bytes
deriving DecidableEq, Repr

/-- What a flush printed, the events it stands for, which names existed before these events and
which exist now. -/
structure Flush where
  lines : List Line
  events : List (Bytes × Event)
  known : Bytes → Bool
  present : Bytes → Bool

structure State where
  finished : Bool := false
  pending : List (Bytes × Pending) := []
  /-- The events that have not been flushed. -/
  fresh : List (Bytes × Event) := []
  /-- The names that exist, as the flushed events have it and as all events have it. -/
  known : Bytes → Bool
  present : Bytes → Bool
  flushes : List Flush := []

inductive Action where
  | event (name : Bytes) (e : Event) (isDir : Bool) (now : ℕ)
  | own (mask now : ℕ)
  | flush (now : ℕ) (all : Bool)
deriving DecidableEq, Repr

def find (pending : List (Bytes × Pending)) (key : Bytes) : Option Pending :=
  (pending.find? fun entry => entry.1 = key).map Prod.snd

def insertOrAssign (pending : List (Bytes × Pending)) (key : Bytes) (p : Pending) :
    List (Bytes × Pending) :=
  (key, p) :: pending.filter fun entry => entry.1 ≠ key

/-- What the loop does with an event that it has read; one on the directory itself has no name. -/
def handle (lang : Language) (pending : List (Bytes × Pending)) (name : Bytes) (mask now : ℕ) :
    List (Bytes × Pending) :=
  if name = [] then pending
  else
    match classify mask with
    | none => pending
    | some kind =>
      let key := textOf lang name
      let old := (find pending key).map Pending.kind
      insertOrAssign pending key ⟨merge old kind, now + kDebounce⟩

/-- The entries that a flush prints. -/
def isDue (now : ℕ) (all : Bool) (entry : Bytes × Pending) : Bool :=
  all || decide (entry.2.due ≤ now)

/-- The lines come in name order. -/
def linesOf (pending : List (Bytes × Pending)) (now : ℕ) (all : Bool) : List Line :=
  ((pending.filter (isDue now all)).map fun entry => ⟨entry.2.kind, entry.1⟩).mergeSort
    fun l r => decide (l.name ≤ r.name)

namespace State

/-- A key is flushed where its entry is due. -/
def flushed (s : State) (now : ℕ) (all : Bool) (key : Bytes) : Bool :=
  (s.pending.filter (isDue now all)).any fun entry => entry.1 = key

/-- What a flush adds to the history. -/
def flushNow (lang : Language) (s : State) (now : ℕ) (all : Bool) : Flush where
  lines := linesOf s.pending now all
  events := s.fresh.filter fun event => s.flushed now all (textOf lang event.1)
  known := s.known
  present := s.present

def flush (lang : Language) (s : State) (now : ℕ) (all : Bool) : State where
  finished := all
  pending := s.pending.filter fun entry => !isDue now all entry
  fresh := s.fresh.filter fun event => !s.flushed now all (textOf lang event.1)
  known := fun name => if s.flushed now all (textOf lang name) then s.present name else s.known name
  present := s.present
  flushes := s.flushes ++ [s.flushNow lang now all]

def step (lang : Language) (s : State) : Action → Option State
  | .event name e isDir now =>
    if s.finished ∨ name = [] ∨ ¬ e.Consistent (s.present name) then none
    else some { s with
      pending := handle lang s.pending name (e.mask isDir) now
      fresh := s.fresh ++ [(name, e)]
      present := Function.update s.present name (e.after (s.present name)) }
  | .own mask now =>
    if s.finished then none else some { s with pending := handle lang s.pending [] mask now }
  | .flush now all => if s.finished then none else some (s.flush lang now all)

end State

/-- `cmd_watch` on a directory. A flush of all entries comes with the timeout or a signal and ends
the watch. -/
def watch (lang : Language) (dir : Bytes → Bool) : Machine State Action where
  init := { known := dir, present := dir }
  step := State.step lang

/-- The events of one name. -/
def window (events : List (Bytes × Event)) (name : Bytes) : List Event :=
  (events.filter fun event => event.1 = name).map Prod.snd

/-- The events of the names that share a key. -/
def keyed (lang : Language) (events : List (Bytes × Event)) (key : Bytes) : List Event :=
  (events.filter fun event => textOf lang event.1 = key).map Prod.snd

/-- Each name with an event has one line, which says what the events came to. -/
structure Flush.Right (f : Flush) : Prop where
  once : (f.lines.map Line.name).Nodup
  shown : ∀ line ∈ f.lines, 10 ∉ line.name
  net : ∀ line, line ∈ f.lines ↔ line.name ∈ f.events.map Prod.fst ∧
    line.kind = netEffect (f.known line.name) (f.present line.name)

/-- The name fits on a line, and is kept as it is. -/
def Printable (lang : Language) (name : Bytes) : Prop := 10 ∉ name ∧ textOf lang name = name

instance (lang : Language) (name : Bytes) : Decidable (Printable lang name) :=
  inferInstanceAs (Decidable (_ ∧ _))

/-- Each name with an event is printable, and its window coherent. -/
def Flush.Good (lang : Language) (f : Flush) : Prop :=
  ∀ name ∈ f.events.map Prod.fst, Printable lang name ∧
    Coherent (f.known name) (window f.events name)

instance (lang : Language) (f : Flush) : Decidable (f.Good lang) :=
  inferInstanceAs (Decidable (∀ name ∈ f.events.map Prod.fst, _ ∧ _))

/-- What a consumer that knew the directory makes of a line, unless it is told of the creation of a
name that it holds or of a change to one that it does not. -/
def replay (held : Bytes → Bool) (line : Line) : Option (Bytes → Bool) :=
  match line.kind with
  | .created => if held line.name then none else some (Function.update held line.name true)
  | .modified => if held line.name then some held else none
  | .deleted => some (Function.update held line.name false)

theorem textOf_textOf (lang : Language) (name : Bytes) :
    textOf lang (textOf lang name) = textOf lang name := by
  cases lang with
  | rust => exact Utf8.lossy_lossy name
  | cpp => rfl
  | go => rfl

theorem window_append (events : List (Bytes × Event)) (name other : Bytes) (e : Event) :
    window (events ++ [(other, e)]) name =
      if other = name then window events name ++ [e] else window events name := by
  rw [window, List.filter_append, List.map_append]
  split_ifs with same <;> simp [window, same]

theorem keyed_append (lang : Language) (events : List (Bytes × Event)) (key other : Bytes)
    (e : Event) : keyed lang (events ++ [(other, e)]) key =
      if textOf lang other = key then keyed lang events key ++ [e] else keyed lang events key := by
  rw [keyed, List.filter_append, List.map_append]
  split_ifs with same <;> simp [keyed, same]

section Pending

variable {pending : List (Bytes × Pending)}

theorem find_cons (entry : Bytes × Pending) (rest : List (Bytes × Pending)) (key : Bytes) :
    find (entry :: rest) key = if entry.1 = key then some entry.2 else find rest key := by
  rw [find, List.find?_cons]
  split_ifs with same <;> simp [same, find]

theorem mem_iff_find (keys : (pending.map Prod.fst).Nodup) (key : Bytes) (p : Pending) :
    (key, p) ∈ pending ↔ find pending key = some p := by
  induction pending with
  | nil => simp [find]
  | cons entry rest ih =>
    obtain ⟨absent, keys⟩ := List.nodup_cons.mp keys
    rw [find_cons, List.mem_cons, ih keys]
    split_ifs with same
    · subst same
      have other : find rest entry.1 ≠ some p := fun found =>
        absent (List.mem_map.mpr ⟨_, (ih keys).mpr found, rfl⟩)
      simp only [other, or_false, Option.some_inj]
      exact ⟨fun found => found ▸ rfl, fun found => found ▸ rfl⟩
    · refine or_iff_right fun found => same ?_
      rw [← found]

theorem find_filter_ne (key other : Bytes) :
    find (pending.filter fun entry => entry.1 ≠ key) other =
      if key = other then none else find pending other := by
  induction pending with
  | nil => simp [find]
  | cons entry rest ih =>
    rw [List.filter_cons, find_cons]
    by_cases same : entry.1 = key
    · subst same
      simp only [ne_eq, not_true_eq_false, decide_false, Bool.false_eq_true, if_false]
      rw [ih]
      split_ifs <;> rfl
    · simp only [ne_eq, same, not_false_eq_true, decide_true, if_true, find_cons]
      rw [ih]
      by_cases here : entry.1 = other
      · subst here
        simp [Ne.symm same]
      · simp [here]

theorem find_insertOrAssign (key other : Bytes) (p : Pending) :
    find (insertOrAssign pending key p) other =
      if key = other then some p else find pending other := by
  rw [insertOrAssign, find_cons, find_filter_ne]
  split_ifs <;> rfl

theorem nodup_insertOrAssign (keys : (pending.map Prod.fst).Nodup) (key : Bytes) (p : Pending) :
    ((insertOrAssign pending key p).map Prod.fst).Nodup := by
  refine List.nodup_cons.mpr ⟨?_, (List.filter_sublist.map Prod.fst).nodup keys⟩
  simp

theorem find_filter (keys : (pending.map Prod.fst).Nodup) (key : Bytes)
    (kept : Bytes × Pending → Bool) :
    find (pending.filter kept) key = (find pending key).filter fun p => kept (key, p) := by
  have fewer : ((pending.filter kept).map Prod.fst).Sublist (pending.map Prod.fst) :=
    List.filter_sublist.map Prod.fst
  apply Option.ext
  intro p
  rw [← mem_iff_find (fewer.nodup keys), List.mem_filter, mem_iff_find keys,
    Option.filter_eq_some_iff]

end Pending

/-- The entries are those of the events that have not been flushed, and the flushes have been right
exactly where they were good. -/
structure State.Inv (lang : Language) (dir : Bytes → Bool) (s : State) : Prop where
  keys : (s.pending.map Prod.fst).Nodup
  merged : ∀ key, (find s.pending key).map Pending.kind = merged (keyed lang s.fresh key)
  present : ∀ name, s.present name = presentAfter (s.known name) (window s.fresh name)
  finished : s.finished = true → s.fresh = []
  right : ∀ f ∈ s.flushes, f.Right ↔ f.Good lang
  held : (∀ f ∈ s.flushes, f.Right) →
    (s.flushes.flatMap Flush.lines).foldlM replay dir = some s.known

theorem handle_event (lang : Language) (pending : List (Bytes × Pending)) {name : Bytes}
    (named : name ≠ []) (e : Event) (isDir : Bool) (now : ℕ) :
    handle lang pending name (e.mask isDir) now = insertOrAssign pending (textOf lang name)
      ⟨merge ((find pending (textOf lang name)).map Pending.kind) e.kind, now + kDebounce⟩ := by
  rw [handle, if_neg named, classify_mask]

theorem handle_own (lang : Language) (pending : List (Bytes × Pending)) (mask now : ℕ) :
    handle lang pending [] mask now = pending := if_pos rfl

namespace State.Inv

variable {lang : Language} {dir : Bytes → Bool} {s : State}

theorem event (inv : s.Inv lang dir) {name : Bytes} (named : name ≠ []) (e : Event) (isDir : Bool)
    (now : ℕ) (running : s.finished = false) : State.Inv lang dir { s with
      pending := handle lang s.pending name (e.mask isDir) now
      fresh := s.fresh ++ [(name, e)]
      present := Function.update s.present name (e.after (s.present name)) } := by
  refine { inv with
    keys := ?_, merged := fun key => ?_, present := fun other => ?_, finished := ?_ }
  · rw [handle_event lang s.pending named]
    exact nodup_insertOrAssign inv.keys _ _
  · simp only [handle_event lang s.pending named, find_insertOrAssign, keyed_append]
    split_ifs with same
    · rw [merged_append, ← inv.merged key, same]
      rfl
    · exact inv.merged key
  · simp only [window_append]
    split_ifs with same
    · subst same
      rw [Function.update_self, present_append, inv.present]
    · rw [Function.update_of_ne (Ne.symm same), inv.present]
  · rw [running]
    simp

theorem flushed_iff (inv : s.Inv lang dir) (now : ℕ) (all : Bool) (key : Bytes) :
    s.flushed now all key = true ↔
      ∃ p, find s.pending key = some p ∧ isDue now all (key, p) = true := by
  simp only [flushed, List.any_eq_true, List.mem_filter, decide_eq_true_eq]
  constructor
  · rintro ⟨⟨_, p⟩, ⟨member, due⟩, rfl⟩
    exact ⟨p, (mem_iff_find inv.keys _ p).mp member, due⟩
  · rintro ⟨p, found, due⟩
    exact ⟨(key, p), ⟨(mem_iff_find inv.keys key p).mpr found, due⟩, rfl⟩

theorem mem_linesOf (inv : s.Inv lang dir) (now : ℕ) (all : Bool) (line : Line) :
    line ∈ linesOf s.pending now all ↔ s.flushed now all line.name = true ∧
      Fwatch.merged (keyed lang s.fresh line.name) = some line.kind := by
  rw [linesOf, List.mem_mergeSort, List.mem_map, inv.flushed_iff, ← inv.merged]
  constructor
  · rintro ⟨⟨key, p⟩, member, rfl⟩
    obtain ⟨member, due⟩ := List.mem_filter.mp member
    have found := (mem_iff_find inv.keys key p).mp member
    exact ⟨⟨p, found, due⟩, by rw [found]; rfl⟩
  · rintro ⟨⟨p, found, due⟩, kind⟩
    rw [found] at kind
    have member := (mem_iff_find inv.keys line.name p).mpr found
    refine ⟨(line.name, p), List.mem_filter.mpr ⟨member, due⟩, ?_⟩
    rw [Option.some.inj kind]

theorem nodup_linesOf (inv : s.Inv lang dir) (now : ℕ) (all : Bool) :
    ((linesOf s.pending now all).map Line.name).Nodup := by
  refine ((List.mergeSort_perm _ _).map Line.name).symm.nodup ?_
  rw [List.map_map]
  exact (List.filter_sublist.map Prod.fst).nodup inv.keys

/-- A key that is flushed is the text of a name with an event. -/
theorem exists_of_flushed (inv : s.Inv lang dir) {now : ℕ} {all : Bool} {key : Bytes}
    (flushed : s.flushed now all key = true) : ∃ event ∈ s.fresh, textOf lang event.1 = key := by
  obtain ⟨p, found, -⟩ := (inv.flushed_iff now all key).mp flushed
  have some := inv.merged key
  rw [found] at some
  have nonempty : keyed lang s.fresh key ≠ [] := fun empty => by
    rw [empty] at some
    cases some
  obtain ⟨e, member⟩ := List.exists_mem_of_ne_nil _ nonempty
  obtain ⟨event, member, -⟩ := List.mem_map.mp member
  obtain ⟨member, same⟩ := List.mem_filter.mp member
  exact ⟨event, member, of_decide_eq_true same⟩

end State.Inv

/-- Where every flushed name is its own key, the events of a key are those of the name. -/
theorem keyed_eq_window {lang : Language} {fresh : List (Bytes × Event)} {flushed : Bytes → Bool}
    (own : ∀ event ∈ fresh, flushed (textOf lang event.1) = true → textOf lang event.1 = event.1)
    {key : Bytes} (here : flushed key = true) : keyed lang fresh key =
      window (fresh.filter fun event => flushed (textOf lang event.1)) key := by
  rw [keyed, window, List.filter_filter]
  refine congrArg (List.map Prod.snd) (List.filter_congr fun event member => ?_)
  have mine := own event member
  rw [Bool.eq_iff_iff, Bool.and_eq_true, decide_eq_true_eq, decide_eq_true_eq]
  constructor
  · intro same
    have flushed' := same.symm ▸ here
    exact ⟨(mine flushed').symm.trans same, flushed'⟩
  · rintro ⟨same, flushed'⟩
    exact (mine flushed').trans same

namespace State.Inv

variable {lang : Language} {dir : Bytes → Bool} {s : State} {now : ℕ} {all : Bool}

theorem mem_names {name : Bytes} : name ∈ (s.flushNow lang now all).events.map Prod.fst ↔
    (∃ event ∈ s.fresh, event.1 = name) ∧ s.flushed now all (textOf lang name) = true := by
  simp only [flushNow, List.mem_map, List.mem_filter]
  constructor
  · rintro ⟨event, ⟨member, flushed⟩, rfl⟩
    exact ⟨⟨event, member, rfl⟩, flushed⟩
  · rintro ⟨⟨event, member, rfl⟩, flushed⟩
    exact ⟨event, ⟨member, flushed⟩, rfl⟩

/-- The window of a name whose key is flushed is flushed whole. -/
theorem window_flushNow {name : Bytes} (flushed : s.flushed now all (textOf lang name) = true) :
    window (s.flushNow lang now all).events name = window s.fresh name := by
  rw [window, flushNow, List.filter_filter, window]
  refine congrArg (List.map Prod.snd) (List.filter_congr fun event _ => ?_)
  rw [Bool.eq_iff_iff, Bool.and_eq_true, decide_eq_true_eq]
  refine and_iff_left_of_imp ?_
  rintro rfl
  exact flushed

theorem window_ne_nil {name : Bytes} {events : List (Bytes × Event)}
    (member : name ∈ events.map Prod.fst) : window events name ≠ [] := by
  obtain ⟨event, mine, rfl⟩ := List.mem_map.mp member
  have inside : event.2 ∈ window events event.1 :=
    List.mem_map.mpr ⟨event, List.mem_filter.mpr ⟨mine, by simp⟩, rfl⟩
  exact List.ne_nil_of_mem inside

section Own

variable (own : ∀ name ∈ (s.flushNow lang now all).events.map Prod.fst, textOf lang name = name)

include own

theorem mem_names_of_flushed (inv : s.Inv lang dir) {key : Bytes}
    (flushed : s.flushed now all key = true) :
    key ∈ (s.flushNow lang now all).events.map Prod.fst := by
  obtain ⟨event, member, rfl⟩ := inv.exists_of_flushed flushed
  have name := mem_names.mpr ⟨⟨event, member, rfl⟩, flushed⟩
  rw [own event.1 name]
  exact name

/-- In a flush of names that are their own keys, a line stands for the name's window. -/
theorem mem_lines_iff (inv : s.Inv lang dir) (line : Line) :
    line ∈ linesOf s.pending now all ↔ line.name ∈ (s.flushNow lang now all).events.map Prod.fst ∧
      Fwatch.merged (window (s.flushNow lang now all).events line.name) = some line.kind := by
  have agree : s.flushed now all line.name = true → keyed lang s.fresh line.name =
      window (s.flushNow lang now all).events line.name := by
    apply keyed_eq_window
    intro event member flushed
    exact own event.1 (mem_names.mpr ⟨⟨event, member, rfl⟩, flushed⟩)
  rw [inv.mem_linesOf]
  constructor
  · rintro ⟨flushed, kind⟩
    rw [agree flushed] at kind
    exact ⟨mem_names_of_flushed own inv flushed, kind⟩
  · rintro ⟨name, kind⟩
    have flushed := (mem_names.mp name).2
    rw [own line.name name] at flushed
    rw [agree flushed]
    exact ⟨flushed, kind⟩

theorem coherent_iff (inv : s.Inv lang dir) {name : Bytes}
    (member : name ∈ (s.flushNow lang now all).events.map Prod.fst) :
    ⟨netEffect (s.known name) (s.present name), name⟩ ∈ linesOf s.pending now all ↔
      Coherent (s.known name) (window (s.flushNow lang now all).events name) := by
  rw [mem_lines_iff own inv, and_iff_right member, inv.present,
    ← window_flushNow (mem_names.mp member).2, merged_eq_netEffect_iff (window_ne_nil member)]

end Own

/-- Two names that share a key cannot both have their line. -/
theorem own_of_right (inv : s.Inv lang dir) (right : (s.flushNow lang now all).Right) :
    ∀ name ∈ (s.flushNow lang now all).events.map Prod.fst, textOf lang name = name := by
  intro name member
  have line := (right.net ⟨netEffect (s.known name) (s.present name), name⟩).mpr ⟨member, rfl⟩
  obtain ⟨event, -, rfl⟩ := inv.exists_of_flushed ((inv.mem_linesOf now all _).mp line).1
  exact textOf_textOf lang event.1

theorem right_iff_good (inv : s.Inv lang dir) :
    (s.flushNow lang now all).Right ↔ (s.flushNow lang now all).Good lang := by
  constructor
  · intro right name member
    have own := inv.own_of_right right
    have line := (right.net ⟨netEffect (s.known name) (s.present name), name⟩).mpr ⟨member, rfl⟩
    exact ⟨⟨right.shown _ line, own name member⟩, (coherent_iff own inv member).mp line⟩
  · intro good
    have own : ∀ name ∈ (s.flushNow lang now all).events.map Prod.fst, textOf lang name = name :=
      fun name member => (good name member).1.2
    refine ⟨inv.nodup_linesOf now all, fun line member => ?_, fun line => ?_⟩
    · exact (good line.name ((mem_lines_iff own inv line).mp member).1).1.1
    · constructor
      · intro member
        obtain ⟨name, kind⟩ := (mem_lines_iff own inv line).mp member
        have net := (coherent_iff own inv name).mpr (good line.name name).2
        have net := ((mem_lines_iff own inv _).mp net).2
        exact ⟨name, Option.some.inj (kind.symm.trans net)⟩
      · rintro ⟨name, kind⟩
        have net := (coherent_iff own inv name).mpr (good line.name name).2
        have same : line = ⟨netEffect (s.known line.name) (s.present line.name), line.name⟩ :=
          congrArg (fun kind => Line.mk kind line.name) kind
        rw [← same] at net
        exact net

end State.Inv

/-- A consumer that is told the net effects follows them. -/
theorem foldlM_replay {lines : List Line} (once : (lines.map Line.name).Nodup)
    (finish : Bytes → Bool) {held : Bytes → Bool}
    (net : ∀ line ∈ lines, line.kind = netEffect (held line.name) (finish line.name)) :
    lines.foldlM replay held =
      some fun name => if name ∈ lines.map Line.name then finish name else held name := by
  induction lines generalizing held with
  | nil => simp
  | cons line rest ih =>
    obtain ⟨absent, once⟩ := List.nodup_cons.mp once
    have told : replay held line =
        some (Function.update held line.name (finish line.name)) := by
      rw [replay, net line List.mem_cons_self]
      cases here : held line.name <;> cases finish line.name <;> simp [netEffect]
      exact here
    rw [List.foldlM_cons, told, Option.bind_eq_bind, Option.bind_some, ih once]
    · apply congrArg some
      funext name
      rcases eq_or_ne name line.name with rfl | apart
      · simp [absent]
      · simp [apart]
    · intro other member
      have apart : other.name ≠ line.name := fun same =>
        absent (same ▸ List.mem_map_of_mem member)
      rw [Function.update_of_ne apart]
      exact net other (List.mem_cons_of_mem line member)

namespace State.Inv

variable {lang : Language} {dir : Bytes → Bool} {s : State}

/-- What the consumer holds after a flush. -/
theorem held_flush (inv : s.Inv lang dir) (now : ℕ) (all : Bool)
    (right : (s.flushNow lang now all).Right) :
    (s.flushNow lang now all).lines.foldlM replay s.known = some (s.flush lang now all).known := by
  have own := inv.own_of_right right
  have followed := @foldlM_replay _ right.once s.present s.known
    fun line member => ((right.net line).mp member).2
  refine followed.trans (congrArg some (funext fun name => ?_))
  have lines : name ∈ (s.flushNow lang now all).lines.map Line.name ↔
      name ∈ (s.flushNow lang now all).events.map Prod.fst := by
    constructor
    · intro member
      obtain ⟨line, printed, rfl⟩ := List.mem_map.mp member
      exact ((right.net line).mp printed).1
    · intro member
      have printed := (right.net ⟨netEffect (s.known name) (s.present name), name⟩).mpr
        ⟨member, rfl⟩
      exact List.mem_map.mpr ⟨_, printed, rfl⟩
  by_cases member : name ∈ (s.flushNow lang now all).events.map Prod.fst
  · rw [if_pos (lines.mpr member)]
    exact (if_pos (mem_names.mp member).2).symm
  · rw [if_neg fun line => member (lines.mp line)]
    by_cases flushed : s.flushed now all (textOf lang name) = true
    · have quiet : window s.fresh name = [] := by
        rw [window, List.map_eq_nil_iff, List.filter_eq_nil_iff]
        intro event inside same
        exact member (mem_names.mpr ⟨⟨event, inside, of_decide_eq_true same⟩, flushed⟩)
      refine Eq.trans ?_ (if_pos flushed).symm
      rw [inv.present, quiet]
      rfl
    · exact (if_neg flushed).symm

/-- Events that are flushed together are taken out together. -/
theorem select_flush (now : ℕ) (all : Bool) (picked : Bytes × Event → Bool) {key : Bytes}
    (together : ∀ event, picked event = true → textOf lang event.1 = key) :
    (s.flush lang now all).fresh.filter picked =
      if s.flushed now all key then [] else s.fresh.filter picked := by
  rw [State.flush, List.filter_filter]
  split_ifs with flushed
  · rw [List.filter_eq_nil_iff]
    rintro event - both
    obtain ⟨mine, other⟩ := (Bool.and_eq_true _ _).mp both
    rw [together event mine, flushed] at other
    cases other
  · refine List.filter_congr fun event _ => ?_
    rw [Bool.eq_iff_iff, Bool.and_eq_true]
    refine and_iff_left_of_imp fun mine => ?_
    rw [together event mine]
    simpa using flushed

theorem keyed_flush (now : ℕ) (all : Bool) (key : Bytes) :
    keyed lang (s.flush lang now all).fresh key =
      if s.flushed now all key then [] else keyed lang s.fresh key := by
  rw [keyed, select_flush now all _ fun event mine => of_decide_eq_true mine]
  split_ifs <;> rfl

theorem window_flush (now : ℕ) (all : Bool) (name : Bytes) :
    window (s.flush lang now all).fresh name =
      if s.flushed now all (textOf lang name) then [] else window s.fresh name := by
  rw [window, select_flush now all _ fun event mine =>
    congrArg (textOf lang) (of_decide_eq_true mine)]
  split_ifs <;> rfl

theorem flush (inv : s.Inv lang dir) (now : ℕ) (all : Bool) :
    (s.flush lang now all).Inv lang dir := by
  refine ⟨(List.filter_sublist.map Prod.fst).nodup inv.keys, fun key => ?_, fun name => ?_,
    fun ended => ?_, fun f member => ?_, fun right => ?_⟩
  · rw [keyed_flush, State.flush, find_filter inv.keys]
    have entry := inv.flushed_iff now all key
    split_ifs with flushed
    · obtain ⟨p, found, due⟩ := entry.mp flushed
      rw [found, Option.filter_some, due]
      rfl
    · rw [← inv.merged key]
      cases found : find s.pending key with
      | none => rfl
      | some p =>
        have late : isDue now all (key, p) = false := by
          rw [← Bool.not_eq_true]
          exact fun due => flushed (entry.mpr ⟨p, found, due⟩)
        rw [Option.filter_some, late]
        rfl
  · rw [window_flush, State.flush]
    split_ifs with flushed
    · simp [flushed, presentAfter]
    · simp [flushed, inv.present]
  · obtain rfl : all = true := ended
    rw [State.flush, List.filter_eq_nil_iff]
    intro event member kept
    have nonempty : keyed lang s.fresh (textOf lang event.1) ≠ [] := by
      refine List.ne_nil_of_mem (a := event.2) (List.mem_map.mpr ⟨event, ?_, rfl⟩)
      exact List.mem_filter.mpr ⟨member, by simp⟩
    have entry := inv.merged (textOf lang event.1)
    cases found : find s.pending (textOf lang event.1) with
    | none =>
      rw [found] at entry
      exact nonempty ((merged_eq_none_iff _).mp entry.symm)
    | some p =>
      rw [(inv.flushed_iff now true _).mpr ⟨p, found, rfl⟩] at kept
      cases kept
  · rcases List.mem_append.mp member with old | new
    · exact inv.right f old
    · rw [List.mem_singleton.mp new]
      exact inv.right_iff_good
  · rw [State.flush, List.flatMap_append, List.foldlM_append,
      inv.held fun f member => right f (List.mem_append_left _ member)]
    have last := right (s.flushNow lang now all) (List.mem_append_right _ (by simp))
    rw [List.flatMap_singleton]
    exact inv.held_flush now all last

end State.Inv

theorem inv_of_run {lang : Language} {dir : Bytes → Bool} {acts : List Action} {s : State}
    (run : (watch lang dir).run? acts = some s) : s.Inv lang dir := by
  have start : (watch lang dir).init.Inv lang dir := by
    refine ⟨List.nodup_nil, fun _ => rfl, fun _ => rfl, fun _ => rfl, ?_, fun _ => rfl⟩
    intro f member
    cases member
  refine @Machine.run?_keeps _ _ _ (State.Inv lang dir) start (fun s a t inv taken => ?_) _ _ run
  simp only [watch] at taken
  cases a with
  | event name e isDir now =>
    simp only [State.step] at taken
    split_ifs at taken with closed
    cases taken
    push Not at closed
    exact inv.event closed.2.1 e isDir now (by simpa using closed.1)
  | own mask now =>
    simp only [State.step] at taken
    split_ifs at taken
    cases taken
    rw [handle_own]
    exact inv
  | flush now all =>
    simp only [State.step] at taken
    split_ifs at taken
    cases taken
    exact inv.flush now all

/-- What the watch should do: each flush prints the net effect of the events that it stands for,
and a consumer that replays the lines knows which names exist once the watch has ended. -/
def Faithful (dir : Bytes → Bool) (s : State) : Prop :=
  (∀ f ∈ s.flushes, f.Right) ∧ ∃ held,
    (s.flushes.flatMap Flush.lines).foldlM replay dir = some held ∧
    (s.finished = true → ∀ name, held name = s.present name)

/-- The watch is faithful exactly where every name that it flushes is printable and has a coherent
window. -/
theorem faithful_iff {lang : Language} {dir : Bytes → Bool} {acts : List Action} {s : State}
    (run : (watch lang dir).run? acts = some s) :
    Faithful dir s ↔ ∀ f ∈ s.flushes, f.Good lang := by
  have inv := inv_of_run run
  constructor
  · rintro ⟨right, -⟩ f member
    exact (inv.right f member).mp (right f member)
  · intro good
    have right : ∀ f ∈ s.flushes, f.Right :=
      fun f member => (inv.right f member).mpr (good f member)
    refine ⟨right, s.known, inv.held right, fun ended name => ?_⟩
    rw [inv.present, inv.finished ended]
    rfl

def absent (_ : Bytes) : Bool := false

/-- A file is created and written; after its line it is deleted. -/
def writes : List Action :=
  [.event [97] .create false 0, .event [97] .modify false 1, .flush 200000000 false,
    .event [97] .delete false 300000000, .flush 400000000 true]

theorem faithful_writes : ∃ s, (watch .go absent).run? writes = some s ∧
    (∀ f ∈ s.flushes, f.Good .go) ∧ Faithful absent s := by
  obtain ⟨s, run, good⟩ : ∃ s, (watch .go absent).run? writes = some s ∧
      ∀ f ∈ s.flushes, f.Good .go := ⟨_, rfl, by decide⟩
  exact ⟨s, run, good, (faithful_iff run).mpr good⟩

/-- A file is created, deleted and created again within a window. -/
def again : List Action :=
  [.event [97] .create false 0, .event [97] .delete false 1, .event [97] .create false 2,
    .flush 3 true]

/-- The line says `modified` of a name that did not exist. -/
theorem not_faithful_again : ∃ s, (watch .cpp absent).run? again = some s ∧
    ¬ Faithful absent s := by
  obtain ⟨s, run, f, member, opened, known⟩ : ∃ s, (watch .cpp absent).run? again = some s ∧
      ∃ f ∈ s.flushes, f.events = [([97], .create), ([97], .delete), ([97], .create)] ∧
        f.known = absent := ⟨_, rfl, _, List.mem_singleton_self _, by decide, rfl⟩
  refine ⟨s, run, fun faithful => ?_⟩
  have good := ((inv_of_run run).right f member).mp (faithful.1 f member) [97] (by simp [opened])
  rw [opened, known] at good
  exact absurd good.2 (by decide)

end LinuxSys.Fwatch
