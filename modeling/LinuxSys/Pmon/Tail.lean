import Mathlib.Data.List.Infix
import LinuxSys.Language
import LinuxSys.Lib.Bytes
import LinuxSys.Lib.Fifo
import LinuxSys.Lib.Machine

/-! # The tail of pmon ch18

The tail writes a growing log into a FIFO. C++ and Rust splice, or read and write where they cannot;
Go copies until the log's end. A call that finds no reader leaves the log's offset behind the last
byte that went into the FIFO, then the tail closes its end and opens it again for the next reader.
What is in the FIFO at that time no reader has had.
-/

namespace LinuxSys.Pmon

open Lib

namespace Tail

/-- Where `cmd_tail` stands. `start` and `n` are the offset before a read of `relay_rw` and 0, or
the offset at the start of `io.Copy` and what it has copied; `pushed` is what a `write` that has not
returned has put into the FIFO, and `moved` a `splice`. -/
inductive Phase where
  | opening
  | attached
  | splicing (moved : ℕ)
  | copying (start n : ℕ)
  | writing (start n : ℕ) (buf : Bytes) (written pushed : ℕ)
  | detached
  | exited
deriving DecidableEq, Repr

/-- The log grows and readers come, read and go; the rest are the tail's steps. -/
inductive Action where
  | grow (bytes : Bytes)
  | attach
  | detach
  | consume (n : ℕ)
  | opened
  | splice
  | noSplice
  | copy
  | read (n : ℕ)
  | eof
  | push (k : ℕ)
  | returned
  | epipe
  | close
  | exit
deriving DecidableEq, Repr

end Tail

/-- `got` is history: what the readers have read. -/
structure Tail where
  log : Bytes := []
  off : ℕ := 0
  fifo : Fifo UInt8 := {}
  useSplice : Bool := true
  phase : Tail.Phase := .opening
  got : Bytes := []
deriving DecidableEq, Repr

namespace Tail

/-- The bytes that the call under way is to put into the FIFO next. -/
def next (chunk : ℕ) (t : Tail) : Bytes :=
  match t.phase with
  | .splicing moved => (t.log.drop (t.off + moved)).take (chunk - moved)
  | .writing _ _ buf written pushed => buf.drop (written + pushed)
  | _ => []

/-- The call under way has put `k` more bytes into the FIFO. -/
def Phase.push (k : ℕ) : Phase → Phase
  | .splicing moved => .splicing (moved + k)
  | .writing start n buf written pushed => .writing start n buf written (pushed + k)
  | phase => phase

/-- A buffer has been written: `relay_rw` returns, `io.Copy` reads on. -/
def wrote (lang : Language) (start n : ℕ) (buf : Bytes) : Phase :=
  match lang with
  | .go => .copying start (n + buf.length)
  | _ => .attached

def exit (t : Tail) : Tail := { t with fifo := t.fifo.closeWriter, phase := .exited }

def step (lang : Language) (chunk capacity : ℕ) (t : Tail) : Action → Option Tail
  | .grow bytes => some { t with log := t.log ++ bytes }
  | .attach => some { t with fifo := t.fifo.attach }
  | .detach => if 0 < t.fifo.readers then some { t with fifo := t.fifo.detach } else none
  | .consume n => (t.fifo.take? n).map fun (bytes, fifo) => { t with fifo, got := t.got ++ bytes }
  | .opened =>
    if t.phase = .opening ∧ 0 < t.fifo.readers then
      some { t with fifo := t.fifo.openWriter, phase := .attached }
    else none
  | .splice =>
    if t.phase = .attached ∧ lang ≠ .go ∧ t.useSplice then some { t with phase := .splicing 0 }
    else none
  | .noSplice =>
    if t.phase = .splicing 0 then some { t with useSplice := false, phase := .attached } else none
  | .copy =>
    if t.phase = .attached ∧ lang = .go then some { t with phase := .copying t.off 0 } else none
  | .read k =>
    let buf := (t.log.drop t.off).take k
    if buf ≠ [] ∧ k ≤ chunk then
      match t.phase with
      | .attached =>
        if lang ≠ .go ∧ t.useSplice = false then
          some { t with off := t.off + buf.length, phase := .writing t.off 0 buf 0 0 }
        else none
      | .copying start n =>
        some { t with off := t.off + buf.length, phase := .writing start n buf 0 0 }
      | _ => none
    else none
  | .eof =>
    match t.phase with
    | .copying _ _ => if t.log.length ≤ t.off then some { t with phase := .attached } else none
    | _ => none
  | .push k =>
    (t.fifo.put? capacity ((t.next chunk).take k)).map fun fifo =>
      { t with fifo, phase := t.phase.push ((t.next chunk).take k).length }
  | .returned =>
    match t.phase with
    | .splicing moved => some { t with off := t.off + moved, phase := .attached }
    | .writing start n buf written pushed =>
      some { t with
        phase :=
          if written + pushed = buf.length then wrote lang start n buf
          else .writing start n buf (written + pushed) 0 }
    | _ => none
  | .epipe =>
    if t.fifo.readers = 0 then
      match t.phase with
      | .splicing 0 => some { t with phase := .detached }
      | .writing start n _ written 0 =>
        some { t with off := start + n + written, phase := .detached }
      | _ => none
    else none
  | .close =>
    if t.phase = .detached then some { t with fifo := t.fifo.closeWriter, phase := .opening }
    else none
  | .exit => if t.phase = .exited then none else some t.exit

end Tail

/-- The tail over a FIFO of that capacity, with buffers of that size. -/
def tail (lang : Language) (chunk capacity : ℕ) : Machine Tail Tail.Action where
  init := {}
  step := Tail.step lang chunk capacity

namespace Tail

variable {lang : Language} {chunk capacity : ℕ} {t u : Tail}

/-- Where the FIFO is left without an end, it is empty, or the tail is over. -/
def Kept (t : Tail) : Action → Prop
  | .close => t.fifo.readers = 0 → t.fifo.content = []
  | .detach =>
    t.fifo.readers = 1 → t.fifo.writer = false → t.phase ≠ .exited → t.fifo.content = []
  | _ => True

instance (t : Tail) : (a : Action) → Decidable (t.Kept a)
  | .close => inferInstanceAs (Decidable (_ → _))
  | .detach => inferInstanceAs (Decidable (_ → _))
  | .grow _ | .attach | .consume _ | .opened | .splice | .noSplice | .copy | .read _ | .eof
  | .push _ | .returned | .epipe | .exit => isTrue trivial

/-- How much of the log has gone into the FIFO. -/
def pos (t : Tail) : ℕ :=
  match t.phase with
  | .splicing moved => t.off + moved
  | .writing start n _ written pushed => start + n + (written + pushed)
  | _ => t.off

/-- The readers have had, or find in the FIFO, the log up to there; what a call is to write comes
next in the log. -/
structure Inv (t : Tail) : Prop where
  writer : t.fifo.writer = false → t.phase = .opening ∨ t.phase = .exited
  inside : t.phase ≠ .exited → t.pos ≤ t.log.length
  writing : ∀ start n buf written pushed, t.phase = .writing start n buf written pushed →
    t.off = start + n + buf.length ∧ written + pushed ≤ buf.length ∧
      buf <+: t.log.drop (start + n)
  copying : ∀ start n, t.phase = .copying start n → t.off = start + n
  got : if t.phase = .exited then t.got ++ t.fifo.content <+: t.log
    else t.got ++ t.fifo.content = t.log.take t.pos

theorem Inv.got_begins_log (inv : t.Inv) : t.got <+: t.log := by
  have got := inv.got
  split at got
  · exact (List.prefix_append _ _).trans got
  · exact (List.prefix_append _ _).trans (got ▸ List.take_prefix _ _)

/-- What a call puts into the FIFO next follows on what went in before. -/
theorem Inv.next_prefix (inv : t.Inv) : t.next chunk <+: t.log.drop t.pos := by
  rw [next, pos]
  split
  · exact List.take_prefix _ _
  · next start n buf written pushed here =>
    obtain ⟨-, -, follows⟩ := inv.writing start n buf written pushed here
    have later := follows.drop (written + pushed)
    rw [List.drop_drop] at later
    exact later
  · exact List.nil_prefix

theorem take_append_of_prefix {α : Type*} {whole items : List α} {n : ℕ}
    (follows : items <+: whole.drop n) : whole.take n ++ items = whole.take (n + items.length) := by
  rw [List.take_add, ← List.prefix_iff_eq_take.mp follows]

/-- A step that moves the tail and not the FIFO, at the same position. -/
theorem Inv.moved (inv : t.Inv) {off : ℕ} {phase : Phase} {useSplice : Bool}
    (alive : t.phase ≠ .opening ∧ t.phase ≠ .exited) (alive' : phase ≠ .exited)
    (pos : ({ t with off, phase, useSplice } : Tail).pos = t.pos)
    (writing : ∀ start n buf written pushed, phase = .writing start n buf written pushed →
      off = start + n + buf.length ∧ written + pushed ≤ buf.length ∧
        buf <+: t.log.drop (start + n))
    (copying : ∀ start n, phase = .copying start n → off = start + n) :
    ({ t with off, phase, useSplice } : Tail).Inv := by
  refine ⟨fun closed => ?_, ?_, writing, copying, ?_⟩
  · rcases inv.writer closed with opening | ended
    · exact absurd opening alive.1
    · exact absurd ended alive.2
  · rw [pos]
    exact fun _ => inv.inside alive.2
  · have got := inv.got
    rw [if_neg alive.2] at got
    rw [if_neg alive', pos]
    exact got

theorem Inv.content_prefix (inv : t.Inv) : t.got ++ t.fifo.content <+: t.log := by
  have got := inv.got
  split at got
  · exact got
  · exact got ▸ List.take_prefix _ _

/-- Where the tail is over, what is in the FIFO may be lost. -/
theorem Inv.ended (inv : t.Inv) {fifo : Fifo UInt8}
    (content : fifo.content = t.fifo.content ∨ fifo.content = []) :
    ({ t with fifo, phase := .exited } : Tail).Inv := by
  refine ⟨fun _ => .inr rfl, fun alive => absurd rfl alive, nofun, nofun, ?_⟩
  change t.got ++ fifo.content <+: t.log
  rcases content with same | empty
  · rw [same]
    exact inv.content_prefix
  · rw [empty, List.append_nil]
    exact inv.got_begins_log

/-- The FIFO changes, but what is in it stays. -/
theorem Inv.kept (inv : t.Inv) {fifo : Fifo UInt8} {phase : Phase}
    (alive : t.phase ≠ .exited) (alive' : phase ≠ .exited)
    (content : fifo.content = t.fifo.content) (writer : fifo.writer = false → phase = .opening)
    (pos : ({ t with fifo, phase } : Tail).pos = t.pos)
    (writing : ∀ start n buf written pushed, phase = .writing start n buf written pushed →
      t.phase = .writing start n buf written pushed)
    (copying : ∀ start n, phase = .copying start n → t.phase = .copying start n) :
    ({ t with fifo, phase } : Tail).Inv := by
  refine ⟨fun closed => .inl (writer closed), ?_, ?_, ?_, ?_⟩
  · rw [pos]
    exact fun _ => inv.inside alive
  · exact fun start n buf written pushed here =>
      inv.writing start n buf written pushed (writing start n buf written pushed here)
  · exact fun start n here => inv.copying start n (copying start n here)
  · have got := inv.got
    rw [if_neg alive] at got
    rw [if_neg alive', pos, content]
    exact got

/-- Only a call under way has something to put into the FIFO. -/
theorem next_eq_nil (splicing : ∀ moved, t.phase ≠ .splicing moved)
    (writing : ∀ start n buf written pushed, t.phase ≠ .writing start n buf written pushed) :
    t.next chunk = [] := by
  rw [next]
  split
  · next moved here => exact absurd here (splicing moved)
  · next start n buf written pushed here => exact absurd here (writing start n buf written pushed)
  · rfl

/-- A call puts the next bytes of the log into the FIFO. -/
theorem Inv.push {k : ℕ} {fifo : Fifo UInt8} (inv : t.Inv)
    (put : t.fifo.put? capacity ((t.next chunk).take k) = some fifo) :
    ({ t with fifo, phase := t.phase.push ((t.next chunk).take k).length } : Tail).Inv := by
  have follows : (t.next chunk).take k <+: t.log.drop t.pos :=
    (List.take_prefix _ _).trans inv.next_prefix
  obtain ⟨some', -, -, rfl⟩ := Fifo.put?_eq_some put
  have alive : t.phase ≠ .exited := by
    intro ended
    rw [next_eq_nil (by rw [ended]; exact nofun) (by rw [ended]; exact nofun)] at some'
    exact some' (List.take_nil)
  have long := follows.length_le
  have inside := inv.inside alive
  have got := inv.got
  rw [if_neg alive] at got
  have more : t.got ++ (t.fifo.content ++ (t.next chunk).take k) =
      t.log.take (t.pos + ((t.next chunk).take k).length) := by
    rw [← List.append_assoc, got, take_append_of_prefix follows]
  rw [List.length_drop] at long
  cases here : t.phase with
  | splicing moved =>
    have at' : t.pos = t.off + moved := by rw [pos, here]
    rw [at'] at inside long more
    refine ⟨fun closed => ?_, fun _ => ?_, nofun, nofun, ?_⟩
    · rcases inv.writer closed with other | other <;> rw [here] at other <;> cases other
    · change t.off + (moved + _) ≤ t.log.length
      omega
    · rw [Nat.add_assoc] at more
      exact more
  | writing start n buf written pushed =>
    obtain ⟨off, fits, prefix'⟩ := inv.writing start n buf written pushed here
    have fits' : ((t.next chunk).take k).length ≤ buf.length - (written + pushed) := by
      rw [next, here, ← List.length_drop]
      exact List.length_take_le' _ _
    have at' : t.pos = start + n + (written + pushed) := by rw [pos, here]
    rw [at'] at inside long more
    refine ⟨fun closed => ?_, fun _ => ?_, ?_, nofun, ?_⟩
    · rcases inv.writer closed with other | other <;> rw [here] at other <;> cases other
    · change start + n + (written + (pushed + _)) ≤ t.log.length
      omega
    · intro start' n' buf' written' pushed' now
      cases now
      exact ⟨off, by omega, prefix'⟩
    · rw [Nat.add_assoc (start + n), Nat.add_assoc written] at more
      exact more
  | _ =>
    rw [next_eq_nil (by rw [here]; exact nofun) (by rw [here]; exact nofun)] at some'
    exact absurd List.take_nil some'

theorem Inv.keeps {a : Action} (inv : t.Inv) (kept : t.Kept a)
    (taken : step lang chunk capacity t a = some u) : u.Inv := by
  cases a with
  | grow bytes =>
    cases taken
    have inside := inv.inside
    refine ⟨inv.writer, ?_, ?_, inv.copying, ?_⟩
    · intro alive
      change t.pos ≤ (t.log ++ bytes).length
      rw [List.length_append]
      exact (inside alive).trans (Nat.le_add_right _ _)
    · intro start n buf written pushed here
      obtain ⟨off, fits, follows⟩ := inv.writing start n buf written pushed here
      refine ⟨off, fits, follows.trans ?_⟩
      exact (List.prefix_append _ _).drop _
    · have got := inv.got
      change if t.phase = .exited then t.got ++ t.fifo.content <+: t.log ++ bytes
        else t.got ++ t.fifo.content = (t.log ++ bytes).take t.pos
      split
      · next ended =>
        rw [if_pos ended] at got
        exact got.trans (List.prefix_append _ _)
      · next running =>
        rw [if_neg running] at got
        rw [List.take_append_of_le_length (inside running)]
        exact got
  | attach =>
    cases taken
    exact { inv with }
  | detach =>
    obtain ⟨reader, same⟩ := Option.ite_none_right_eq_some.mp taken
    cases same
    by_cases ended : t.phase = .exited
    · have after := inv.ended (Fifo.settle_content_or { t.fifo with readers := t.fifo.readers - 1 })
      rw [← ended] at after
      exact after
    · have content : t.fifo.detach.content = t.fifo.content := by
        apply Fifo.settle_content
        intro last closed
        exact kept (by simp only at last; omega) closed ended
      have writer : t.fifo.detach.writer = t.fifo.writer := Fifo.settle_writer _
      refine inv.kept ended ended content (fun closed => ?_) rfl (fun _ _ _ _ _ => id) fun _ _ => id
      exact (inv.writer (writer ▸ closed)).resolve_right ended
  | consume n =>
    obtain ⟨⟨bytes, fifo⟩, took, rfl⟩ := Option.map_eq_some_iff.mp taken
    obtain ⟨content, -, writer⟩ := Fifo.take?_eq_some took
    refine ⟨fun closed => inv.writer (writer ▸ closed), inv.inside, inv.writing, inv.copying, ?_⟩
    have got := inv.got
    rw [content, ← List.append_assoc] at got
    exact got
  | opened =>
    obtain ⟨⟨opening, -⟩, same⟩ := Option.ite_none_right_eq_some.mp taken
    cases same
    refine inv.kept ?_ nofun rfl nofun ?_ nofun nofun
    · rw [opening]
      exact nofun
    · rw [pos, pos, opening]
  | splice =>
    obtain ⟨⟨attached, -⟩, same⟩ := Option.ite_none_right_eq_some.mp taken
    cases same
    refine inv.moved (by rw [attached]; exact ⟨nofun, nofun⟩) nofun ?_ nofun nofun
    rw [pos, pos, attached]
    rfl
  | noSplice =>
    obtain ⟨splicing, same⟩ := Option.ite_none_right_eq_some.mp taken
    cases same
    refine inv.moved (by rw [splicing]; exact ⟨nofun, nofun⟩) nofun ?_ nofun nofun
    rw [pos, pos, splicing]
    rfl
  | copy =>
    obtain ⟨⟨attached, -⟩, same⟩ := Option.ite_none_right_eq_some.mp taken
    cases same
    refine inv.moved (by rw [attached]; exact ⟨nofun, nofun⟩) nofun ?_ nofun ?_
    · rw [pos, pos, attached]
    · intro start n here
      cases here
      rfl
  | read k =>
    obtain ⟨⟨some', -⟩, same⟩ := Option.ite_none_right_eq_some.mp taken
    cases here : t.phase with
    | attached =>
      rw [here] at same
      obtain ⟨-, same⟩ := Option.ite_none_right_eq_some.mp same
      cases same
      refine inv.moved (by rw [here]; exact ⟨nofun, nofun⟩) nofun ?_ ?_ nofun
      · rw [pos, pos, here]
        rfl
      · intro start n buf written pushed now
        cases now
        exact ⟨rfl, Nat.zero_le _, List.take_prefix _ _⟩
    | copying start n =>
      rw [here] at same
      cases same
      have off := inv.copying start n here
      refine inv.moved (by rw [here]; exact ⟨nofun, nofun⟩) nofun ?_ ?_ nofun
      · rw [pos, pos, here]
        exact off.symm
      · intro start n buf written pushed now
        cases now
        rw [← off]
        exact ⟨rfl, Nat.zero_le _, List.take_prefix _ _⟩
    | _ =>
      rw [here] at same
      cases same
  | eof =>
    cases here : t.phase with
    | copying start n =>
      simp only [step, here] at taken
      obtain ⟨-, same⟩ := Option.ite_none_right_eq_some.mp taken
      cases same
      refine inv.moved (by rw [here]; exact ⟨nofun, nofun⟩) nofun ?_ nofun nofun
      rw [pos, pos, here]
    | _ =>
      simp only [step, here] at taken
      cases taken
  | push k =>
    obtain ⟨fifo, put, rfl⟩ := Option.map_eq_some_iff.mp taken
    exact inv.push put
  | returned =>
    cases here : t.phase with
    | splicing moved =>
      simp only [step, here] at taken
      cases taken
      refine inv.moved (by rw [here]; exact ⟨nofun, nofun⟩) nofun ?_ nofun nofun
      rw [pos, pos, here]
    | writing start n buf written pushed =>
      obtain ⟨off, fits, follows⟩ := inv.writing start n buf written pushed here
      simp only [step, here] at taken
      split_ifs at taken with all
      · cases taken
        refine inv.moved (by rw [here]; exact ⟨nofun, nofun⟩) ?_ ?_ ?_ ?_
        · cases lang <;> exact nofun
        · rw [pos, pos, here]
          cases lang <;> exact off.trans (congrArg (start + n + ·) all.symm)
        · cases lang <;> exact nofun
        · intro start' n' now
          cases lang <;> cases now
          rw [← Nat.add_assoc]
          exact off
      · cases taken
        refine inv.moved (by rw [here]; exact ⟨nofun, nofun⟩) nofun ?_ ?_ nofun
        · rw [pos, pos, here]
          rfl
        · intro start' n' buf' written' pushed' now
          cases now
          exact ⟨off, fits, follows⟩
    | _ =>
      simp only [step, here] at taken
      cases taken
  | epipe =>
    obtain ⟨-, same⟩ := Option.ite_none_right_eq_some.mp taken
    split at same
    · next here =>
      cases same
      refine inv.moved (by rw [here]; exact ⟨nofun, nofun⟩) nofun ?_ nofun nofun
      rw [pos, pos, here]
      rfl
    · next start n buf written here =>
      cases same
      refine inv.moved (by rw [here]; exact ⟨nofun, nofun⟩) nofun ?_ nofun nofun
      rw [pos, pos, here]
      rfl
    · cases same
  | close =>
    obtain ⟨detached, same⟩ := Option.ite_none_right_eq_some.mp taken
    cases same
    refine inv.kept ?_ nofun ?_ (fun _ => rfl) ?_ nofun nofun
    · rw [detached]
      exact nofun
    · exact Fifo.settle_content fun last _ => kept last
    · rw [pos, pos, detached]
  | exit =>
    obtain ⟨-, same⟩ := Option.ite_none_left_eq_some.mp taken
    cases same
    exact inv.ended (Fifo.settle_content_or { t.fifo with writer := false })

/-- In a run in which the FIFO is left only when it is empty, the readers have read the beginning of
the log, whichever calls moved it and wherever they were cut. -/
theorem got_prefix_log {acts : List Action}
    (kept : (tail lang chunk capacity).Meets Kept (tail lang chunk capacity).init acts)
    (run : (tail lang chunk capacity).run? acts = some t) : t.got <+: t.log := by
  have start : ((tail lang chunk capacity).init).Inv :=
    ⟨fun _ => .inl rfl, fun _ => le_rfl, nofun, nofun, rfl⟩
  exact (@Machine.run?_keeps_of_meets _ _ _ Inv Kept start
    (fun _ _ _ inv here taken => Inv.keeps inv here taken) _ _ kept run).got_begins_log

/-- A reader goes and another one comes before the tail has seen it; then the tail cannot splice. -/
def handover : List Action := [.grow [1, 2, 3], .attach, .opened, .splice, .push 2, .returned,
  .consume 1, .detach, .splice, .epipe, .attach, .close, .opened, .consume 1, .splice, .noSplice,
  .read 8, .push 1, .returned, .consume 1]

theorem got_prefix_log_handover : ∃ t, (tail .cpp 8 4).run? handover = some t ∧
    t.got = [1, 2, 3] ∧ t.got <+: t.log := by
  obtain ⟨t, run⟩ : ∃ t, (tail .cpp 8 4).run? handover = some t := ⟨_, rfl⟩
  have same : t.got = [1, 2, 3] := by
    have got := congrArg (Option.map Tail.got) run
    exact (Option.some.inj got).symm
  exact ⟨t, run, same, got_prefix_log (by decide) run⟩

/-- A reader goes before it has read anything, and the tail sees it before the next one comes. -/
def churn (lang : Language) : List Action :=
  [.grow [1, 2], .attach, .opened] ++
    (match lang with
      | .go => [.copy, .read 1, .push 1, .returned, .detach, .read 1, .epipe]
      | _ => [.splice, .push 1, .returned, .detach, .splice, .epipe]) ++
    [.close, .attach, .opened] ++
    (match lang with
      | .go => [.copy, .read 1]
      | _ => [.splice]) ++
    [.push 1, .consume 1]

/-- The next one does not get the first byte of the log. -/
theorem not_got_prefix_log :
    (∃ t, (tail .cpp 8 4).run? (churn .cpp) = some t ∧ t.got = [2] ∧ ¬ t.got <+: t.log) ∧
    (∃ t, (tail .rust 8 4).run? (churn .rust) = some t ∧ t.got = [2] ∧ ¬ t.got <+: t.log) ∧
    ∃ t, (tail .go 8 4).run? (churn .go) = some t ∧ t.got = [2] ∧ ¬ t.got <+: t.log :=
  ⟨⟨_, rfl, rfl, by decide⟩, ⟨_, rfl, rfl, by decide⟩, ⟨_, rfl, rfl, by decide⟩⟩

end Tail

end LinuxSys.Pmon
