import LinuxSys.Pidfd.Ideal

/-! # The waits of pmon ch13 end

In either engine a wait with something to find can end by steps of the program alone, however many
SIGCHLDs are stale.
-/

namespace LinuxSys.Pidfd

open Lib

variable {l : Language}

namespace State

variable {e : Engine} {opts : Opts l} {s t : State}

/-- The program goes on in its wait by itself. -/
def Moves (e : Engine) (opts : Opts l) (s t : State) : Prop :=
  ∃ moves : List Move, (supervise e opts).runFrom? s (moves.map .move) = some t

namespace Moves

variable {u : State}

theorem refl (s : State) : s.Moves e opts s := ⟨[], rfl⟩

theorem cons (m : Move) (waiting : s.sup.phase = .waiting ∨ m = .close)
    (taken : s.move e opts m = some t) (later : t.Moves e opts u) : s.Moves e opts u := by
  obtain ⟨moves, run⟩ := later
  have step : (supervise e opts).step s (.move m) = some t := by
    change (if _ then _ else _) = _
    rw [if_pos waiting, taken]
  exact ⟨m :: moves, (Machine.runFrom?_cons step _).trans run⟩

theorem one (m : Move) (waiting : s.sup.phase = .waiting ∨ m = .close)
    (taken : s.move e opts m = some t) : s.Moves e opts t := cons m waiting taken (refl t)

/-- A stop signal is read first. -/
theorem read (waiting : s.sup.phase = .waiting) (here : s.wait = .woken)
    (stop : s.sup.stop = true) : s.Moves e opts (s.setPhase (.leaving .signal)) :=
  one .read (.inl waiting) ((if_pos here).trans (if_pos stop))

/-- A dead child is found. -/
theorem check (waiting : s.sup.phase = .waiting) (here : s.wait = .checking)
    (dead : s.sup.child.isDead = true) : s.Moves e opts (s.setPhase .exited) :=
  one .check (.inl waiting) ((if_pos here).trans (if_pos dead))

end Moves

/-- The wait can end by steps of the program alone. -/
def Ends (e : Engine) (opts : Opts l) (s : State) : Prop :=
  ∃ t, s.Moves e opts t ∧ t.sup.phase ≠ .waiting

/-- There is something to find. -/
def Due (opts : Opts l) (s : State) : Prop :=
  s.sup.stop = true ∨ s.sup.child.isDead = true ∨ opts.deadline ≤ s.sup.clock

namespace Ends

theorem of_move (m : Move) (waiting : s.sup.phase = .waiting) (taken : s.move e opts m = some t)
    (later : t.Ends e opts) : s.Ends e opts := by
  obtain ⟨last, moves, out⟩ := later
  exact ⟨last, moves.cons m (.inl waiting) taken, out⟩

theorem at_once (m : Move) (phase : Phase) (waiting : s.sup.phase = .waiting)
    (taken : s.move e opts m = some (s.setPhase phase)) (out : phase ≠ .waiting) :
    s.Ends e opts := ⟨_, .one m (.inl waiting) taken, out⟩

variable {expiry : ℕ}

theorem pidfd_polling (inv : s.Inv .pidfd opts) (waiting : s.sup.phase = .waiting)
    (due : s.Due opts) (here : s.wait = .polling expiry) : s.Ends .pidfd opts := by
  by_cases stop : s.sup.stop = true
  · exact at_once .look (.leaving .signal) waiting (by simp [State.move, here, stop]) (by simp)
  by_cases dead : s.sup.child.isDead = true
  · exact at_once .look .exited waiting (by simp [State.move, here, stop, dead]) (by simp)
  have late : opts.deadline ≤ s.sup.clock := by simpa [Due, stop, dead] using due
  have past : expiry ≤ s.sup.clock := by
    have least := (inv.polls expiry here).1
    omega
  exact at_once .look (.leaving .timeout) waiting (by simp [State.move, here, stop, dead, past])
    (by simp)

theorem woken_stop (waiting : s.sup.phase = .waiting) (stop : s.sup.stop = true)
    (here : s.wait = .woken) : s.Ends e opts := ⟨_, .read waiting here stop, by simp⟩

/-- A SIGCHLD that is stale is read and sends the wait back to its head, where there is one less. -/
theorem sigchld_polling (n : ℕ) (inv : s.Inv .sigchld opts) (waiting : s.sup.phase = .waiting)
    (due : s.Due opts) (here : s.wait = .polling expiry) (pending : s.chld = n) :
    s.Ends .sigchld opts := by
  have lang : l ≠ .go := by
    have place := inv.place
    rwa [here] at place
  induction n generalizing s expiry with
  | zero =>
    by_cases stop : s.sup.stop = true
    · have woken : s.move .sigchld opts .wake = some (s.setWait .woken) := by
        simp [State.move, here, stop]
      exact of_move .wake waiting woken (woken_stop waiting stop rfl)
    have alive : s.sup.child.isDead = false := by
      by_contra dead
      have heard := inv.heard rfl waiting (by simpa using dead) (by simp [here])
      omega
    have late : opts.deadline ≤ s.sup.clock := by simpa [Due, stop, alive] using due
    have past : expiry ≤ s.sup.clock := by
      have least := (inv.polls expiry here).1
      omega
    exact at_once .wake (.leaving .timeout) waiting
      (by simp [State.move, here, stop, pending, past]) (by simp)
  | succ n ih =>
    have woken : s.move .sigchld opts .wake = some (s.setWait .woken) := by
      simp [State.move, here, pending]
    have inv := inv.move woken
    refine of_move .wake waiting woken ?_
    by_cases stop : s.sup.stop = true
    · exact woken_stop waiting stop rfl
    have read : (s.setWait .woken).move .sigchld opts .read =
        some { s with wait := .checking, chld := n } := by
      simp [State.move, setWait, stop, pending]
    have inv := inv.move read
    refine of_move .read waiting read ?_
    by_cases dead : s.sup.child.isDead = true
    · exact ⟨_, .check waiting rfl dead, by simp⟩
    have check : ({ s with wait := .checking, chld := n } : State).move .sigchld opts .check =
        some { s with wait := .head, chld := n } := by
      simp [State.move, setWait, dead]
    have inv := inv.move check
    refine of_move .check waiting check ?_
    have poll : ({ s with wait := .head, chld := n } : State).move .sigchld opts .poll =
        some { s with wait := .polling (opts.expiry s.sup.clock), chld := n } := by
      simp [State.move, setWait, lang]
    exact of_move .poll waiting poll (ih (inv.move poll) waiting due rfl rfl)

/-- From the head of the wait. -/
theorem head (inv : s.Inv e opts) (waiting : s.sup.phase = .waiting) (due : s.Due opts)
    (here : s.wait = .head) : s.Ends e opts := by
  by_cases lang : l = .go
  · subst lang
    rcases due with stop | dead | late
    · exact at_once (.pick .stop) (.leaving .signal) waiting
        (by cases e <;> simp [State.move, here, stop]) (by simp)
    · cases e with
      | pidfd =>
        have close : s.move .pidfd opts .close = some { s with closed := true } := by
          simp [State.move, dead]
        exact of_move .close waiting close
          (at_once (.pick .exited) .exited waiting (by simp [State.move, here]) (by simp))
      | sigchld =>
        have heard := inv.heard rfl waiting dead (by simp [here])
        have read : s.move .sigchld opts (.pick .chld) =
            some { s with wait := .checking, chld := s.chld - 1 } := by
          simp [State.move, here, heard]
        exact of_move (.pick .chld) waiting read ⟨_, .check waiting rfl dead, by simp⟩
    · exact at_once (.pick .deadline) (.leaving .timeout) waiting
        (by cases e <;> simp [State.move, here, late]) (by simp)
  · have poll : s.move e opts .poll = some (s.setWait (.polling (opts.expiry s.sup.clock))) := by
      simp [State.move, here, lang]
    have moved := inv.move poll
    refine of_move .poll waiting poll ?_
    cases e with
    | pidfd => exact pidfd_polling moved waiting due rfl
    | sigchld => exact sigchld_polling s.chld moved waiting due rfl rfl

theorem checking (inv : s.Inv e opts) (waiting : s.sup.phase = .waiting) (due : s.Due opts)
    (here : s.wait = .checking) : s.Ends e opts := by
  by_cases dead : s.sup.child.isDead = true
  · exact ⟨_, .check waiting here dead, by simp⟩
  · have check : s.move e opts .check = some (s.setWait .head) := by
      simp [State.move, here, dead]
    exact of_move .check waiting check (head (inv.move check) waiting due rfl)

/-- A wait that has something to find can end. -/
theorem of_due (inv : s.Inv e opts) (waiting : s.sup.phase = .waiting) (due : s.Due opts) :
    s.Ends e opts := by
  cases here : s.wait with
  | head => exact head inv waiting due here
  | polling expiry =>
    cases e with
    | pidfd => exact pidfd_polling inv waiting due here
    | sigchld => exact sigchld_polling s.chld inv waiting due here rfl
  | woken =>
    by_cases stop : s.sup.stop = true
    · exact woken_stop waiting stop here
    have read : s.move e opts .read = some { s with wait := .checking, chld := s.chld - 1 } := by
      simp [State.move, here, stop]
    exact of_move .read waiting read (checking (inv.move read) waiting due rfl)
  | checking => exact checking inv waiting due here

end Ends

end State

end LinuxSys.Pidfd
