import LinuxSys.Chatterd.Session

/-! # When a session of ch24 times out

A session should end `--timeout-ms` after its peer's last whole frame, no sooner and no later;
`poll` counts in milliseconds, so that in C++ the end may come one millisecond after. Bytes of a
frame that is never finished keep a C++ session alive, and the end is missed where the time-out
does not fit the number it is put in.
-/

namespace LinuxSys.Chatterd.Session

open Lib

/-- The time-out in nanoseconds. -/
def Opts.limit (o : Opts) : ℕ := o.timeoutMs * milli

structure Cpp.Right (o : Opts) (s : Cpp) : Prop where
  silent : s.phase = .returned .timedOut → s.heard.last + o.limit ≤ s.now
  prompt : s.now ≤ s.heard.last + o.limit + milli

structure Go.Right (o : Opts) (s : Go) : Prop where
  silent : s.outcome = some .timedOut → s.heard.last + o.limit ≤ s.now
  prompt : s.now ≤ s.heard.last + o.limit

/-- Sessions that have read the same bytes at the same times and were not told to stop end in the
same way, within the millisecond. -/
def Agree (c : Cpp) (g : Go) : Prop :=
  c.reads = g.reads → ∀ one other, c.phase = .returned one → g.outcome = some other →
    one ≠ .shutdown → other ≠ .shutdown →
      one = other ∧ c.talk = g.talk ∧ g.now ≤ c.now ∧ c.now ≤ g.now + milli

/-- The session waits in `poll`. -/
def Phase.polls : Phase → Bool
  | .polling _ _ => true
  | _ => false

/-- The time-out fits an `int` with one more. Nothing that is sent has to wait, and the JOIN is
sent. When bytes have come after the last whole frame, no time goes on past its time-out. No header
is foreign. -/
def Cpp.Fit (o : Opts) (s : Cpp) (a : CppAction) : Prop :=
  o.timeoutMs + 1 < 2 ^ 31 ∧
    match a with
    | .joined ok => ok = true
    | .pass d => s.phase.polls = true ∧
        (s.armed = s.heard.last ∨ s.now + d ≤ s.heard.last + o.limit + milli)
    | .wake _ _ (some (.data bytes)) => s.heard.bad bytes = false
    | _ => True

/-- The time-out fits 64 bits. Nothing that is sent has to wait, no whole frame is of type 0, and
the timer is not chosen before a frame that is there. -/
def Go.Fit (o : Opts) (s : Go) (a : GoAction) : Prop :=
  o.limit < 2 ^ 63 ∧
    match a with
    | .pass _ => s.sending = false
    | .bytes bytes => ∀ f ∈ s.heard.next bytes, f.typ ≠ 0
    | .deadline => s.queue = []
    | _ => True

instance (o : Opts) (s : Cpp) : (a : CppAction) → Decidable (s.Fit o a)
  | .joined ok => inferInstanceAs (Decidable (_ ∧ ok = true))
  | .pass d => inferInstanceAs (Decidable (_ ∧ s.phase.polls = true ∧
      (s.armed = s.heard.last ∨ s.now + d ≤ s.heard.last + o.limit + milli)))
  | .wake _ _ (some (.data bytes)) => inferInstanceAs (Decidable (_ ∧ s.heard.bad bytes = false))
  | .wake _ _ none | .wake _ _ (some .eof) | .wake _ _ (some .error)
  | .poll | .quiet | .intr | .sent => inferInstanceAs (Decidable (_ ∧ True))

instance (o : Opts) (s : Go) : (a : GoAction) → Decidable (s.Fit o a)
  | .pass _ => inferInstanceAs (Decidable (_ ∧ s.sending = false))
  | .bytes bytes => inferInstanceAs (Decidable (_ ∧ ∀ f ∈ s.heard.next bytes, f.typ ≠ 0))
  | .deadline => inferInstanceAs (Decidable (_ ∧ s.queue = []))
  | .eof | .sent | .done | .tick | .frame => inferInstanceAs (Decidable (_ ∧ True))

/-! The wait of `poll`. -/

theorem Opts.timeout_eq {o : Opts} (fits : o.limit < 2 ^ 63) : o.timeout = o.limit := by
  apply toSigned_of_lt
  · omega
  · exact_mod_cast fits

theorem limit_lt {o : Opts} (fits : o.timeoutMs + 1 < 2 ^ 31) : o.limit < 2 ^ 63 := by
  rw [Opts.limit, milli]
  omega

/-- A wait for a time left of no more than the time-out is not cut. -/
theorem pollMs_eq {o : Opts} {left : ℤ} (fits : o.timeoutMs + 1 < 2 ^ 31) (most : left ≤ o.limit)
    (some' : 0 < left) : pollMs left = left / milli + 1 := by
  have unit : (milli : ℤ) = 1000000 := rfl
  have limit : (o.limit : ℤ) = o.timeoutMs * milli := by
    rw [Opts.limit]
    push_cast
    rfl
  have few : left / milli ≤ o.timeoutMs := by
    rw [unit] at limit ⊢
    omega
  have least : 0 ≤ left / milli := by
    rw [unit]
    omega
  have short : toSigned 32 (left / milli) = left / milli :=
    @toSigned_of_lt 31 _ (by omega) (by omega)
  rw [pollMs, if_neg (not_le.mpr some'), short]
  exact @toSigned_of_lt 31 _ (by omega) (by omega)

theorem pollMs_nonneg {o : Opts} {left : ℤ} (fits : o.timeoutMs + 1 < 2 ^ 31)
    (most : left ≤ o.limit) : 0 ≤ pollMs left := by
  by_cases elapsed : left ≤ 0
  · rw [pollMs, if_pos elapsed]
  · rw [pollMs_eq fits most (not_le.mp elapsed)]
    have unit : (milli : ℤ) = 1000000 := rfl
    rw [unit]
    omega

/-- The wait is over when no time is left. -/
theorem le_pollMs {o : Opts} {left : ℤ} (fits : o.timeoutMs + 1 < 2 ^ 31)
    (most : left ≤ o.limit) : left ≤ pollMs left * milli := by
  by_cases elapsed : left ≤ 0
  · rw [pollMs, if_pos elapsed]
    omega
  · rw [pollMs_eq fits most (not_le.mp elapsed)]
    have unit : (milli : ℤ) = 1000000 := rfl
    rw [unit]
    omega

/-- It is over at most a millisecond later. -/
theorem pollMs_le {o : Opts} {left : ℤ} (fits : o.timeoutMs + 1 < 2 ^ 31)
    (most : left ≤ o.limit) (some' : 0 < left) : pollMs left * milli ≤ left + milli := by
  rw [pollMs_eq fits most some']
  have unit : (milli : ℤ) = 1000000 := rfl
  rw [unit]
  omega

/-! C++. -/

/-- What holds of the C++ session. -/
structure Cpp.Inv (o : Opts) (s : Cpp) : Prop where
  deadline : s.deadline = s.armed + o.timeout
  order : s.heard.last ≤ s.armed ∧ s.armed ≤ s.now
  heard : s.heard = heardOf s.reads
  talk : s.talk = s.heard.frames.foldl Talk.onFrame { peer := o.peer }
  polling : ∀ since ms, s.phase = .polling since ms → s.armed ≤ since ∧
    ms = pollMs (s.deadline - since) ∧ since ≤ s.now
  prompt : s.now ≤ s.heard.last + o.limit + milli
  pinging : ∀ bytes, s.phase = .pinging (some (.data bytes)) → s.heard.bad bytes = false
  messaging : ∀ bad, s.phase = .messaging bad → bad = false
  returned : ∀ outcome, s.phase = .returned outcome →
    outcome = .shutdown ∨ outcome = .timedOut ∧ s.heard.last + o.limit ≤ s.now

theorem heardOf_concat (reads : List (ℕ × Bytes)) (now : ℕ) (bytes : Bytes) :
    heardOf (reads ++ [(now, bytes)]) = (heardOf reads).read now bytes := by
  rw [heardOf, List.foldl_append]
  rfl

theorem length_of_more {buf : Bytes} (more : look buf = .more) :
    buf.length ≤ kHeader + kMaxPayload := by
  rw [kHeader, kMaxPayload]
  unfold look at more
  split at more
  · next b0 b1 b2 typ b4 b5 rest =>
    split_ifs at more with foreign short
    have bound := be16_lt b4 b5
    simp only [List.length_cons]
    omega
  · next other =>
    by_contra long
    match buf, other, long with
    | b0 :: b1 :: b2 :: typ :: b4 :: b5 :: rest, other, _ =>
      exact other b0 b1 b2 typ b4 b5 rest rfl
    | [], _, long | [_], _, long | [_, _], _, long | [_, _, _], _, long | [_, _, _, _], _, long
    | [_, _, _, _, _], _, long => simp at long

/-- The buffer never holds more than the frame in progress. -/
theorem length_buf_le (h : Heard) (now : ℕ) {bytes : Bytes} (good : h.bad bytes = false) :
    (h.read now bytes).buf.length ≤ kHeader + kMaxPayload := by
  have stalled := wire.parse_tail_stalled (h.buf ++ bytes)
  have known : wire.look (wire.parse (h.buf ++ bytes)).2 ≠ .desync := of_decide_eq_false good
  apply length_of_more
  cases seen : look (wire.parse (h.buf ++ bytes)).2 with
  | more => exact seen
  | desync => exact absurd seen known
  | frame f n => exact absurd seen (stalled f n)

theorem last_read_le {h : Heard} {now : ℕ} (before : h.last ≤ now) (bytes : Bytes) :
    (h.read now bytes).last ≤ now := by
  rw [Heard.read]
  split
  · exact before
  · exact le_rfl

theorem le_last_read {h : Heard} {now : ℕ} (before : h.last ≤ now) (bytes : Bytes) :
    h.last ≤ (h.read now bytes).last := by
  rw [Heard.read]
  split
  · exact le_rfl
  · exact before

theorem Cpp.onData_now (o : Opts) (s : Cpp) (bytes : Bytes) : (s.onData o bytes).now = s.now := by
  rw [onData]

theorem Cpp.onData_heard (o : Opts) (s : Cpp) (bytes : Bytes) :
    (s.onData o bytes).heard = s.heard.read s.now bytes := by
  rw [onData]

theorem Cpp.Inv.onData {o : Opts} {s : Cpp} {bytes : Bytes} (inv : s.Inv o)
    (good : s.heard.bad bytes = false) : (s.onData o bytes).Inv o := by
  have before := inv.order.1.trans inv.order.2
  have bad : (s.heard.bad bytes ||
      decide (kHeader + kMaxPayload < (s.heard.read s.now bytes).buf.length)) = false := by
    rw [good, Bool.false_or]
    exact decide_eq_false (not_lt.mpr (length_buf_le s.heard s.now good))
  have phase : (s.onData o bytes).phase = .messaging false ∨
      (s.onData o bytes).phase = .working := by
    simp only [Cpp.onData, bad]
    split
    · exact .inl rfl
    · exact .inr rfl
  refine ⟨rfl, ⟨last_read_le before bytes, le_rfl⟩, ?_, ?_, ?_, ?_, ?_, ?_, ?_⟩
  · change s.heard.read s.now bytes = heardOf (s.reads ++ [(s.now, bytes)])
    rw [heardOf_concat, ← inv.heard]
  · change (s.heard.next bytes).foldl Talk.onFrame s.talk =
      (s.heard.frames ++ s.heard.next bytes).foldl Talk.onFrame _
    rw [List.foldl_append, inv.talk]
  · intro since ms polling
    rcases phase with other | other <;> rw [other] at polling <;> cases polling
  · have later := le_last_read before bytes
    have prompt := inv.prompt
    rw [Cpp.onData_now, Cpp.onData_heard]
    omega
  · intro more pinging
    rcases phase with other | other <;> rw [other] at pinging <;> cases pinging
  · intro wrong messaging
    rcases phase with other | other <;> rw [other] at messaging <;> cases messaging
    rfl
  · intro outcome returned
    rcases phase with other | other <;> rw [other] at returned <;> cases returned

/-- A step that only moves the session to a place where it does not wait. -/
theorem Cpp.Inv.move {o : Opts} {s : Cpp} (inv : s.Inv o) {phase : Phase} (sockDead : Bool)
    (polling : ∀ since ms, phase ≠ .polling since ms)
    (pinging : ∀ bytes, phase = .pinging (some (.data bytes)) → s.heard.bad bytes = false)
    (messaging : ∀ bad, phase = .messaging bad → bad = false)
    (returned : ∀ outcome, phase = .returned outcome →
      outcome = .shutdown ∨ outcome = .timedOut ∧ s.heard.last + o.limit ≤ s.now) :
    ({ s with phase, sockDead } : Cpp).Inv o :=
  { inv with
    polling := fun since ms here => absurd here (polling since ms)
    pinging, messaging, returned }

theorem Cpp.Inv.working {o : Opts} {s : Cpp} (inv : s.Inv o) (sockDead : Bool) :
    ({ s with phase := .working, sockDead } : Cpp).Inv o :=
  inv.move sockDead (fun _ _ => nofun) nofun nofun nofun

theorem Cpp.Inv.onSock {o : Opts} {s : Cpp} {sock : Option Read} (inv : s.Inv o)
    (good : ∀ bytes, sock = some (.data bytes) → s.heard.bad bytes = false) :
    (s.onSock o sock).Inv o := by
  cases sock with
  | none => exact inv.working s.sockDead
  | some read =>
    cases read with
    | data bytes => exact inv.onData (good bytes rfl)
    | eof => exact inv.working true
    | error => exact inv.working true

/-- A C++ session that waits. -/
theorem Cpp.Inv.pass {o : Opts} {s : Cpp} {d since : ℕ} {ms : ℤ} (inv : s.Inv o)
    (fits : o.timeoutMs + 1 < 2 ^ 31) (polling : s.phase = .polling since ms)
    (soon : s.armed = s.heard.last ∨ s.now + d ≤ s.heard.last + o.limit + milli)
    (waits : ms < 0 ∨ (s.now + d : ℤ) ≤ since + ms * milli) :
    ({ s with now := s.now + d } : Cpp).Inv o := by
  obtain ⟨set, rfl, started⟩ := inv.polling since ms polling
  have limit := Opts.timeout_eq (limit_lt fits)
  have deadline := inv.deadline
  have most : s.deadline - since ≤ o.limit := by omega
  have prompt : s.now + d ≤ s.heard.last + o.limit + milli := by
    rcases soon with whole | soon
    · have waits : (s.now + d : ℤ) ≤ since + pollMs (s.deadline - since) * milli :=
        waits.resolve_left (not_lt.mpr (pollMs_nonneg fits most))
      by_cases elapsed : s.deadline - since ≤ 0
      · rw [pollMs, if_pos elapsed] at waits
        have before := inv.prompt
        omega
      · have late := pollMs_le fits most (not_le.mp elapsed)
        omega
    · exact soon
  refine ⟨inv.deadline, ⟨inv.order.1, inv.order.2.trans (Nat.le_add_right _ _)⟩, inv.heard,
    inv.talk, fun since' ms' again => ?_, prompt, inv.pinging, inv.messaging,
    fun outcome returned => ?_⟩
  · obtain ⟨set', same, started'⟩ := inv.polling since' ms' again
    exact ⟨set', same, started'.trans (Nat.le_add_right _ _)⟩
  · rw [show s.phase = _ from returned] at polling
    cases polling

theorem Cpp.Inv.quiet {o : Opts} {s : Cpp} {since : ℕ} {ms : ℤ} (inv : s.Inv o)
    (fits : o.timeoutMs + 1 < 2 ^ 31) (polling : s.phase = .polling since ms)
    (elapsed : since + ms * milli ≤ s.now) :
    ({ s with phase := .returned .timedOut } : Cpp).Inv o := by
  obtain ⟨set, rfl, started⟩ := inv.polling since ms polling
  have limit := Opts.timeout_eq (limit_lt fits)
  have deadline := inv.deadline
  have whole := @le_pollMs o (s.deadline - since) fits (by omega)
  have order := inv.order
  refine inv.move s.sockDead (fun _ _ => nofun) nofun nofun fun outcome returned => ?_
  cases returned
  exact .inr ⟨rfl, by omega⟩

theorem Cpp.Inv.keeps {o : Opts} {s t : Cpp} {a : CppAction} (inv : s.Inv o) (fit : s.Fit o a)
    (taken : s.step o a = some t) : t.Inv o := by
  obtain ⟨fits, fit⟩ := fit
  cases a with
  | joined ok =>
    simp only at fit
    subst fit
    cases here : s.phase <;> simp only [Cpp.step, here, if_true] at taken <;> cases taken
    have before := inv.order.1.trans inv.order.2
    exact ⟨rfl, ⟨before, le_rfl⟩, inv.heard, inv.talk, fun _ _ => nofun, inv.prompt, nofun, nofun,
      nofun⟩
  | poll =>
    cases here : s.phase <;> simp only [Cpp.step, here] at taken <;> cases taken
    refine ⟨inv.deadline, inv.order, inv.heard, inv.talk, fun since ms polling => ?_, inv.prompt,
      nofun, nofun, nofun⟩
    cases polling
    exact ⟨inv.order.2, rfl, le_rfl⟩
  | pass d =>
    obtain ⟨polls, soon⟩ := fit
    cases here : s.phase with
    | polling since ms =>
      simp only [Cpp.step, here] at taken
      obtain ⟨waits, same⟩ := Option.ite_none_right_eq_some.mp taken
      cases same
      have moved := inv.pass fits here soon waits
      rw [here] at moved
      exact moved
    | _ =>
      rw [here] at polls
      cases polls
  | quiet =>
    cases here : s.phase <;> simp only [Cpp.step, here] at taken
    case polling since ms =>
      obtain ⟨⟨-, elapsed⟩, same⟩ := Option.ite_none_right_eq_some.mp taken
      cases same
      exact inv.quiet fits here elapsed
    all_goals cases taken
  | intr =>
    cases here : s.phase <;> simp only [Cpp.step, here] at taken <;> cases taken
    exact inv.working s.sockDead
  | wake stop tick sock =>
    have good : ∀ bytes, sock = some (.data bytes) → s.heard.bad bytes = false := by
      rintro bytes rfl
      exact fit
    cases here : s.phase <;> simp only [Cpp.step, here] at taken
    case polling since ms =>
      obtain ⟨-, same⟩ := Option.ite_none_right_eq_some.mp taken
      split_ifs at same
      · cases same
        refine inv.move s.sockDead (fun _ _ => nofun) nofun nofun ?_
        intro outcome ended
        cases ended
        exact .inl rfl
      · cases same
        refine inv.move s.sockDead (fun _ _ => nofun) (fun bytes at' => ?_) nofun
          nofun
        cases at'
        exact good bytes rfl
      · cases same
        exact inv.onSock good
    all_goals cases taken
  | sent =>
    cases here : s.phase <;> simp only [Cpp.step, here] at taken
    case pinging sock =>
      cases taken
      refine inv.onSock fun bytes same => inv.pinging bytes ?_
      rw [here, same]
    case messaging bad =>
      obtain rfl := inv.messaging bad here
      cases taken
      exact inv.working s.sockDead
    all_goals cases taken

/-! Go. -/

/-- The zero frame that the reader has left in the channel. -/
def Go.tail (s : Go) : List Frame := if s.readerDone && !s.sockDead then [zero] else []

/-- What holds of the Go session: frames wait in the channel only at the time they came, and without
any the timer stands at the time-out of the last one. -/
structure Go.Inv (o : Opts) (s : Go) : Prop where
  heard : s.heard = heardOf s.reads
  typed : ∀ f ∈ s.heard.frames, f.typ ≠ 0
  order : s.heard.last ≤ s.now
  talk : ∃ handled pending, s.talk = handled.foldl Talk.onFrame { peer := o.peer } ∧
    handled ++ pending = s.heard.frames ∧ s.queue = pending ++ s.tail ∧
    (s.sockDead = true → pending = []) ∧
    (if pending = [] then s.fireAt = s.heard.last + o.duration else s.heard.last = s.now)
  dead : s.sockDead = true → s.readerDone = true
  prompt : s.now ≤ s.heard.last + o.limit
  ended : ∀ outcome, s.outcome = some outcome → outcome = .shutdown ∨
    outcome = .timedOut ∧ s.heard.last + o.limit ≤ s.now ∧
      s.talk = s.heard.frames.foldl Talk.onFrame { peer := o.peer }

theorem Opts.duration_eq {o : Opts} (fits : o.limit < 2 ^ 63) : o.duration = o.limit := by
  rw [Opts.duration, Opts.timeout_eq fits]
  omega

/-- With an empty channel the timer stands at the time-out of the last frame. -/
theorem Go.Inv.fireAt_eq {o : Opts} {s : Go} (inv : s.Inv o) (fits : o.limit < 2 ^ 63)
    (none : s.sockDead = true ∨ s.queue = []) : s.fireAt = s.heard.last + o.limit := by
  obtain ⟨handled, pending, -, -, queue, dead, fire⟩ := inv.talk
  have empty : pending = [] := by
    rcases none with gone | none
    · exact dead gone
    · rw [none] at queue
      exact (List.append_eq_nil_iff.mp queue.symm).1
  rw [if_pos empty, Opts.duration_eq fits] at fire
  exact fire

theorem Go.Inv.pass {o : Opts} {s : Go} {d : ℕ} (inv : s.Inv o) (fits : o.limit < 2 ^ 63)
    (open' : s.outcome = none) (none : s.sockDead = true ∨ s.queue = [])
    (soon : (s.now + d : ℤ) ≤ s.fireAt) : ({ s with now := s.now + d } : Go).Inv o := by
  have fireAt := inv.fireAt_eq fits none
  obtain ⟨handled, pending, talk, frames, queue, dead, fire⟩ := inv.talk
  have empty : pending = [] := by
    rcases none with gone | none
    · exact dead gone
    · rw [none] at queue
      exact (List.append_eq_nil_iff.mp queue.symm).1
  rw [if_pos empty] at fire
  have prompt : s.now + d ≤ s.heard.last + o.limit := by omega
  refine { inv with
    order := inv.order.trans (Nat.le_add_right _ _)
    talk := ⟨handled, pending, talk, frames, queue, dead, ?_⟩
    prompt
    ended := fun outcome ended => ?_ }
  · rw [if_pos empty]
    exact fire
  · rw [show s.outcome = some outcome from ended] at open'
    cases open'

theorem Go.Inv.bytes {o : Opts} {s : Go} {bytes : Bytes} (inv : s.Inv o)
    (open' : s.outcome = none) (reads : s.readerDone = false)
    (typed : ∀ f ∈ s.heard.next bytes, f.typ ≠ 0) :
    ({ s with
      heard := s.heard.read s.now bytes
      queue := s.queue ++ s.heard.next bytes ++ if s.heard.bad bytes then [zero] else []
      readerDone := s.heard.bad bytes
      reads := s.reads ++ [(s.now, bytes)] } : Go).Inv o := by
  have alive : s.sockDead = false := by
    by_contra gone
    have done := inv.dead (Bool.not_eq_false _ ▸ gone)
    rw [reads] at done
    cases done
  obtain ⟨handled, pending, talk, frames, queue, dead, fire⟩ := inv.talk
  rw [Go.tail, reads, Bool.false_and, if_neg Bool.false_ne_true, List.append_nil] at queue
  have later := le_last_read inv.order bytes
  refine ⟨?_, fun f member => ?_, last_read_le inv.order bytes,
    ⟨handled, pending ++ s.heard.next bytes, talk, ?_, ?_, ?_, ?_⟩, ?_, ?_, ?_⟩
  · rw [heardOf_concat, ← inv.heard]
  · rcases List.mem_append.mp member with old | new
    · exact inv.typed f old
    · exact typed f new
  · rw [← List.append_assoc, frames]
    rfl
  · simp only [Go.tail, queue, alive, Bool.not_false, Bool.and_true]
  · rw [alive]
    exact nofun
  · by_cases none : s.heard.next bytes = []
    · rw [none, List.append_nil, Heard.read, if_pos none]
      exact fire
    · rw [if_neg fun empty => none (List.append_eq_nil_iff.mp empty).2, Heard.read, if_neg none]
  · rw [alive]
    exact nofun
  · exact inv.prompt.trans (Nat.add_le_add_right later _)
  · rw [open']
    exact fun _ => nofun

theorem Go.Inv.eof {o : Opts} {s : Go} (inv : s.Inv o) (reads : s.readerDone = false) :
    ({ s with queue := s.queue ++ [zero], readerDone := true } : Go).Inv o := by
  have alive : s.sockDead = false := by
    by_contra gone
    have done := inv.dead (Bool.not_eq_false _ ▸ gone)
    rw [reads] at done
    cases done
  obtain ⟨handled, pending, talk, frames, queue, dead, fire⟩ := inv.talk
  rw [Go.tail, reads, Bool.false_and, if_neg Bool.false_ne_true, List.append_nil] at queue
  refine { inv with
    talk := ⟨handled, pending, talk, frames, ?_, dead, fire⟩
    dead := fun _ => rfl }
  simp only [Go.tail, queue, alive, Bool.not_false, Bool.and_true, if_true]

theorem Go.Inv.deadline {o : Opts} {s : Go} (inv : s.Inv o) (fits : o.limit < 2 ^ 63)
    (fired : s.fireAt ≤ s.now) (none : s.queue = []) :
    ({ s with outcome := some .timedOut } : Go).Inv o := by
  have fireAt := inv.fireAt_eq fits (.inr none)
  obtain ⟨handled, pending, talk, frames, queue, -, -⟩ := inv.talk
  rw [none] at queue
  have empty : pending = [] := (List.append_eq_nil_iff.mp queue.symm).1
  rw [empty, List.append_nil] at frames
  refine { inv with ended := fun outcome ended => ?_ }
  cases ended
  refine .inr ⟨rfl, ?_, ?_⟩
  · change s.heard.last + o.limit ≤ s.now
    omega
  · rw [← frames]
    exact talk

theorem Go.Inv.frame {o : Opts} {s : Go} {f : Frame} {rest : List Frame} (inv : s.Inv o)
    (open' : s.outcome = none) (alive : s.sockDead = false) (front : s.queue = f :: rest) :
    (s.onFrame o f rest).Inv o := by
  obtain ⟨handled, pending, talk, frames, queue, dead, fire⟩ := inv.talk
  rw [front] at queue
  cases pending with
  | nil =>
    rw [List.nil_append, Go.tail, alive, Bool.not_false, Bool.and_true] at queue
    split at queue
    · next done =>
      obtain ⟨rfl, rfl⟩ := List.cons.inj queue
      have typ : zero.typ = 0 := rfl
      rw [Go.onFrame, if_pos typ]
      refine { inv with
        talk := ⟨handled, [], talk, frames, ?_, fun _ => rfl, fire⟩
        dead := fun _ => done }
      simp [Go.tail]
    · cases queue
  | cons g pending =>
    rw [List.cons_append] at queue
    obtain ⟨rfl, behind⟩ := List.cons.inj queue
    have typed : f.typ ≠ 0 := inv.typed f (by rw [← frames]; simp)
    rw [if_neg (List.cons_ne_nil _ _)] at fire
    rw [Go.onFrame, if_neg typed]
    refine ⟨inv.heard, inv.typed, inv.order,
      ⟨handled ++ [f], pending, ?_, ?_, ?_, ?_, ?_⟩, inv.dead, inv.prompt, ?_⟩
    · rw [List.foldl_append, ← talk]
      rfl
    · rw [← frames, List.append_assoc, List.singleton_append]
    · rw [behind, Go.tail, Go.tail]
    · rw [alive]
      exact nofun
    · split
      · rw [fire]
      · exact fire
    · rw [open']
      exact fun _ => nofun

theorem Go.Inv.keeps {o : Opts} {s t : Go} {a : GoAction} (inv : s.Inv o) (fit : s.Fit o a)
    (taken : s.step o a = some t) : t.Inv o := by
  obtain ⟨fits, fit⟩ := fit
  cases a with
  | pass d =>
    simp only at fit
    obtain ⟨⟨open', waits⟩, same⟩ := Option.ite_none_right_eq_some.mp taken
    cases same
    rcases waits with sending | ⟨none, soon⟩
    · rw [fit] at sending
      cases sending
    · exact inv.pass fits open' none soon
  | bytes bytes =>
    obtain ⟨⟨open', reads, -⟩, same⟩ := Option.ite_none_right_eq_some.mp taken
    cases same
    exact inv.bytes open' reads fit
  | eof =>
    obtain ⟨⟨-, reads⟩, same⟩ := Option.ite_none_right_eq_some.mp taken
    cases same
    exact inv.eof reads
  | sent =>
    obtain ⟨-, same⟩ := Option.ite_none_right_eq_some.mp taken
    cases same
    exact { inv with }
  | done =>
    obtain ⟨-, same⟩ := Option.ite_none_right_eq_some.mp taken
    cases same
    refine { inv with ended := fun outcome ended => ?_ }
    cases ended
    exact .inl rfl
  | deadline =>
    obtain ⟨⟨-, fired⟩, same⟩ := Option.ite_none_right_eq_some.mp taken
    cases same
    exact inv.deadline fits fired fit
  | tick =>
    obtain ⟨-, same⟩ := Option.ite_none_right_eq_some.mp taken
    cases same
    exact { inv with }
  | frame =>
    obtain ⟨⟨⟨open', -⟩, alive⟩, same⟩ := Option.ite_none_right_eq_some.mp taken
    split at same
    · next f rest front =>
      cases same
      exact inv.frame open' alive front
    · next none =>
      obtain ⟨done, -⟩ := Option.ite_none_right_eq_some.mp same
      obtain ⟨handled, pending, -, -, queue, -, -⟩ := inv.talk
      rw [none, Go.tail, done, alive] at queue
      simp at queue

/-! Both. -/

theorem Cpp.inv_of_run {o : Opts} {s : Cpp} {acts : List CppAction}
    (met : (cpp o).Meets (Cpp.Fit o) (cpp o).init acts) (run : (cpp o).run? acts = some s) :
    s.Inv o := by
  have start : ((cpp o).init).Inv o := by
    refine ⟨?_, ⟨le_rfl, le_rfl⟩, rfl, rfl, fun _ _ => nofun, ?_, nofun, nofun, nofun⟩
    · rw [cpp, Nat.cast_zero, zero_add]
    · rw [cpp]
      exact Nat.zero_le _
  exact @Machine.run?_keeps_of_meets _ _ _ (Cpp.Inv o) (Cpp.Fit o) start
    (fun _ _ _ inv fit taken => Cpp.Inv.keeps inv fit taken) _ _ met run

theorem Go.inv_of_run {o : Opts} {s : Go} {acts : List GoAction}
    (met : (go o).Meets (Go.Fit o) (go o).init acts) (run : (go o).run? acts = some s) :
    s.Inv o := by
  have start : ((go o).init).Inv o := by
    refine ⟨rfl, nofun, le_rfl, ⟨[], [], rfl, rfl, rfl, fun _ => rfl, ?_⟩, nofun, ?_, nofun⟩
    · rw [if_pos rfl, go, Nat.cast_zero, zero_add]
    · rw [go]
      exact Nat.zero_le _
  exact @Machine.run?_keeps_of_meets _ _ _ (Go.Inv o) (Go.Fit o) start
    (fun _ _ _ inv fit taken => Go.Inv.keeps inv fit taken) _ _ met run

theorem Cpp.Inv.right {o : Opts} {s : Cpp} (inv : s.Inv o) : s.Right o where
  silent returned := by
    rcases inv.returned _ returned with other | ⟨-, silent⟩
    · cases other
    · exact silent
  prompt := inv.prompt

theorem Go.Inv.right {o : Opts} {s : Go} (inv : s.Inv o) : s.Right o where
  silent ended := by
    rcases inv.ended _ ended with other | ⟨-, silent, -⟩
    · cases other
    · exact silent
  prompt := inv.prompt

theorem agree_of_inv {o : Opts} {c : Cpp} {g : Go} (cInv : c.Inv o) (gInv : g.Inv o) :
    Agree c g := by
  intro same one other returned ended byItself byItself'
  have heard : c.heard = g.heard := by rw [cInv.heard, gInv.heard, same]
  obtain ⟨rfl, cSilent⟩ := (cInv.returned one returned).resolve_left byItself
  obtain ⟨rfl, gSilent, talk⟩ := (gInv.ended other ended).resolve_left byItself'
  have cPrompt := cInv.prompt
  have gPrompt := gInv.prompt
  rw [heard] at cSilent cPrompt
  refine ⟨rfl, ?_, by omega, by omega⟩
  rw [cInv.talk, talk, heard]

/-- In runs whose steps are fit, sessions end when they should, and alike in both languages. -/
theorem session_right {o : Opts} {c : Cpp} {g : Go} {cActs : List CppAction}
    {gActs : List GoAction} (cFit : (cpp o).Meets (Cpp.Fit o) (cpp o).init cActs)
    (cRun : (cpp o).run? cActs = some c) (gFit : (go o).Meets (Go.Fit o) (go o).init gActs)
    (gRun : (go o).run? gActs = some g) : c.Right o ∧ g.Right o ∧ Agree c g := by
  have cInv := Cpp.inv_of_run cFit cRun
  have gInv := Go.inv_of_run gFit gRun
  exact ⟨cInv.right, gInv.right, agree_of_inv cInv gInv⟩

/-- A PING comes after five milliseconds, then nothing. -/
def cppPing : List CppAction := [.joined true, .poll, .pass (4 * milli), .wake false true none,
  .sent, .poll, .pass milli, .wake false false (some (.data [67, 72, 1, 5, 0, 0])), .poll,
  .pass (11 * milli), .quiet]

def goPing : List GoAction := [.sent, .pass (4 * milli), .tick, .sent, .pass milli,
  .bytes [67, 72, 1, 5, 0, 0], .frame, .pass (10 * milli), .deadline]

theorem session_right_ping : ∃ c g, (cpp ⟨10, false, []⟩).run? cppPing = some c ∧
    (go ⟨10, false, []⟩).run? goPing = some g ∧
    c.Right ⟨10, false, []⟩ ∧ g.Right ⟨10, false, []⟩ ∧ Agree c g := by
  obtain ⟨c, cRun⟩ := Option.isSome_iff_exists.mp
    (show ((cpp ⟨10, false, []⟩).run? cppPing).isSome by decide +kernel)
  obtain ⟨g, gRun⟩ := Option.isSome_iff_exists.mp
    (show ((go ⟨10, false, []⟩).run? goPing).isSome by decide +kernel)
  exact ⟨c, g, cRun, gRun, session_right (by decide +kernel) cRun (by decide +kernel) gRun⟩

/-- A byte of a frame comes after five milliseconds, and nothing else. -/
def cppTrickle : List CppAction := [.joined true, .poll, .pass (5 * milli),
  .wake false false (some (.data [67])), .poll, .pass (10 * milli)]

def goTrickle : List GoAction := [.sent, .pass (5 * milli), .bytes [67], .pass (5 * milli),
  .deadline]

/-- Go gives up after ten milliseconds; C++ still waits after fifteen. -/
theorem not_right_trickle : ∃ c g, (cpp ⟨10, false, []⟩).run? cppTrickle = some c ∧
    (go ⟨10, false, []⟩).run? goTrickle = some g ∧ c.reads = g.reads ∧
    g.outcome = some .timedOut ∧ g.now = 10 * milli ∧
    c.now = 15 * milli ∧ c.phase = .polling (5 * milli) 11 ∧ ¬ c.Right ⟨10, false, []⟩ := by
  refine ⟨{
    now := 15 * milli
    deadline := 15 * milli
    phase := .polling (5 * milli) 11
    heard := { buf := [67] }
    talk := { peer := [] }
    armed := 5 * milli
    reads := [(5 * milli, [67])] }, {
    now := 10 * milli
    fireAt := 10 * milli
    heard := { buf := [67] }
    talk := { peer := [] }
    outcome := some .timedOut
    reads := [(5 * milli, [67])] }, ?_, ?_, rfl, rfl, rfl, rfl, rfl, fun right => ?_⟩
  · decide +kernel
  · decide +kernel
  · exact absurd right.prompt (by decide +kernel)

end LinuxSys.Chatterd.Session
