import LinuxSys.Pmon.Drain

/-! # When the supervisor of pmon ch18 and a writer wait for each other

What is in a pipe and what is being written to it stays the same when a process puts bytes in, so
the writes that have begun fill a pipe that nobody reads exactly when the sum is over its capacity.
-/

namespace LinuxSys.Pmon.Drain

open Lib App

theorem sum_map_set {α : Type*} (f : α → ℕ) {l : List α} {i : ℕ} {old : α}
    (here : l[i]? = some old) (new : α) :
    ((l.set i new).map f).sum + f old = (l.map f).sum + f new := by
  induction l generalizing i with
  | nil => cases here
  | cons first others ih =>
    cases i with
    | zero =>
      cases here
      simp only [List.set_cons_zero, List.map_cons, List.sum_cons]
      omega
    | succ i =>
      have tail := ih here
      simp only [List.set_cons_succ, List.map_cons, List.sum_cons]
      omega

theorem Proc.rest_of_write {q : Proc} {p : Pipe} {bytes : Bytes}
    (writes : q.write = some (p, bytes)) (other : Pipe) :
    q.rest other = if p = other then bytes.length else 0 := by
  rw [Proc.rest, writes]

theorem Proc.rest_of_idle {q : Proc} (idle : q.write = none) (p : Pipe) : q.rest p = 0 := by
  rw [Proc.rest, idle]

theorem Proc.rest_put {q : Proc} {p : Pipe} {bytes : Bytes} {n : ℕ}
    (writes : q.write = some (p, bytes)) (fits : n ≤ bytes.length) (other : Pipe) :
    (q.put n).rest other + (if other = p then n else 0) = q.rest other := by
  have old := Proc.rest_of_write writes other
  have new : (q.put n).rest other = if p = other then bytes.length - n else 0 := by
    rw [Proc.put, writes]
    by_cases some' : n < bytes.length
    · simp only [Proc.rest, if_pos some', List.length_drop]
    · simp only [Proc.rest, if_neg some']
      split
      · omega
      · rfl
  rw [old, new]
  by_cases same : p = other
  · rw [if_pos same, if_pos same, if_pos same.symm]
    omega
  · rw [if_neg same, if_neg same, if_neg (Ne.symm same)]

namespace State

variable {lang : Language} {capacity : ℕ} {s t : State}

@[simp] theorem setSide_procs (s : State) (p : Pipe) (side : Side) :
    (s.setSide p side).procs = s.procs := by
  cases p with
  | _ => rfl

@[simp] theorem setSide_phase (s : State) (p : Pipe) (side : Side) :
    (s.setSide p side).phase = s.phase := by
  cases p with
  | _ => rfl

@[simp] theorem setSide_queue (s : State) (p : Pipe) (side : Side) :
    (s.setSide p side).queue = s.queue := by
  cases p with
  | _ => rfl

theorem side_setSide (s : State) (p other : Pipe) (side : Side) :
    (s.setSide p side).side other = if other = p then side else s.side other := by
  cases p with
  | _ =>
    cases other with
    | _ => rfl

@[simp] theorem side_setSide_self (s : State) (p : Pipe) (side : Side) :
    (s.setSide p side).side p = side := by
  rw [side_setSide, if_pos rfl]

theorem side_setSide_of_ne (s : State) {p other : Pipe} (side : Side) (ne : other ≠ p) :
    (s.setSide p side).side other = s.side other := by
  rw [side_setSide, if_neg ne]

/-- The data of the pipes and the writes make the load. -/
theorem load_congr {p : Pipe} (data : (t.side p).data = (s.side p).data)
    (procs : t.procs = s.procs) : t.load p = s.load p := by
  rw [load, load, data, procs]

@[simp] theorem setProc_procs (s : State) (pid : ℕ) (q : Proc) :
    (s.setProc pid q).procs = s.procs.set pid q := rfl

@[simp] theorem setProc_side (s : State) (pid : ℕ) (q : Proc) (p : Pipe) :
    (s.setProc pid q).side p = s.side p := by
  cases p with
  | _ => rfl

theorem load_setProc {pid : ℕ} {q r : Proc} (here : s.procs[pid]? = some q) (p : Pipe) :
    (s.setProc pid r).load p + q.rest p = s.load p + r.rest p := by
  have sum := sum_map_set (·.rest p) here r
  simp only [load, setProc_side, setProc_procs]
  omega

theorem load_setProc_of_rest {pid : ℕ} {q r : Proc} (here : s.procs[pid]? = some q) {p : Pipe}
    (rest : r.rest p = q.rest p) : (s.setProc pid r).load p = s.load p := by
  have moved := load_setProc (r := r) here p
  omega

theorem map_set_of_eq {α β : Type*} {f : α → β} {l : List α} {i : ℕ} {old new : α}
    (here : l[i]? = some old) (same : f new = f old) : (l.set i new).map f = l.map f := by
  obtain ⟨inside, known⟩ := List.getElem?_eq_some_iff.mp here
  have there : i < (l.map f).length := by
    rwa [List.length_map]
  have value : (l.map f)[i] = f old := by
    rw [List.getElem_map, known]
  rw [List.map_set, same, ← value, List.set_getElem_self]

/-- What a put changes: the bytes move from the process to the pipe. -/
theorem put_eq_some {pid n : ℕ} (taken : s.step lang capacity (.put pid n) = some t) :
    ∃ q p bytes, s.procs[pid]? = some q ∧ q.write = some (p, bytes) ∧ n ≤ bytes.length ∧
      (s.side p).data.length + n ≤ capacity ∧
      t = (s.setProc pid (q.put n)).setSide p
        { s.side p with data := (s.side p).data ++ bytes.take n } := by
  simp only [step] at taken
  split at taken
  · next q here =>
    split at taken
    · next p bytes writes =>
      obtain ⟨⟨fits, room⟩, same⟩ := Option.ite_none_right_eq_some.mp taken
      exact ⟨q, p, bytes, here, writes, fits, room, (Option.some.inj same).symm⟩
    · cases taken
  · cases taken

theorem load_put {pid n : ℕ} (taken : s.step lang capacity (.put pid n) = some t) (other : Pipe) :
    t.load other = s.load other := by
  obtain ⟨q, p, bytes, here, writes, fits, -, rfl⟩ := put_eq_some taken
  have moved := load_setProc (r := q.put n) here other
  have left := Proc.rest_put writes fits other
  by_cases same : other = p
  · subst same
    rw [if_pos rfl] at left
    simp only [load, setSide_procs, side_setSide_self, setProc_side, List.length_append,
      List.length_take] at moved ⊢
    omega
  · rw [if_neg same] at left
    rw [← load_setProc_of_rest here left]
    apply load_congr _ (setSide_procs _ _ _)
    rw [side_setSide_of_ne _ _ same]

theorem held_congr {p : Pipe} (holds : t.procs.map (·.holds p) = s.procs.map (·.holds p)) :
    t.held p = s.held p := by
  have same := congrArg (·.any id) holds
  simp only [List.any_map] at same
  exact same

theorem childAlive_congr (alive : t.procs.map (·.alive) = s.procs.map (·.alive)) :
    t.childAlive = s.childAlive := by
  have same := congrArg (·.head?.getD false) alive
  simp only [List.head?_map] at same
  exact same

/-- What the supervisor does depends on who lives and holds the pipes, not on what is in them. -/
theorem waits_congr (phase : t.phase = s.phase) (alive : t.childAlive = s.childAlive)
    (held : ∀ p, t.held p = s.held p) (finished : ∀ p, (t.side p).finished = (s.side p).finished) :
    t.waits = s.waits := by
  have out : t.out.finished = s.out.finished := finished .out
  have err : t.err.finished = s.err.finished := finished .err
  simp only [waits, phase, alive, held, out, err]

theorem unread_congr {p : Pipe} (phase : t.phase = s.phase) (queue : t.queue = s.queue)
    (tooLong : (t.side p).tooLong = (s.side p).tooLong)
    (hand : (t.side p).hand = (s.side p).hand) : t.unread lang p = s.unread lang p := by
  simp only [unread, reads, phase, queue, tooLong, hand]

theorem put_alive (n : ℕ) (q : Proc) : (q.put n).alive = q.alive := by
  rw [Proc.put]
  split <;> rfl

theorem put_holds (n : ℕ) (q : Proc) (p : Pipe) : (q.put n).holds p = q.holds p := by
  rw [Proc.put]
  cases p with
  | _ => split <;> rfl

theorem waits_put {pid n : ℕ} (taken : s.step lang capacity (.put pid n) = some t) :
    t.waits = s.waits := by
  obtain ⟨q, p, bytes, here, -, -, -, rfl⟩ := put_eq_some taken
  apply waits_congr
  · rw [setSide_phase]
    rfl
  · apply childAlive_congr
    rw [setSide_procs]
    exact map_set_of_eq here (put_alive n q)
  · intro other
    apply held_congr
    rw [setSide_procs]
    exact map_set_of_eq here (put_holds n q other)
  · intro other
    rw [side_setSide]
    split
    · next same =>
      rw [same]
      rfl
    · rw [setProc_side]

theorem unread_put {pid n : ℕ} (taken : s.step lang capacity (.put pid n) = some t)
    (other : Pipe) : t.unread lang other = s.unread lang other := by
  obtain ⟨q, p, bytes, -, -, -, -, rfl⟩ := put_eq_some taken
  apply unread_congr
  · rw [setSide_phase]
    rfl
  · rw [setSide_queue]
    rfl
  · rw [side_setSide]
    split
    · next same => rw [same]
    · rw [setProc_side]
  · rw [side_setSide]
    split
    · next same => rw [same]
    · rw [setProc_side]

/-- No pipe holds more than its capacity. -/
def Inv (capacity : ℕ) (s : State) : Prop := ∀ p, (s.side p).data.length ≤ capacity

theorem Inv.init (capacity : ℕ) : ({} : State).Inv capacity := by
  intro p
  cases p with
  | _ => exact Nat.zero_le capacity

theorem sum_rest_pos {procs : List Proc} {p : Pipe} :
    0 < (procs.map (·.rest p)).sum ↔ ∃ q ∈ procs, 0 < q.rest p := by
  induction procs with
  | nil => simp
  | cons first others ih =>
    simp only [List.map_cons, List.sum_cons, List.mem_cons, exists_eq_or_imp, ← ih]
    omega

theorem not_blocked {p : Pipe} (spare : s.load p ≤ capacity) : ¬ s.Blocked capacity p := by
  rintro ⟨full, writer⟩
  have left := sum_rest_pos.mpr writer
  rw [load] at spare
  omega

theorem blocked_of_full {p : Pipe} (full : capacity ≤ (s.side p).data.length)
    (inv : s.Inv capacity) (tooMuch : capacity < s.load p) : s.Blocked capacity p := by
  refine ⟨full, sum_rest_pos.mp ?_⟩
  have bound := inv p
  rw [load] at tooMuch
  omega

/-- A process that has bytes left puts one of them in. -/
theorem exists_put {p : Pipe} (room : (s.side p).data.length < capacity)
    (writer : ∃ q ∈ s.procs, 0 < q.rest p) :
    ∃ pid t, s.step lang capacity (.put pid 1) = some t ∧
      (t.side p).data.length = (s.side p).data.length + 1 := by
  obtain ⟨q, member, left⟩ := writer
  obtain ⟨pid, here⟩ := List.mem_iff_getElem?.mp member
  cases writes : q.write with
  | none =>
    rw [Proc.rest_of_idle writes] at left
    cases left
  | some write =>
    obtain ⟨other, bytes⟩ := write
    rw [Proc.rest_of_write writes] at left
    by_cases same : other = p
    · subst same
      rw [if_pos rfl] at left
      refine ⟨pid, (s.setProc pid (q.put 1)).setSide other
        { s.side other with data := (s.side other).data ++ bytes.take 1 }, ?_, ?_⟩
      · simp only [step, here, writes]
        exact if_pos ⟨left, room⟩
      · rw [side_setSide_self, List.length_append, List.length_take]
        omega
    · rw [if_neg same] at left
      cases left

theorem Inv.of_side (inv : s.Inv capacity) (side : ∀ p, t.side p = s.side p) :
    t.Inv capacity := by
  intro p
  rw [side]
  exact inv p

theorem Inv.setSide (inv : s.Inv capacity) {p : Pipe} {side : Side}
    (short : side.data.length ≤ capacity) : (s.setSide p side).Inv capacity := by
  intro other
  rw [side_setSide]
  split
  · exact short
  · exact inv other

theorem act_eq_some {pid : ℕ} {f : Proc → Proc} (taken : s.act pid f = some t) :
    ∃ q, s.procs[pid]? = some q ∧ q.write = none ∧ t = s.setProc pid (f q) := by
  rw [act] at taken
  split at taken
  · next q here =>
    obtain ⟨⟨-, idle⟩, same⟩ := Option.ite_none_right_eq_some.mp taken
    exact ⟨q, here, idle, (Option.some.inj same).symm⟩
  · cases taken

/-- A step of one process in its place. -/
theorem write_eq_some {pid : ℕ} {p : Pipe} {bytes : Bytes}
    (taken : s.step lang capacity (.write pid p bytes) = some t) :
    ∃ q, s.procs[pid]? = some q ∧ q.write = none ∧
      t = s.setProc pid { q with write := some (p, bytes) } := by
  simp only [step] at taken
  split at taken
  · next q here =>
    obtain ⟨⟨idle, -⟩, same⟩ := Option.ite_none_right_eq_some.mp taken
    exact ⟨q, here, idle, (Option.some.inj same).symm⟩
  · cases taken

theorem interrupt_eq_some {pid : ℕ} (taken : s.step lang capacity (.interrupt pid) = some t) :
    ∃ q, s.procs[pid]? = some q ∧ t = s.setProc pid { q with write := none } := by
  simp only [step] at taken
  split at taken
  · next q here => exact ⟨q, here, (Option.some.inj taken).symm⟩
  · cases taken

theorem exit_eq_some {pid : ℕ} (taken : s.step lang capacity (.exit pid) = some t) :
    ∃ q, s.procs[pid]? = some q ∧ t = s.setProc pid q.exit := by
  simp only [step] at taken
  split at taken
  · next q here => exact ⟨q, here, (Option.some.inj taken).symm⟩
  · cases taken

theorem fork_eq_some {pid : ℕ} (taken : s.step lang capacity (.fork pid) = some t) :
    ∃ q, q.write = none ∧ t = { s with procs := s.procs ++ [q] } := by
  simp only [step] at taken
  split at taken
  · next q here =>
    obtain ⟨⟨-, idle⟩, same⟩ := Option.ite_none_right_eq_some.mp taken
    exact ⟨q, idle, (Option.some.inj same).symm⟩
  · cases taken

/-- Going on changes the phase alone. -/
theorem next_eq_some (taken : s.step lang capacity .next = some t) :
    ∃ phase, t = { s with phase } := by
  simp only [step] at taken
  split at taken
  · exact ⟨_, (Option.some.inj (Option.ite_none_right_eq_some.mp taken).2).symm⟩
  · exact ⟨_, (Option.some.inj (Option.ite_none_right_eq_some.mp taken).2).symm⟩
  · exact ⟨_, (Option.some.inj (Option.ite_none_right_eq_some.mp taken).2).symm⟩
  · cases taken

theorem terminate_side (s : State) (p : Pipe) : s.terminate.side p = s.side p := by
  rw [terminate]
  cases p with
  | _ => split <;> rfl

theorem Inv.keeps {a : Action} (inv : s.Inv capacity)
    (taken : s.step lang capacity a = some t) : t.Inv capacity := by
  cases a with
  | fork pid =>
    obtain ⟨q, -, rfl⟩ := fork_eq_some taken
    exact inv
  | close pid p =>
    obtain ⟨q, -, -, rfl⟩ := act_eq_some taken
    exact inv.of_side (setProc_side s pid _)
  | trap pid catches =>
    obtain ⟨q, -, -, rfl⟩ := act_eq_some taken
    exact inv.of_side (setProc_side s pid _)
  | write pid p bytes =>
    obtain ⟨q, -, -, rfl⟩ := write_eq_some taken
    exact inv.of_side (setProc_side s pid _)
  | put pid n =>
    obtain ⟨q, p, bytes, -, -, -, room, rfl⟩ := put_eq_some taken
    apply Inv.setSide (inv.of_side (setProc_side s pid _))
    rw [List.length_append, List.length_take]
    omega
  | interrupt pid =>
    obtain ⟨q, -, rfl⟩ := interrupt_eq_some taken
    exact inv.of_side (setProc_side s pid _)
  | exit pid =>
    obtain ⟨q, -, rfl⟩ := exit_eq_some taken
    exact inv.of_side (setProc_side s pid _)
  | read p n =>
    have less : (s.side p).data.length - n ≤ capacity := (Nat.sub_le _ _).trans (inv p)
    obtain ⟨-, same⟩ := Option.ite_none_right_eq_some.mp taken
    cases lang with
    | _ =>
      obtain ⟨-, same⟩ := Option.ite_none_right_eq_some.mp same
      cases same
      apply inv.setSide
      rw [List.length_drop]
      exact less
  | eof p | line p | tooLong p =>
    obtain ⟨-, same⟩ := Option.ite_none_right_eq_some.mp taken
    cases same
    exact inv.setSide (inv p)
  | send p =>
    obtain ⟨-, same⟩ := Option.ite_none_right_eq_some.mp taken
    cases same
    exact Inv.setSide (s := { s with queue := s.queue + 1 }) inv (inv p)
  | receive | collect =>
    obtain ⟨-, same⟩ := Option.ite_none_right_eq_some.mp taken
    cases same
    exact inv
  | restart =>
    obtain ⟨-, same⟩ := Option.ite_none_right_eq_some.mp taken
    cases same
    exact Inv.init capacity
  | stop =>
    obtain ⟨-, same⟩ := Option.ite_none_right_eq_some.mp taken
    cases same
    exact inv.of_side (terminate_side s)
  | next =>
    obtain ⟨phase, rfl⟩ := next_eq_some taken
    exact inv

end State

theorem Safe.put {lang : Language} {capacity : ℕ} {s t : State} {pid n : ℕ}
    (safe : Safe lang capacity s) (taken : s.step lang capacity (.put pid n) = some t) :
    Safe lang capacity t := by
  intro puts last run
  apply safe ((pid, n) :: puts) last
  rw [List.map_cons]
  exact (Machine.runFrom?_cons taken _).trans run

/-- Where a pipe that the supervisor leaves unread cannot take the writes, they fill it. -/
theorem Safe.load_le {lang : Language} {capacity : ℕ} {s : State} (safe : Safe lang capacity s)
    (inv : s.Inv capacity) (waits : s.waits) {p : Pipe} (unread : s.unread lang p) :
    s.load p ≤ capacity := by
  refine Nat.not_lt.mp fun tooMuch => ?_
  induction room : capacity - (s.side p).data.length generalizing s with
  | zero =>
    have full := Nat.le_of_sub_eq_zero room
    exact safe [] s rfl waits p unread (State.blocked_of_full full inv tooMuch)
  | succ left ih =>
    have below : (s.side p).data.length < capacity := by omega
    have writer : ∃ q ∈ s.procs, 0 < q.rest p := by
      apply State.sum_rest_pos.mp
      rw [State.load] at tooMuch
      omega
    obtain ⟨pid, t, taken, more⟩ := @State.exists_put lang _ _ _ below writer
    apply ih (safe.put taken) (inv.keeps taken)
    · rw [State.waits_put taken]
      exact waits
    · rw [State.unread_put taken]
      exact unread
    · rw [State.load_put taken]
      exact tooMuch
    · omega

theorem safe_of_load_le {lang : Language} {capacity : ℕ} {s : State}
    (spare : s.waits → ∀ p, s.unread lang p → s.load p ≤ capacity) : Safe lang capacity s := by
  intro puts t run
  induction puts generalizing s with
  | nil =>
    cases run
    exact fun waits p unread => State.not_blocked (spare waits p unread)
  | cons put puts ih =>
    obtain ⟨next, step, tail⟩ := (Machine.runFrom?_cons_eq_some _).mp run
    have taken : s.step lang capacity (.put put.1 put.2) = some next := step
    refine ih (fun waits p unread => ?_) tail
    rw [State.waits_put taken] at waits
    rw [State.unread_put taken] at unread
    rw [State.load_put taken]
    exact spare waits p unread

theorem safe_iff {lang : Language} {capacity : ℕ} {s : State} (inv : s.Inv capacity) :
    Safe lang capacity s ↔ (s.waits → ∀ p, s.unread lang p → s.load p ≤ capacity) :=
  ⟨fun safe waits _ unread => safe.load_le inv waits unread, safe_of_load_le⟩

end LinuxSys.Pmon.Drain
