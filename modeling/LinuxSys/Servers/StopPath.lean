import LinuxSys.Servers.ThreadsInv

/-! # The stop path of the threaded servers

After SIGINT the main thread waits for the mutex of the clients, in the Rust engine of ch22 for each
connection's lock, and then for each worker. It is wedged when the chain of those it waits for ends
at a worker in a call that only a client can end. A broadcast is in danger of a client when the stop
path cannot get past it to that client's socket: in ch21 Rust because it holds the mutex, in ch22
because the client has left the registry, in ch22 Rust also because it holds the connection's lock.
-/

namespace LinuxSys.Servers.Threads

open Lib Chatterd

/-- Sends to the client wait until it reads again. -/
def Conn.deaf (c : Conn) : Bool := c.stalled && !c.broken

/-- What the threads but the clients do by themselves. -/
def Action.own : Action → Bool
  | .register | .spawn | .sawStop | .lockAll _ | .shut | .join | .start _ | .add _ | .write _ _
  | .eof _ | .sawRequest _ | .name _ | .ask _ | .lock _ _ | .next _ | .finish _ | .remove _ => true
  | _ => false

/-- The worker reads no more. -/
def Phase.ended : Phase → Bool
  | .removing | .done => true
  | .ready _ _ last | .sending _ _ last | .writing _ _ _ _ last => last
  | _ => false

namespace State

/-- The thread that holds what a thread waits for. -/
def waitsFor (d : Design) (s : State) : Thread → Option Thread
  | .main =>
    match s.main with
    | .adding _ | .stopping => s.hub
    | .shutting (c :: _) => if d = .threadedRust then (s.conn c).writer.map .worker else none
    | .joining (i :: _) | .leaving (i :: _) => if s.phase i = .done then none else some (.worker i)
    | _ => none
  | .worker i =>
    match s.phase i with
    | .starting => if d = .threadedRust then (s.conn i).writer.map .worker else none
    | .adding | .ready _ _ _ | .removing => s.hub
    | .naming _ | .asking _ =>
      if d = .threadedCpp then (s.conn i).writer.map .worker
      else if d.threaded then none else s.hub
    | .sending _ (c :: _) _ => if d.threaded then (s.conn c).writer.map .worker else none
    | _ => none

/-- The worker is in a call that ends only when its client sends, closes or reads. -/
def Blocked (s : State) (i : ℕ) : Prop :=
  s.phase i = .reading ∧ (s.conn i).closed = false ∧ (s.conn i).broken = false ∨
    ∃ c left, (s.phase i).target i = some (c, left) ∧ (s.conn c).deaf = true

/-- Only a worker blocked on a client's socket can release what the main thread waits for. -/
def Wedged (d : Design) (s : State) : Prop :=
  ∃ i, Relation.TransGen (fun t u => s.waitsFor d t = some u) .main (.worker i) ∧ s.Blocked i

/-- What holds after SIGINT: the main thread is not wedged, no socket is left open once it joins,
and the server can exit whatever the clients have done. -/
structure Stops (d : Design) (s : State) : Prop where
  free : ¬ s.Wedged d
  reached : ∀ todo, s.main = .joining todo → ∀ i < s.count, (s.phase i).ended = true ∨
    (s.conn i).shut = true ∨ d = .tcpCpp ∧ s.phase i = .starting ∧ (s.conn i).asked = true
  exits : ∃ acts t, (∀ a ∈ acts, a.own = true) ∧
    (server d).runFrom? s acts = some t ∧ t.status ≠ .running

end State

/-- A client whose socket the stop path may not reach while the worker is in this phase. -/
def Design.danger (d : Design) (registry : List ℕ) (i : ℕ) (p : Phase) (c : ℕ) : Prop :=
  match d with
  | .tcpCpp => False
  | .tcpRust => p.current = some c ∨ c ∈ p.later
  | .threadedCpp => c ∉ registry ∧ (p.current = some c ∨ c ∈ p.later)
  | .threadedRust => (∃ left, p.target i = some (c, left)) ∨ c ∉ registry ∧ c ∈ p.later

namespace State

def Danger (d : Design) (s : State) (i c : ℕ) : Prop := d.danger s.registry i (s.phase i) c

/-- No broadcast is in danger of a client that has stopped reading. -/
def Calm (d : Design) (s : State) : Prop := ∀ i c, s.Danger d i c → (s.conn c).deaf = false

end State

/-- The step does not put a broadcast in danger of a client that has stopped reading, in ch21 Rust
every worker has registered its client when the sockets are shut down, and the C++ accept loops
return on an error only when no worker runs. -/
def near (d : Design) (s : State) : Action → Prop
  | .sigint => s.Calm d
  | .stall c => s.stop = true → ∀ i, s.Danger d i c → (s.conn c).broken = true
  | .start i => d = .threadedRust → s.stop = true → (s.conn i).deaf = false
  | .next i => d = .threadedRust → s.stop = true → ∀ c ∈ (s.phase i).later.head?,
      (s.conn c).deaf = false
  | .lock _ order => d = .tcpRust → s.stop = true → ∀ c ∈ order, (s.conn c).deaf = false
  | .remove j => d.threaded = true → s.stop = true → (s.conn j).deaf = true →
      ∀ i, (s.phase i).current ≠ some j ∧ j ∉ (s.phase i).later
  | .lockAll _ => d = .tcpRust → ∀ i < s.count, s.phase i ≠ .starting ∧ s.phase i ≠ .adding
  | .acceptError => d = .tcpCpp → ∀ i < s.count, s.phase i = .done
  | .pollError => d.lang = .cpp → ∀ i < s.count, s.phase i = .done
  | _ => True

namespace State

/-- The worker whose socket the stop path has to reach. -/
def scope (d : Design) (s : State) (i : ℕ) : Prop :=
  if d = .tcpCpp then i < s.count else i ∈ s.registry

/-- The stop path has reached the worker's socket, or in ch21 C++ the worker's stop callback. -/
def told (d : Design) (s : State) (i : ℕ) : Bool :=
  if d = .tcpCpp then (s.conn i).asked else (s.conn i).shut

structure Clear (d : Design) (s : State) : Prop where
  inv : s.Inv d
  calm : s.stop = true → s.Calm d
  shutting : ∀ todo, s.main = .shutting todo → ∀ i, s.scope d i → i ∈ todo ∨ s.told d i = true
  joining : ∀ todo, s.main = .joining todo → ∀ i, s.scope d i → s.told d i = true
  added : d = .tcpRust → ∀ todo, s.main = .shutting todo ∨ s.main = .joining todo →
    ∀ i, s.phase i ≠ .starting ∧ s.phase i ≠ .adding
  left : ∀ todo, s.main = .leaving todo → todo ≠ [] ∧ ∀ i < s.count, s.phase i = .done
  within : ∀ todo, s.main = .joining todo ∨ s.main = .leaving todo → ∀ i ∈ todo, i < s.count

end State

/-- A worker that writes to nobody and is in no broadcast is in no danger. -/
theorem Design.not_danger {d : Design} {registry : List ℕ} {i c : ℕ} {p : Phase}
    (casting : p.casting = false) (idle : p.target i = none) : ¬ d.danger registry i p c := by
  have aimless : ¬ (p.current = some c ∨ c ∈ p.later) := by
    intro aimed
    rw [Phase.casting_of_aimed aimed] at casting
    cases casting
  intro danger
  cases d with
  | tcpCpp => exact danger
  | tcpRust => exact aimless danger
  | threadedCpp => exact aimless danger.2
  | threadedRust =>
    rcases danger with ⟨left, target⟩ | ⟨-, later⟩
    · rw [idle] at target
      cases target
    · exact aimless (.inr later)

/-- A worker whose aims do not grow is in no new danger. -/
theorem Design.danger_mono {d : Design} {first second : List ℕ} {i c : ℕ} {p q : Phase}
    (danger : d.danger second i q c)
    (less : d.threaded = true → c ∈ first → c ∈ second)
    (current : q.current = some c → p.current = some c ∨ c ∈ p.later)
    (later : c ∈ q.later → c ∈ p.later)
    (target : d = .threadedRust → ∀ left, q.target i = some (c, left) →
      ∃ left, p.target i = some (c, left)) : d.danger first i p c := by
  cases d with
  | tcpCpp => exact danger
  | tcpRust =>
    rcases danger with now | after
    · exact current now
    · exact .inr (later after)
  | threadedCpp =>
    refine ⟨fun member => danger.1 (less rfl member), ?_⟩
    rcases danger.2 with now | after
    · exact current now
    · exact .inr (later after)
  | threadedRust =>
    rcases danger with ⟨left, now⟩ | ⟨outside, after⟩
    · exact .inl (target rfl left now)
    · exact .inr ⟨fun member => outside (less rfl member), later after⟩

namespace State.Clear

variable {d : Design} {s t : State}

/-- No worker is left when the main thread returns from an error. -/
theorem not_leaving (clear : s.Clear d) {i : ℕ} (there : s.phase i ≠ .absent)
    (running : s.phase i ≠ .done) (todo : List ℕ) : s.main ≠ .leaving todo := fun main =>
  running ((clear.left todo main).2 i (clear.inv.counted i there))

/-- A step of one worker that leaves the stop path where it is. -/
theorem of_worker (clear : s.Clear d) (inv : t.Inv d) {i : ℕ} {p : Phase}
    (there : s.phase i ≠ .absent) (running : s.phase i ≠ .done)
    (same : t.main = s.main ∧ t.count = s.count ∧ t.stop = s.stop)
    (phase : t.phase = Function.update s.phase i p)
    (conn : ∀ c, ((s.conn c).shut = true → (t.conn c).shut = true) ∧
      ((s.conn c).asked = true → (t.conn c).asked = true))
    (later : p = .starting ∨ p = .adding → s.phase i = .starting ∨ s.phase i = .adding)
    (registry : d ≠ .tcpCpp → (∃ todo, s.main = .shutting todo ∨ s.main = .joining todo) →
      ∀ j ∈ t.registry, j ∈ s.registry)
    (calm : s.stop = true → t.Calm d) : t.Clear d := by
  obtain ⟨main, count, stop⟩ := same
  have told : ∀ j, s.told d j = true → t.told d j = true := by
    intro j
    unfold State.told
    split
    · exact (conn j).2
    · exact (conn j).1
  have scope : (∃ todo, s.main = .shutting todo ∨ s.main = .joining todo) →
      ∀ j, t.scope d j → s.scope d j := by
    intro stopping j
    unfold State.scope
    split
    · exact fun inside => count ▸ inside
    · next other => exact registry other stopping j
  refine ⟨inv, fun stopped => calm (stop ▸ stopped), fun todo here j mine => ?_,
    fun todo here j mine => ?_, fun rust todo here j => ?_, fun todo here => ?_,
    fun todo here j member => ?_⟩
  · rw [main] at here
    exact (clear.shutting todo here j (scope ⟨todo, .inl here⟩ j mine)).imp_right (told j)
  · rw [main] at here
    exact told j (clear.joining todo here j (scope ⟨todo, .inr here⟩ j mine))
  · rw [main] at here
    have before := clear.added rust todo here
    rw [phase]
    rcases eq_or_ne j i with rfl | other
    · rw [Function.update_self]
      constructor
      · intro now
        rcases later (.inl now) with no | no
        · exact (before j).1 no
        · exact (before j).2 no
      · intro now
        rcases later (.inr now) with no | no
        · exact (before j).1 no
        · exact (before j).2 no
    · rw [Function.update_of_ne other]
      exact before j
  · rw [main] at here
    exact absurd here (clear.not_leaving there running todo)
  · rw [main] at here
    rw [count]
    exact clear.within todo here j member

/-- The dangers of one worker change, the others' do not grow. -/
theorem calm_update (clear : s.Clear d) {i : ℕ} {p : Phase} {registry : List ℕ}
    {conn : ℕ → Conn} (stopped : s.stop = true)
    (deaf : ∀ c, (conn c).deaf = (s.conn c).deaf)
    (rest : ∀ j, j ≠ i → ∀ c, d.danger registry j (s.phase j) c → (s.conn c).deaf = true →
      s.Danger d j c)
    (own : ∀ c, d.danger registry i p c → (s.conn c).deaf = true → s.Danger d i c) (j c : ℕ)
    (danger : d.danger registry j (Function.update s.phase i p j) c) : (conn c).deaf = false := by
  rw [deaf]
  cases gone : (s.conn c).deaf with
  | false => rfl
  | true =>
    have before : s.Danger d j c := by
      rcases eq_or_ne j i with rfl | other
      · rw [Function.update_self] at danger
        exact own c danger gone
      · rw [Function.update_of_ne other] at danger
        exact rest j other c danger gone
    rw [clear.calm stopped j c before] at gone
    cases gone

/-- A worker's step outside any broadcast, before and after. -/
theorem of_turn (clear : s.Clear d) (inv : t.Inv d) {i : ℕ} {p : Phase}
    (there : s.phase i ≠ .absent) (running : s.phase i ≠ .done)
    (same : t.main = s.main ∧ t.count = s.count ∧ t.stop = s.stop ∧ t.registry = s.registry)
    (phase : t.phase = Function.update s.phase i p)
    (conn : ∀ c, ((s.conn c).shut = true → (t.conn c).shut = true) ∧
      ((s.conn c).asked = true → (t.conn c).asked = true) ∧
      ((t.conn c).deaf = true → (s.conn c).deaf = true))
    (later : p = .starting ∨ p = .adding → s.phase i = .starting ∨ s.phase i = .adding)
    (danger : ∀ c, ¬ d.danger s.registry i p c) : t.Clear d := by
  obtain ⟨main, count, stop, registry⟩ := same
  refine clear.of_worker inv there running ⟨main, count, stop⟩ phase
    (fun c => ⟨(conn c).1, (conn c).2.1⟩) later (fun _ _ j member => registry ▸ member)
    fun stopped j c now => ?_
  rw [State.Danger, registry, phase] at now
  cases gone : (t.conn c).deaf with
  | false => rfl
  | true =>
    rcases eq_or_ne j i with rfl | other
    · rw [Function.update_self] at now
      exact absurd now (danger c)
    · rw [Function.update_of_ne other] at now
      have before := clear.calm stopped j c now
      rw [(conn c).2.2 gone] at before
      cases before

/-- The main thread moves; nobody's danger grows. -/
theorem of_main (clear : s.Clear d) (inv : t.Inv d)
    (same : t.stop = s.stop ∧ t.phase = s.phase)
    (deaf : ∀ c, (t.conn c).deaf = true → (s.conn c).deaf = true)
    (registry : ∀ c, c ∈ s.registry → c ∈ t.registry)
    (shutting : ∀ todo, t.main = .shutting todo → ∀ i, t.scope d i → i ∈ todo ∨ t.told d i = true)
    (joining : ∀ todo, t.main = .joining todo → ∀ i, t.scope d i → t.told d i = true)
    (added : d = .tcpRust → ∀ todo, t.main = .shutting todo ∨ t.main = .joining todo →
      ∀ i, s.phase i ≠ .starting ∧ s.phase i ≠ .adding)
    (left : ∀ todo, t.main = .leaving todo → todo ≠ [] ∧ ∀ i < t.count, s.phase i = .done)
    (within : ∀ todo, t.main = .joining todo ∨ t.main = .leaving todo → ∀ i ∈ todo, i < t.count) :
    t.Clear d := by
  obtain ⟨stop, phase⟩ := same
  refine ⟨inv, fun stopped i c danger => ?_, shutting, joining, ?_, ?_, within⟩
  · rw [stop] at stopped
    cases gone : (t.conn c).deaf with
    | false => rfl
    | true =>
      rw [State.Danger, phase] at danger
      have before := clear.calm stopped i c (Design.danger_mono danger
        (fun _ member => registry c member) .inl (fun later => later) fun _ left now => ⟨left, now⟩)
      rw [deaf c gone] at before
      cases before
  · rw [phase]
    exact added
  · rw [phase]
    exact left

/-- A connection changes without being told less or getting deafer. -/
theorem conn_update {c : ℕ} {v : Conn} (shut : (s.conn c).shut = true → v.shut = true)
    (asked : (s.conn c).asked = true → v.asked = true)
    (deaf : v.deaf = true → (s.conn c).deaf = true) (e : ℕ) :
    ((s.conn e).shut = true → (Function.update s.conn c v e).shut = true) ∧
      ((s.conn e).asked = true → (Function.update s.conn c v e).asked = true) ∧
      ((Function.update s.conn c v e).deaf = true → (s.conn e).deaf = true) := by
  rcases eq_or_ne e c with rfl | other
  · rw [Function.update_self]
    exact ⟨shut, asked, deaf⟩
  · rw [Function.update_of_ne other]
    exact ⟨fun same => same, fun same => same, fun same => same⟩

theorem deaf_of_shut {v w : Conn} (stalled : w.stalled = v.stalled) (reset : w.reset = v.reset)
    (shut : v.shut = true → w.shut = true) (deaf : w.deaf = true) : v.deaf = true := by
  simp only [Conn.deaf, Conn.broken, Bool.and_eq_true, Bool.not_eq_true', Bool.or_eq_false_iff,
    stalled, reset] at deaf ⊢
  refine ⟨deaf.1, deaf.2.1, ?_⟩
  cases here : v.shut with
  | false => rfl
  | true =>
    rw [shut here] at deaf
    cases deaf.2.2

theorem client (clear : s.Clear d) {a : Action} (met : near d s a) {c : ℕ}
    {stalled closed reset : Bool}
    (stalls : stalled = true → a = .stall c ∨ (s.conn c).stalled = true)
    (resets : (s.conn c).reset = true → reset = true) :
    (s.setConn c { s.conn c with stalled, closed, reset }).Clear d := by
  have inv := clear.inv.keeps (.client (a := a) stalled closed reset stalls resets)
  have told : ∀ i, s.told d i = true →
      (s.setConn c { s.conn c with stalled, closed, reset }).told d i = true := by
    intro i
    unfold State.told
    rw [State.setConn_conn]
    rcases eq_or_ne i c with rfl | other
    · rw [Function.update_self]
      exact fun same => same
    · rw [Function.update_of_ne other]
      exact fun same => same
  refine ⟨inv, fun stopped i e danger => ?_, fun todo here i mine => ?_,
    fun todo here i mine => told i (clear.joining todo here i mine), clear.added, clear.left,
    clear.within⟩
  · have before : s.Danger d i e := danger
    rw [State.setConn_conn]
    rcases eq_or_ne e c with rfl | other
    · rw [Function.update_self]
      cases gone : Conn.deaf { s.conn e with stalled, closed, reset } with
      | false => rfl
      | true =>
        simp only [Conn.deaf, Conn.broken, Bool.and_eq_true, Bool.not_eq_true',
          Bool.or_eq_false_iff] at gone
        obtain ⟨deaf, sound, open'⟩ := gone
        have whole : (s.conn e).broken = false := by
          rw [Conn.broken, open', Bool.or_false]
          cases here : (s.conn e).reset with
          | false => rfl
          | true =>
            rw [resets here] at sound
            cases sound
        rcases stalls deaf with rfl | already
        · rw [met stopped i before] at whole
          cases whole
        · have calm := clear.calm stopped i e before
          rw [Conn.deaf, already, whole] at calm
          cases calm
    · rw [Function.update_of_ne other]
      exact clear.calm stopped i e before
  · exact (clear.shutting todo here i mine).imp_right (told i)

theorem request_told {c : ℕ} (cpp : d = .tcpCpp) (i : ℕ) (told : i = c ∨ s.told d i = true) :
    (s.request d c).told d i = true := by
  simp only [State.told, if_pos cpp, State.request, State.setConn_conn] at told ⊢
  rcases eq_or_ne i c with rfl | other
  · rw [Function.update_self]
  · rw [Function.update_of_ne other]
    exact told.resolve_left other

theorem request_deaf (s : State) (d : Design) (c e : ℕ)
    (deaf : ((s.request d c).conn e).deaf = true) : (s.conn e).deaf = true := by
  refine (conn_update (s := s) (c := c) (v := { s.conn c with
    asked := true
    shut := (s.conn c).shut || (d = .tcpCpp && s.phase c ≠ .starting && s.phase c ≠ .done) })
    (fun shut => by simp [shut]) (fun _ => rfl) ?_ e).2.2 deaf
  exact deaf_of_shut rfl rfl fun shut => by simp [shut]

theorem accept (clear : s.Clear d) (main : s.main = .polling) :
    ({ s.setConn s.count { nick := d.noNick } with
      count := s.count + 1
      main := if d.threaded then .adding s.count else .spawning s.count } : State).Clear d := by
  have calling : ∀ todo, (if d.threaded then Main.adding s.count else .spawning s.count) ≠
      .shutting todo ∧ (if d.threaded then Main.adding s.count else .spawning s.count) ≠
      .joining todo ∧ (if d.threaded then Main.adding s.count else .spawning s.count) ≠
      .leaving todo := by
    intro todo
    split <;> simp
  refine clear.of_main (clear.inv.accept main) ⟨rfl, rfl⟩ (fun c deaf => ?_) (fun _ same => same)
    (fun todo here => absurd here (calling todo).1)
    (fun todo here => absurd here (calling todo).2.1) (fun _ todo here => ?_)
    (fun todo here => absurd here (calling todo).2.2) fun todo here => ?_
  · change (Function.update s.conn s.count _ c).deaf = true at deaf
    rcases eq_or_ne c s.count with rfl | other
    · rw [Function.update_self] at deaf
      cases deaf
    · rwa [Function.update_of_ne other] at deaf
  · rcases here with here | here
    · exact absurd here (calling todo).1
    · exact absurd here (calling todo).2.1
  · rcases here with here | here
    · exact absurd here (calling todo).2.1
    · exact absurd here (calling todo).2.2

theorem register (clear : s.Clear d) {i : ℕ} (main : s.main = .adding i) :
    ({ s with registry := s.registry ++ [i], main := .spawning i } : State).Clear d := by
  refine clear.of_main (clear.inv.register main) ⟨rfl, rfl⟩ (fun _ deaf => deaf)
    (fun _ member => List.mem_append_left _ member) ?_ ?_ ?_ ?_ ?_
  · rintro todo ⟨⟩
  · rintro todo ⟨⟩
  · rintro - todo (⟨⟨⟩⟩ | ⟨⟨⟩⟩)
  · rintro todo ⟨⟩
  · rintro todo (⟨⟨⟩⟩ | ⟨⟨⟩⟩)

theorem spawn (clear : s.Clear d) {i : ℕ} (main : s.main = .spawning i) :
    ({ s.setPhase i .starting with main := .polling } : State).Clear d := by
  refine ⟨clear.inv.spawn main, fun stopped j c danger => ?_, ?_, ?_, ?_, ?_, ?_⟩
  · change d.danger s.registry j (Function.update s.phase i .starting j) c at danger
    rcases eq_or_ne j i with rfl | other
    · rw [Function.update_self] at danger
      exact absurd danger (Design.not_danger rfl rfl)
    · rw [Function.update_of_ne other] at danger
      exact clear.calm stopped j c danger
  · rintro todo ⟨⟩
  · rintro todo ⟨⟩
  · rintro - todo (⟨⟨⟩⟩ | ⟨⟨⟩⟩)
  · rintro todo ⟨⟩
  · rintro todo (⟨⟨⟩⟩ | ⟨⟨⟩⟩)

theorem sawStop (clear : s.Clear d) (inv : State.Inv d { s with
      main := if d = .tcpCpp then .shutting (List.range s.count) else .stopping }) :
    State.Clear d { s with
      main := if d = .tcpCpp then .shutting (List.range s.count) else .stopping } := by
  refine clear.of_main inv ⟨rfl, rfl⟩ (fun _ deaf => deaf) (fun _ same => same)
    (fun todo here i mine => ?_) (fun todo here => ?_) (fun rust todo here => ?_)
    (fun todo here => ?_) fun todo here => ?_
  · change (if d = .tcpCpp then Main.shutting (List.range s.count) else .stopping) = _ at here
    change s.scope d i at mine
    split at here
    · next cpp =>
      cases here
      rw [State.scope, if_pos cpp] at mine
      exact .inl (List.mem_range.mpr mine)
    · cases here
  · change (if d = .tcpCpp then Main.shutting (List.range s.count) else .stopping) = _ at here
    split at here <;> cases here
  · change (if d = .tcpCpp then Main.shutting (List.range s.count) else .stopping) = _ ∨
      (if d = .tcpCpp then Main.shutting (List.range s.count) else .stopping) = _ at here
    rw [rust] at here
    rcases here with ⟨⟨⟩⟩ | ⟨⟨⟩⟩
  · change (if d = .tcpCpp then Main.shutting (List.range s.count) else .stopping) = _ at here
    split at here <;> cases here
  · change (if d = .tcpCpp then Main.shutting (List.range s.count) else .stopping) = _ ∨
      (if d = .tcpCpp then Main.shutting (List.range s.count) else .stopping) = _ at here
    split at here <;> rcases here with ⟨⟨⟩⟩ | ⟨⟨⟩⟩

theorem lockAll (clear : s.Clear d) {order : List ℕ} (main : s.main = .stopping)
    (perm : order.Perm s.registry) (met : near d s (.lockAll order))
    (inv : State.Inv d { s with hub := some .main, main := .shutting order }) :
    State.Clear d { s with hub := some .main, main := .shutting order } := by
  refine clear.of_main inv ⟨rfl, rfl⟩ (fun _ deaf => deaf) (fun _ same => same)
    (fun todo here i mine => ?_) ?_ (fun rust todo here i => ?_) ?_ ?_
  · cases here
    change s.scope d i at mine
    rw [State.scope, if_neg (clear.inv.stopping main)] at mine
    exact .inl (perm.mem_iff.mpr mine)
  · rintro todo ⟨⟩
  · by_cases there : s.phase i = .absent
    · simp [there]
    · exact met rust i (clear.inv.counted i there)
  · rintro todo ⟨⟩
  · rintro todo (⟨⟨⟩⟩ | ⟨⟨⟩⟩)

theorem request (clear : s.Clear d) {c : ℕ} {rest : List ℕ} (main : s.main = .shutting (c :: rest))
    (cpp : d = .tcpCpp) (inv : State.Inv d { s.request d c with main := .shutting rest }) :
    State.Clear d { s.request d c with main := .shutting rest } := by
  refine clear.of_main inv ⟨rfl, rfl⟩ (request_deaf s d c) (fun _ same => same)
    (fun todo here i mine => ?_) ?_ (fun rust => ?_) ?_ ?_
  · cases here
    have before := clear.shutting _ main i mine
    rw [List.mem_cons] at before
    change i ∈ rest ∨ (s.request d c).told d i = true
    rcases before with (first | later) | told
    · exact .inr (request_told cpp i (.inl first))
    · exact .inl later
    · exact .inr (request_told cpp i (.inr told))
  · rintro todo ⟨⟩
  · rw [cpp] at rust
    cases rust
  · rintro todo ⟨⟩
  · rintro todo (⟨⟨⟩⟩ | ⟨⟨⟩⟩)

theorem shut (clear : s.Clear d) {c : ℕ} {rest : List ℕ} (main : s.main = .shutting (c :: rest))
    (other : d ≠ .tcpCpp)
    (inv : State.Inv d { s.setConn c { s.conn c with shut := true } with main := .shutting rest }) :
    State.Clear d { s.setConn c { s.conn c with shut := true } with main := .shutting rest } := by
  have conn := conn_update (s := s) (c := c) (v := { s.conn c with shut := true }) (fun _ => rfl)
    (fun same => same) (deaf_of_shut rfl rfl fun _ => rfl)
  refine clear.of_main inv ⟨rfl, rfl⟩ (fun e => (conn e).2.2) (fun _ same => same)
    (fun todo here i mine => ?_) ?_ (fun rust todo here => ?_) ?_ ?_
  · cases here
    have before := clear.shutting _ main i mine
    simp only [State.told, if_neg other] at before ⊢
    rw [List.mem_cons] at before
    rcases before with (rfl | later) | told
    · exact .inr (by rw [State.setConn_conn, Function.update_self])
    · exact .inl later
    · exact .inr ((conn i).1 told)
  · rintro todo ⟨⟩
  · exact clear.added rust _ (.inl main)
  · rintro todo ⟨⟩
  · rintro todo (⟨⟨⟩⟩ | ⟨⟨⟩⟩)

theorem release (clear : s.Clear d) (main : s.main = .shutting [])
    (inv : State.Inv d { s with
      hub := if d = .tcpCpp then s.hub else none, main := .joining (List.range s.count) }) :
    State.Clear d { s with
      hub := if d = .tcpCpp then s.hub else none, main := .joining (List.range s.count) } := by
  refine clear.of_main inv ⟨rfl, rfl⟩ (fun _ deaf => deaf) (fun _ same => same) ?_
    (fun todo here i mine => ?_) (fun rust todo here => ?_) ?_ ?_
  · rintro todo ⟨⟩
  · exact (clear.shutting _ main i mine).resolve_left List.not_mem_nil
  · exact clear.added rust _ (.inl main)
  · rintro todo ⟨⟩
  · rintro todo (⟨⟨⟩⟩ | ⟨⟨⟩⟩)
    exact fun i member => List.mem_range.mp member

theorem joined (clear : s.Clear d) {i : ℕ} {rest : List ℕ} (main : s.main = .joining (i :: rest))
    (inv : State.Inv d { s with main := .joining rest }) :
    State.Clear d { s with main := .joining rest } := by
  refine clear.of_main inv ⟨rfl, rfl⟩ (fun _ deaf => deaf) (fun _ same => same) ?_
    (fun todo here i mine => clear.joining _ main i mine) (fun rust todo here => ?_) ?_ ?_
  · rintro todo ⟨⟩
  · exact clear.added rust _ (.inr main)
  · rintro todo ⟨⟩
  · rintro todo (⟨⟨⟩⟩ | ⟨⟨⟩⟩)
    exact fun j member => clear.within _ (.inl main) j (List.mem_cons_of_mem i member)

theorem leave (clear : s.Clear d) {i : ℕ} {rest : List ℕ}
    (gone : ∀ j < s.count, s.phase j = .done) (inside : ∀ j ∈ i :: rest, j < s.count)
    (inv : State.Inv d { s.request d i with main := .leaving (i :: rest) }) :
    State.Clear d { s.request d i with main := .leaving (i :: rest) } := by
  refine clear.of_main inv ⟨rfl, rfl⟩ (request_deaf s d i) (fun _ same => same) ?_ ?_ ?_ ?_ ?_
  · rintro todo ⟨⟩
  · rintro todo ⟨⟩
  · rintro - todo (⟨⟨⟩⟩ | ⟨⟨⟩⟩)
  · rintro todo ⟨⟩
    exact ⟨by simp, gone⟩
  · rintro todo (⟨⟨⟩⟩ | ⟨⟨⟩⟩)
    exact inside

theorem startRust (clear : s.Clear d) {i : ℕ} (here : s.phase i = .starting)
    (rust : d = .threadedRust) (met : near d s (.start i))
    (inv : State.Inv d ((s.setPhase i (.welcoming welcome)).setConn i
      { s.conn i with writer := some i })) :
    State.Clear d ((s.setPhase i (.welcoming welcome)).setConn i
      { s.conn i with writer := some i }) := by
  have conn := conn_update (s := s) (c := i) (v := { s.conn i with writer := some i })
    (fun same => same) (fun same => same) fun same => same
  refine clear.of_worker inv (by simp [here]) (by simp [here]) ⟨rfl, rfl, rfl⟩ rfl
    (fun c => ⟨(conn c).1, (conn c).2.1⟩) (by rintro (⟨⟨⟩⟩ | ⟨⟨⟩⟩)) (fun _ _ _ member => member)
    fun stopped => clear.calm_update stopped (fun c => ?_) (fun _ _ _ danger _ => danger)
      fun c danger gone => ?_
  · rw [State.setConn_conn]
    rcases eq_or_ne c i with rfl | other
    · rw [Function.update_self]
      rfl
    · rw [Function.update_of_ne other]
      rfl
  · subst rust
    rcases danger with ⟨left, target⟩ | ⟨-, ⟨⟩⟩
    cases target
    rw [met rfl stopped] at gone
    cases gone

theorem add (clear : s.Clear d) {i : ℕ} (here : s.phase i = .adding) (free : s.hub = none)
    (inv : State.Inv d { s.setPhase i .reading with registry := s.registry ++ [i] }) :
    State.Clear d { s.setPhase i .reading with registry := s.registry ++ [i] } := by
  refine clear.of_worker inv (by simp [here]) (by simp [here]) ⟨rfl, rfl, rfl⟩ rfl
    (fun c => ⟨fun same => same, fun same => same⟩) (by rintro (⟨⟨⟩⟩ | ⟨⟨⟩⟩)) ?_
    fun stopped => clear.calm_update stopped (fun _ => rfl) (fun j _ c danger _ => ?_)
      fun c danger _ => absurd danger (Design.not_danger rfl rfl)
  · rintro other ⟨todo, stopping⟩ j member
    rcases stopping with shutting | joining
    · rw [clear.inv.hubMain.mpr ⟨other, todo, shutting⟩] at free
      cases free
    · have fits := clear.inv.fits i
      rw [here] at fits
      cases d with
      | tcpCpp => exact absurd rfl other
      | tcpRust => exact absurd here (clear.added rfl todo (.inr joining) i).2
      | threadedCpp => cases fits
      | threadedRust => cases fits
  · exact Design.danger_mono danger (fun _ member => List.mem_append_left _ member) .inl
      (fun later => later) fun _ left target => ⟨left, target⟩

theorem write (clear : s.Clear d) {i c : ℕ} {left : Bytes}
    (here : (s.phase i).target i = some (c, left)) (w : Wrote) : (s.wrote i c left w).Clear d := by
  have inv := clear.inv.write here w
  have spec := Phase.wrote_spec here (clear.inv.fits i) (w.rest left)
  have there : s.phase i ≠ .absent ∧ s.phase i ≠ .done := by
    constructor <;>
    · intro no
      rw [no] at here
      cases here
  have kept : ∀ e, ((s.wrote i c left w).conn e).shut = (s.conn e).shut ∧
      ((s.wrote i c left w).conn e).asked = (s.conn e).asked ∧
      ((s.wrote i c left w).conn e).deaf = (s.conn e).deaf := by
    intro e
    simp only [State.wrote, State.setConn_conn]
    rcases eq_or_ne e c with rfl | other
    · rw [Function.update_self]
      split <;> exact ⟨rfl, rfl, rfl⟩
    · rw [Function.update_of_ne other]
      exact ⟨rfl, rfl, rfl⟩
  refine clear.of_worker inv there.1 there.2 ⟨rfl, rfl, rfl⟩ rfl
    (fun e => ⟨fun shut => (kept e).1.trans shut, fun asked => (kept e).2.1.trans asked⟩)
    (fun early => ?_) (fun _ _ _ member => member)
    fun stopped => clear.calm_update stopped (fun e => (kept e).2.2) (fun _ _ _ danger _ => danger)
      fun e danger _ => ?_
  · rcases Phase.target_eq_some here with ⟨phase, -⟩ | ⟨frame, targets, last, phase⟩
    · rw [phase, Phase.wrote_welcoming] at early
      split at early <;> rcases early with ⟨⟨⟩⟩ | ⟨⟨⟩⟩
    · rw [phase, Phase.wrote_writing] at early
      split at early <;> rcases early with ⟨⟨⟩⟩ | ⟨⟨⟩⟩
  · refine Design.danger_mono danger (fun _ member => member) (fun current => ?_) (fun later => ?_)
      fun _ more target => ?_
    · obtain ⟨rfl, before⟩ := spec.current e current
      exact .inl before
    · rwa [spec.later] at later
    · obtain rfl := spec.target e more target
      exact ⟨left, here⟩

theorem lock (clear : s.Clear d) {i : ℕ} {order : List ℕ} {frame : Bytes} {except : Option ℕ}
    {last : Bool} (here : s.phase i = .ready frame except last)
    (perm : order.Perm (s.registry.filter fun c => except ≠ some c))
    (met : near d s (.lock i order))
    (inv : State.Inv d { s.setPhase i (.sending frame order last) with
      hub := if d.threaded then none else some (.worker i) }) :
    State.Clear d { s.setPhase i (.sending frame order last) with
      hub := if d.threaded then none else some (.worker i) } := by
  refine clear.of_worker inv (by simp [here]) (by simp [here]) ⟨rfl, rfl, rfl⟩ rfl
    (fun c => ⟨fun same => same, fun same => same⟩) (by rintro (⟨⟨⟩⟩ | ⟨⟨⟩⟩))
    (fun _ _ _ member => member)
    fun stopped => clear.calm_update stopped (fun _ => rfl) (fun _ _ _ danger _ => danger)
      fun c danger gone => ?_
  have known : c ∈ order → c ∈ s.registry := fun inside =>
    (List.mem_filter.mp (perm.subset inside)).1
  cases d with
  | tcpCpp => exact danger
  | tcpRust =>
    rcases danger with ⟨⟨⟩⟩ | inside
    rw [met rfl stopped c inside] at gone
    cases gone
  | threadedCpp =>
    obtain ⟨outside, ⟨⟨⟩⟩ | inside⟩ := danger
    exact absurd (known inside) outside
  | threadedRust =>
    rcases danger with ⟨left, ⟨⟩⟩ | ⟨outside, inside⟩
    exact absurd (known inside) outside

theorem nextTcp (clear : s.Clear d) {i c : ℕ} {frame : Bytes} {rest : List ℕ} {last : Bool}
    (here : s.phase i = .sending frame (c :: rest) last) (tcp : d.threaded = false)
    (inv : (s.setPhase i (.writing frame c frame rest last)).Inv d) :
    (s.setPhase i (.writing frame c frame rest last)).Clear d := by
  refine clear.of_worker inv (by simp [here]) (by simp [here]) ⟨rfl, rfl, rfl⟩ rfl
    (fun c => ⟨fun same => same, fun same => same⟩) (by rintro (⟨⟨⟩⟩ | ⟨⟨⟩⟩))
    (fun _ _ _ member => member)
    fun stopped => clear.calm_update stopped (fun _ => rfl) (fun _ _ _ danger _ => danger)
      fun e danger _ => ?_
  rw [State.Danger, here]
  refine Design.danger_mono danger (fun _ member => member) (fun current => ?_)
    (fun later => List.mem_cons_of_mem c later) fun rust => ?_
  · cases current
    exact .inr List.mem_cons_self
  · rw [rust] at tcp
    cases tcp

theorem next (clear : s.Clear d) {i c : ℕ} {frame : Bytes} {rest : List ℕ} {last : Bool}
    (here : s.phase i = .sending frame (c :: rest) last) (met : near d s (.next i))
    (inv : ((s.setPhase i (.writing frame c frame rest last)).setConn c
      { s.conn c with writer := some i }).Inv d) :
    ((s.setPhase i (.writing frame c frame rest last)).setConn c
      { s.conn c with writer := some i }).Clear d := by
  have conn := conn_update (s := s) (c := c) (v := { s.conn c with writer := some i })
    (fun same => same) (fun same => same) fun same => same
  refine clear.of_worker inv (by simp [here]) (by simp [here]) ⟨rfl, rfl, rfl⟩ rfl
    (fun c => ⟨(conn c).1, (conn c).2.1⟩) (by rintro (⟨⟨⟩⟩ | ⟨⟨⟩⟩)) (fun _ _ _ member => member)
    fun stopped => clear.calm_update stopped (fun e => ?_) (fun _ _ _ danger _ => danger)
      fun e danger gone => ?_
  · rw [State.setConn_conn]
    rcases eq_or_ne e c with rfl | other
    · rw [Function.update_self]
      rfl
    · rw [Function.update_of_ne other]
      rfl
  · rw [State.Danger, here]
    refine Design.danger_mono danger (fun _ member => member) (fun current => ?_)
      (fun later => List.mem_cons_of_mem c later) fun rust left target => ?_
    · cases current
      exact .inr List.mem_cons_self
    · cases target
      rw [met rust stopped c (by rw [here]; rfl)] at gone
      cases gone

theorem remove (clear : s.Clear d) {i : ℕ} (here : s.phase i = .removing)
    (met : near d s (.remove i))
    (inv : State.Inv d { s.setPhase i (afterRemove d (s.conn i).nick) with
      registry := s.registry.filter (· ≠ i) }) :
    State.Clear d { s.setPhase i (afterRemove d (s.conn i).nick) with
      registry := s.registry.filter (· ≠ i) } := by
  have spec : (afterRemove d (s.conn i).nick).casting = false ∧
      (afterRemove d (s.conn i).nick).target i = none ∧
      afterRemove d (s.conn i).nick ≠ .starting ∧ afterRemove d (s.conn i).nick ≠ .adding := by
    unfold afterRemove
    split
    · exact ⟨rfl, rfl, by simp, by simp⟩
    · split <;> exact ⟨rfl, rfl, by simp, by simp⟩
  refine clear.of_worker inv (by simp [here]) (by simp [here]) ⟨rfl, rfl, rfl⟩ rfl
    (fun c => ⟨fun same => same, fun same => same⟩) (fun early => ?_)
    (fun _ _ _ member => (List.mem_filter.mp member).1)
    fun stopped => clear.calm_update stopped (fun _ => rfl) (fun j _ c danger gone => ?_)
      fun c danger _ => absurd danger (Design.not_danger spec.1 spec.2.1)
  · rcases early with no | no
    · exact absurd no spec.2.2.1
    · exact absurd no spec.2.2.2
  · by_cases same : c = i
    · subst same
      cases d with
      | tcpCpp => exact danger
      | tcpRust => exact danger
      | threadedCpp =>
        obtain ⟨no, no'⟩ := met rfl stopped gone j
        rcases danger.2 with now | after
        · exact absurd now no
        · exact absurd after no'
      | threadedRust =>
        rcases danger with target | ⟨-, after⟩
        · exact .inl target
        · exact absurd after (met rfl stopped gone j).2
    · refine Design.danger_mono danger (fun _ member => ?_) .inl (fun later => later)
        fun _ left target => ⟨left, target⟩
      exact List.mem_filter.mpr ⟨member, by simpa using same⟩

theorem keeps (clear : s.Clear d) {a : Action} (met : near d s a) (effect : Effect d s a t) :
    t.Clear d := by
  have inv := clear.inv.keeps effect
  have still : ∀ c, ((s.conn c).shut = true → (s.conn c).shut = true) ∧
      ((s.conn c).asked = true → (s.conn c).asked = true) ∧
      ((s.conn c).deaf = true → (s.conn c).deaf = true) := fun c =>
    ⟨fun same => same, fun same => same, fun same => same⟩
  cases effect with
  | sigint =>
    exact ⟨inv, fun _ => met, clear.shutting, clear.joining, clear.added, clear.left, clear.within⟩
  | client stalled closed reset stalls resets => exact clear.client met stalls resets
  | ended ended =>
    exact ⟨inv, clear.calm, clear.shutting, clear.joining, clear.added, clear.left, clear.within⟩
  | refused => exact clear
  | accept main => exact clear.accept main
  | register main free => exact clear.register main
  | spawn main => exact clear.spawn main
  | sawStop main stop => exact clear.sawStop inv
  | lockAll main free perm => exact clear.lockAll main perm met inv
  | request main cpp => exact clear.request main cpp inv
  | shut main other free => exact clear.shut main other inv
  | release main => exact clear.release main inv
  | joined main done => exact clear.joined main inv
  | @leave _ i rest because =>
    rcases because with ⟨which, -, all⟩ | ⟨j, main⟩
    · refine clear.leave ?_ (fun j member => ?_) inv
      · rcases which with ⟨rfl, cpp⟩ | ⟨rfl, cpp⟩
        · exact met cpp
        · exact met cpp
      · rw [all] at member
        exact List.mem_range.mp member
    · exact clear.leave (clear.left _ main).2
        (fun k member => clear.within _ (.inr main) k (List.mem_cons_of_mem j member)) inv
  | @move _ i p here after =>
    refine clear.of_turn inv (by simp [here]) (by simp [here]) ⟨rfl, rfl, rfl, rfl⟩ rfl still
      (fun early => ?_) fun c => Design.not_danger ?_ ?_
    · cases after <;> rcases early with ⟨⟨⟩⟩ | ⟨⟨⟩⟩
    · cases after <;> rfl
    · cases after <;> rfl
  | ask here =>
    exact clear.of_turn inv (by simp [here]) (by simp [here]) ⟨rfl, rfl, rfl, rfl⟩ rfl still
      (by rintro (⟨⟨⟩⟩ | ⟨⟨⟩⟩)) fun c => Design.not_danger rfl rfl
  | @name i name here nick =>
    refine clear.of_turn inv (by simp [here]) (by simp [here]) ⟨rfl, rfl, rfl, rfl⟩ rfl
      (conn_update (fun same => same) (fun same => same) fun same => same) ?_
      fun c => Design.not_danger ?_ ?_
    · unfold afterName
      split <;> rintro (⟨⟨⟩⟩ | ⟨⟨⟩⟩)
    · unfold afterName
      split <;> rfl
    · unfold afterName
      split <;> rfl
  | @startTcp i here tcp shut asked =>
    have more : (s.conn i).shut = true → shut = true := fun before => by
      rw [asked, before, Bool.true_or]
    exact clear.of_turn inv (by simp [here]) (by simp [here]) ⟨rfl, rfl, rfl, rfl⟩ rfl
      (conn_update more (fun same => same) (deaf_of_shut rfl rfl more)) (fun _ => .inl here)
      fun c => Design.not_danger rfl rfl
  | startError here rust =>
    exact clear.of_turn inv (by simp [here]) (by simp [here]) ⟨rfl, rfl, rfl, rfl⟩ rfl still
      (by rintro (⟨⟨⟩⟩ | ⟨⟨⟩⟩)) fun c => Design.not_danger rfl rfl
  | startCpp here cpp =>
    refine clear.of_turn inv (by simp [here]) (by simp [here]) ⟨rfl, rfl, rfl, rfl⟩ rfl still
      (by rintro (⟨⟨⟩⟩ | ⟨⟨⟩⟩)) fun c danger => ?_
    rw [cpp] at danger
    obtain ⟨-, ⟨⟨⟩⟩ | ⟨⟨⟩⟩⟩ := danger
  | startRust here rust free => exact clear.startRust here rust met inv
  | add here free => exact clear.add here free inv
  | write here allowed => exact clear.write here _
  | lock here free perm => exact clear.lock here perm met inv
  | nextTcp here tcp => exact clear.nextTcp here tcp inv
  | next here threaded free => exact clear.next here met inv
  | @finish i frame last here =>
    refine clear.of_turn inv (by simp [here]) (by simp [here]) ⟨rfl, rfl, rfl, rfl⟩ rfl still
      ?_ fun c => Design.not_danger ?_ ?_
    · cases last <;> rintro (⟨⟨⟩⟩ | ⟨⟨⟩⟩)
    · cases last <;> rfl
    · cases last <;> rfl
  | remove here free => exact clear.remove here met inv

theorem init (d : Design) : (server d).init.Clear d := by
  refine ⟨.init d, ?_, ?_, ?_, ?_, ?_, ?_⟩
  · rintro ⟨⟩
  · rintro todo ⟨⟩
  · rintro todo ⟨⟩
  · rintro - todo (⟨⟨⟩⟩ | ⟨⟨⟩⟩)
  · rintro todo ⟨⟩
  · rintro todo (⟨⟨⟩⟩ | ⟨⟨⟩⟩)

theorem shut_of_member (clear : s.Clear d) {todo : List ℕ} (main : s.main = .joining todo) {c : ℕ}
    (member : c ∈ s.registry) : (s.conn c).shut = true := by
  by_cases cpp : d = .tcpCpp
  · have asked := clear.joining todo main c (by
      rw [State.scope, if_pos cpp]
      exact clear.inv.lt_count member)
    rw [State.told, if_pos cpp] at asked
    rcases (clear.inv.registry c).mp member with serving | ⟨threaded, -⟩
    · rcases clear.inv.asked c asked cpp with starting | done | shut
      · rw [starting, cpp] at serving
        cases serving
      · rw [done, cpp] at serving
        cases serving
      · exact shut
    · rw [cpp] at threaded
      cases threaded
  · have told := clear.joining todo main c (by rwa [State.scope, if_neg cpp])
    rwa [State.told, if_neg cpp] at told

theorem present (clear : s.Clear d) {todo : List ℕ} (main : s.main = .joining todo) {i : ℕ}
    (inside : i < s.count) : s.phase i ≠ .absent := by
  intro absent
  rcases clear.inv.waiting i inside absent with adding | spawning
  · rw [main] at adding
    cases adding
  · rw [main] at spawning
    cases spawning

/-- Once the main thread joins, the stop path has reached every socket. -/
theorem reached (clear : s.Clear d) {todo : List ℕ} (main : s.main = .joining todo) {i : ℕ}
    (inside : i < s.count) : (s.phase i).ended = true ∨
      (s.conn i).shut = true ∨ d = .tcpCpp ∧ s.phase i = .starting ∧ (s.conn i).asked = true := by
  have there := clear.present main inside
  by_cases cpp : d = .tcpCpp
  · have asked := clear.joining todo main i (by rwa [State.scope, if_pos cpp])
    rw [State.told, if_pos cpp] at asked
    rcases clear.inv.asked i asked cpp with starting | done | shut
    · exact .inr (.inr ⟨cpp, starting, asked⟩)
    · exact .inl (by rw [done]; rfl)
    · exact .inr (.inl shut)
  · by_cases member : i ∈ s.registry
    · exact .inr (.inl (clear.shut_of_member main member))
    · rw [clear.inv.member_iff there] at member
      have fits := clear.inv.fits i
      refine .inl ?_
      cases d with
      | tcpCpp => exact absurd rfl cpp
      | tcpRust =>
        obtain ⟨started, added⟩ := clear.added rfl todo (.inr main) i
        cases here : s.phase i with
        | absent => exact absurd here there
        | starting => exact absurd here started
        | adding => exact absurd here added
        | welcoming left => simp [here, Phase.fits, Design.threaded] at fits
        | removing => rfl
        | done => rfl
        | ready frame except last =>
          simpa [here, Design.member, Design.threaded, Phase.serving, Phase.ended] using member
        | sending frame targets last =>
          simpa [here, Design.member, Design.threaded, Phase.serving, Phase.ended] using member
        | writing frame c left targets last =>
          simpa [here, Design.member, Design.threaded, Phase.serving, Phase.ended] using member
        | _ => exact absurd (by rw [here]; rfl) member
      | threadedCpp =>
        cases here : s.phase i with
        | absent => exact absurd here there
        | done => rfl
        | _ => exact absurd (by rw [here]; rfl) member
      | threadedRust =>
        cases here : s.phase i with
        | absent => exact absurd here there
        | done => rfl
        | _ => exact absurd (by rw [here]; rfl) member

theorem not_deaf_of_shut {v : Conn} (shut : v.shut = true) : v.deaf = false := by
  simp [Conn.deaf, Conn.broken, shut]

/-- Once the main thread joins, no write waits for its client. -/
theorem not_deaf (clear : s.Clear d) (stopped : s.stop = true) {todo : List ℕ}
    (main : s.main = .joining todo) {i c : ℕ} {left : Bytes}
    (target : (s.phase i).target i = some (c, left)) : (s.conn c).deaf = false := by
  by_cases member : c ∈ s.registry
  · exact not_deaf_of_shut (clear.shut_of_member main member)
  · have fits := clear.inv.fits i
    rcases Phase.target_eq_some target with ⟨here, rfl⟩ | ⟨frame, targets, last, here⟩
    · rw [here] at fits
      have threaded : d.threaded = true := fits
      rw [clear.inv.member_iff (by simp [here]), here] at member
      simp [Design.member, threaded, Phase.alive] at member
    · have current : (s.phase i).current = some c := by rw [here]; rfl
      refine clear.calm stopped i c ?_
      rw [State.Danger]
      cases d with
      | tcpCpp => exact absurd ((clear.inv.aims i c (.inl current)).2 rfl) member
      | tcpRust => exact .inl current
      | threadedCpp => exact ⟨member, .inl current⟩
      | threadedRust => exact .inl ⟨left, target⟩

theorem not_blocked (clear : s.Clear d) (stopped : s.stop = true) {todo : List ℕ}
    (main : s.main = .joining todo) (i : ℕ) : ¬ s.Blocked i := by
  rintro (⟨reading, -, sound⟩ | ⟨c, left, target, deaf⟩)
  · have inside := clear.inv.counted i (by simp [reading])
    rcases clear.reached main inside with ended | shut | ⟨-, starting, -⟩
    · rw [reading] at ended
      cases ended
    · simp [Conn.broken, shut] at sound
    · rw [reading] at starting
      cases starting
  · rw [clear.not_deaf stopped main target] at deaf
    cases deaf

/-- A worker in a broadcast that waits for nobody is not blocked once SIGINT has come. -/
theorem not_blocked_of_danger (clear : s.Clear d) (stopped : s.stop = true) {i : ℕ}
    (idle : s.phase i ≠ .reading)
    (danger : ∀ c left, (s.phase i).target i = some (c, left) → s.Danger d i c) :
    ¬ s.Blocked i := by
  rintro (⟨reading, -⟩ | ⟨c, left, target, deaf⟩)
  · exact idle reading
  · rw [clear.calm stopped i c (danger c left target)] at deaf
    cases deaf

theorem not_wedged (clear : s.Clear d) (stopped : s.stop = true) : ¬ s.Wedged d := by
  rintro ⟨i, chain, blocked⟩
  obtain ⟨u, waits, rest⟩ := Relation.TransGen.head'_iff.mp chain
  have ends : ∀ j, u = .worker j → s.waitsFor d (.worker j) = none → i = j := by
    rintro j rfl alone
    rcases Relation.ReflTransGen.cases_head rest with same | ⟨v, next, -⟩
    · exact (Thread.worker.inj same).symm
    · rw [alone] at next
      cases next
  cases main : s.main with
  | polling => simp [State.waitsFor, main] at waits
  | spawning j => simp [State.waitsFor, main] at waits
  | adding j =>
    have held : s.hub = some u := by simpa [State.waitsFor, main] using waits
    have threaded := clear.inv.added j main
    cases u with
    | main =>
      obtain ⟨-, todo, shutting⟩ := clear.inv.hubMain.mp held
      rw [main] at shutting
      cases shutting
    | worker k => exact clear.inv.threaded_hub threaded k held
  | stopping =>
    have held : s.hub = some u := by simpa [State.waitsFor, main] using waits
    have other := clear.inv.stopping main
    cases u with
    | main =>
      obtain ⟨-, todo, shutting⟩ := clear.inv.hubMain.mp held
      rw [main] at shutting
      cases shutting
    | worker k =>
      obtain ⟨tcp, casting⟩ := (clear.inv.hubWorker k).mp held
      have rust : d = .tcpRust := by
        cases d with
        | tcpCpp => exact absurd rfl other
        | tcpRust => rfl
        | threadedCpp => cases tcp
        | threadedRust => cases tcp
      obtain rfl : i = k := ends k rfl (by
        cases here : s.phase k with
        | sending frame targets last => cases targets <;> simp [State.waitsFor, here, tcp]
        | writing frame c left targets last => simp [State.waitsFor, here]
        | _ =>
          rw [here] at casting
          cases casting)
      refine clear.not_blocked_of_danger stopped (fun reading => ?_) (fun c left target => ?_) blocked
      · rw [reading] at casting
        cases casting
      · rw [State.Danger, rust]
        rcases Phase.target_eq_some target with ⟨here, -⟩ | ⟨frame, targets, last, here⟩
        · rw [here] at casting
          cases casting
        · exact .inl (by rw [here]; rfl)
  | shutting todo =>
    cases todo with
    | nil => simp [State.waitsFor, main] at waits
    | cons c rest =>
      by_cases rust : d = .threadedRust
      · have held : ∃ k, (s.conn c).writer = some k ∧ Thread.worker k = u := by
          simpa [State.waitsFor, main, rust, Option.map_eq_some_iff] using waits
        obtain ⟨k, held, rfl⟩ := held
        obtain ⟨-, left, target⟩ := clear.inv.writer c k held
        obtain rfl : i = k := ends k rfl (by
          rcases Phase.target_eq_some target with ⟨here, -⟩ | ⟨frame, targets, last, here⟩ <;>
            simp [State.waitsFor, here])
        refine clear.not_blocked_of_danger stopped (fun reading => ?_) (fun e more aim => ?_) blocked
        · rw [reading] at target
          cases target
        · rw [State.Danger, rust]
          exact .inl ⟨more, aim⟩
      · simp [State.waitsFor, main, rust] at waits
  | joining todo => exact clear.not_blocked stopped main i blocked
  | leaving todo =>
    have gone := (clear.left todo main).2
    rcases blocked with ⟨reading, -⟩ | ⟨c, left, target, -⟩
    · have done := gone i (clear.inv.counted i (by simp [reading]))
      rw [reading] at done
      cases done
    · have there : s.phase i ≠ .absent := by
        intro absent
        rw [absent] at target
        cases target
      rw [gone i (clear.inv.counted i there)] at target
      cases target

end State.Clear

end LinuxSys.Servers.Threads
