import LinuxSys.Servers.Threads

/-! # What every step of the threaded servers keeps

The registry holds the clients of the workers that have registered and not removed them; in ch21
the mutex of the clients is held by the one worker in a broadcast, in ch22 by the main thread alone;
a connection's lock is held by the worker that writes to it.
-/

namespace LinuxSys.Servers.Threads

open Lib Chatterd

namespace Phase

/-- The worker has started and is not done. -/
def alive : Phase → Bool
  | .absent | .done => false
  | _ => true

/-- The worker has registered its client and not removed it. -/
def serving : Phase → Bool
  | .reading | .naming _ | .asking _ | .removing => true
  | .ready _ _ last | .sending _ _ last | .writing _ _ _ _ last => !last
  | _ => false

/-- The worker is in a broadcast. -/
def casting : Phase → Bool
  | .sending _ _ _ | .writing _ _ _ _ _ => true
  | _ => false

/-- The client a broadcast is writing to. -/
def current : Phase → Option ℕ
  | .writing _ c _ _ _ => some c
  | _ => none

/-- The clients a broadcast has yet to write to. -/
def later : Phase → List ℕ
  | .sending _ targets _ | .writing _ _ _ targets _ => targets
  | _ => []

/-- The phases that occur in the design. -/
def fits (d : Design) : Phase → Bool
  | .adding => !d.threaded
  | .welcoming _ | .asking _ => d.threaded
  | .ready _ _ last | .sending _ _ last | .writing _ _ _ _ last => !(d.threaded && last)
  | _ => true

end Phase

/-- The worker's own phase has its client in the registry. -/
def Design.member (d : Design) (p : Phase) : Bool := if d.threaded then p.alive else p.serving

namespace State

structure Inv (d : Design) (s : State) : Prop where
  counted : ∀ i, s.phase i ≠ .absent → i < s.count
  waiting : ∀ i < s.count, s.phase i = .absent → s.main = .adding i ∨ s.main = .spawning i
  fresh : ∀ i, s.main = .adding i ∨ s.main = .spawning i → i < s.count ∧ s.phase i = .absent
  added : ∀ i, s.main = .adding i → d.threaded = true
  fits : ∀ i, (s.phase i).fits d = true
  registry : ∀ i, i ∈ s.registry ↔
    d.member (s.phase i) = true ∨ d.threaded = true ∧ s.main = .spawning i
  nodup : s.registry.Nodup
  hubMain : s.hub = some .main ↔ d ≠ .tcpCpp ∧ ∃ todo, s.main = .shutting todo
  hubWorker : ∀ i, s.hub = some (.worker i) ↔ d.threaded = false ∧ (s.phase i).casting = true
  writer : ∀ c i, (s.conn c).writer = some i →
    d.threaded = true ∧ ∃ left, (s.phase i).target i = some (c, left)
  owned : ∀ i c, d.threaded = true → (s.phase i).current = some c → (s.conn c).writer = some i
  aims : ∀ i c, (s.phase i).current = some c ∨ c ∈ (s.phase i).later →
    c < s.count ∧ (d.threaded = false → c ∈ s.registry)
  asked : ∀ i, (s.conn i).asked = true → d = .tcpCpp →
    s.phase i = .starting ∨ s.phase i = .done ∨ (s.conn i).shut = true
  stopping : s.main = .stopping → d ≠ .tcpCpp

@[simp] theorem setPhase_phase (s : State) (i : ℕ) (p : Phase) :
    (s.setPhase i p).phase = Function.update s.phase i p := rfl

@[simp] theorem setConn_conn (s : State) (c : ℕ) (v : Conn) :
    (s.setConn c v).conn = Function.update s.conn c v := rfl

theorem setConn_self (s : State) (i : ℕ) (p : Phase) :
    (s.setPhase i p).setConn i (s.conn i) = s.setPhase i p := by
  simp [setConn, setPhase]

end State

theorem Phase.exists_target {p : Phase} {i c : ℕ} (here : p.current = some c) :
    ∃ left, p.target i = some (c, left) := by
  cases p with
  | writing frame d left targets last =>
    cases here
    exact ⟨left, rfl⟩
  | _ => cases here

theorem Phase.casting_of_aimed {p : Phase} {c : ℕ} (aimed : p.current = some c ∨ c ∈ p.later) :
    p.casting = true := by
  cases p with
  | sending frame targets last => rfl
  | writing frame e left targets last => rfl
  | _ => rcases aimed with ⟨⟨⟩⟩ | ⟨⟨⟩⟩

theorem Conn.release_writer {c : Conn} {i j : ℕ} :
    (c.release i).writer = some j ↔ j ≠ i ∧ c.writer = some j := by
  change (if c.writer = some i then none else c.writer) = some j ↔ _
  split
  · next mine =>
    rw [mine]
    simp [eq_comm]
  · next other =>
    refine ⟨fun held => ⟨?_, held⟩, And.right⟩
    rintro rfl
    exact other held

namespace Phase

theorem target_eq_some {p : Phase} {i c : ℕ} {left : Bytes} (here : p.target i = some (c, left)) :
    p = .welcoming left ∧ c = i ∨ ∃ frame targets last, p = .writing frame c left targets last := by
  cases p with
  | welcoming bytes =>
    cases here
    exact .inl ⟨rfl, rfl⟩
  | writing frame e bytes targets last =>
    cases here
    exact .inr ⟨frame, targets, last, rfl⟩
  | _ => cases here

/-- What is left of a frame that is being written, or nothing when the loop is over. -/
def more (left : Option Bytes) : Option Bytes :=
  match left with
  | some (b :: rest) => some (b :: rest)
  | _ => none

theorem wrote_welcoming (old : Bytes) (left : Option Bytes) :
    (welcoming old).wrote left = match more left with
      | some new => .welcoming new
      | none => .reading := by
  rcases left with - | - | ⟨b, rest⟩ <;> rfl

theorem wrote_writing (frame : Bytes) (c : ℕ) (old : Bytes) (targets : List ℕ) (last : Bool)
    (left : Option Bytes) : (writing frame c old targets last).wrote left = match more left with
      | some new => .writing frame c new targets last
      | none => .sending frame targets last := by
  rcases left with - | - | ⟨b, rest⟩ <;> rfl

/-- A call of the write loop changes what a worker holds and whom it writes to only at the end. -/
structure Wrote (d : Design) (i c : ℕ) (p q : Phase) : Prop where
  some : q ≠ .absent
  fits : q.fits d = true
  member : d.member q = d.member p
  casting : d.threaded = false → q.casting = p.casting
  later : q.later = p.later
  current : ∀ e, q.current = .some e → e = c ∧ p.current = .some c
  target : ∀ e left, q.target i = .some (e, left) → e = c

theorem wrote_spec {d : Design} {p : Phase} {i c : ℕ} {left : Bytes}
    (here : p.target i = some (c, left)) (fits : p.fits d = true) (rest : Option Bytes) :
    Wrote d i c p (p.wrote rest) := by
  rcases target_eq_some here with ⟨rfl, rfl⟩ | ⟨frame, targets, last, rfl⟩
  · have threaded : d.threaded = true := fits
    rw [wrote_welcoming]
    cases more rest with
    | none =>
      refine ⟨by simp, rfl, by simp [Design.member, threaded, alive], fun tcp => ?_, rfl, ?_, ?_⟩
      · rw [threaded] at tcp
        cases tcp
      · rintro e ⟨⟩
      · rintro e left ⟨⟩
    | some new =>
      refine ⟨by simp, fits, rfl, fun _ => rfl, rfl, ?_, ?_⟩
      · rintro e ⟨⟩
      · rintro e left ⟨⟩
        rfl
  · rw [wrote_writing]
    cases more rest with
    | none =>
      refine ⟨by simp, fits, rfl, fun _ => rfl, rfl, ?_, ?_⟩
      · rintro e ⟨⟩
      · rintro e left ⟨⟩
    | some new =>
      refine ⟨by simp, fits, rfl, fun _ => rfl, rfl, ?_, ?_⟩
      · rintro e ⟨⟩
        exact ⟨rfl, rfl⟩
      · rintro e left ⟨⟩
        rfl

end Phase

namespace State.Inv

variable {d : Design} {s : State}

theorem lt_count (inv : s.Inv d) {i : ℕ} (member : i ∈ s.registry) : i < s.count := by
  rcases (inv.registry i).mp member with alive | ⟨-, spawning⟩
  · refine inv.counted i fun absent => ?_
    rw [absent] at alive
    unfold Design.member at alive
    split at alive <;> cases alive
  · exact (inv.fresh i (.inr spawning)).1

theorem not_spawning (inv : s.Inv d) {i : ℕ} (there : s.phase i ≠ .absent) :
    s.main ≠ .spawning i := fun main => there (inv.fresh i (.inr main)).2

/-- A step of one worker, which may touch one connection, the mutex and its own registration. -/
theorem work (inv : s.Inv d) {i c : ℕ} {p : Phase} {v : Conn} (hub : Option Thread)
    (registry : List ℕ) (there : s.phase i ≠ .absent) (some' : p ≠ .absent)
    (fits : p.fits d = true)
    (own : i ∈ registry ↔ d.member p = true)
    (rest : ∀ j, j ≠ i → (j ∈ registry ↔ j ∈ s.registry))
    (nodup : registry.Nodup)
    (main : hub = some .main ↔ s.hub = some .main)
    (holds : hub = some (.worker i) ↔ d.threaded = false ∧ p.casting = true)
    (held : ∀ j, j ≠ i → (hub = some (.worker j) ↔ s.hub = some (.worker j)))
    (writer : ∀ j, v.writer = some j → d.threaded = true ∧
      if j = i then ∃ left, p.target i = some (c, left) else (s.conn c).writer = some j)
    (kept : ∀ e, e ≠ c → (s.conn e).writer = some i → ∃ left, p.target i = some (e, left))
    (owned : d.threaded = true → ∀ e, p.current = some e →
      (Function.update s.conn c v e).writer = some i)
    (others : ∀ j, j ≠ i → (s.conn c).writer = some j → v.writer = some j)
    (aims : ∀ e, p.current = some e ∨ e ∈ p.later →
      e < s.count ∧ (d.threaded = false → e ∈ registry))
    (still : d.threaded = false → ∀ j, j ≠ i → (s.phase j).casting = true → registry = s.registry)
    (asked : ∀ j, (Function.update s.conn c v j).asked = true → d = .tcpCpp →
      Function.update s.phase i p j = .starting ∨ Function.update s.phase i p j = .done ∨
        (Function.update s.conn c v j).shut = true) :
    ({ (s.setPhase i p).setConn c v with hub, registry } : State).Inv d := by
  have elsewhere : ∀ j, j ≠ i → Function.update s.phase i p j = s.phase j := fun j other =>
    Function.update_of_ne other ..
  have present : ∀ j, Function.update s.phase i p j = .absent ↔ s.phase j = .absent := by
    intro j
    rcases eq_or_ne j i with rfl | other
    · rw [Function.update_self]
      exact iff_of_false some' there
    · rw [elsewhere j other]
  constructor
  · exact fun j other => inv.counted j fun absent => other ((present j).mpr absent)
  · exact fun j inside absent => inv.waiting j inside ((present j).mp absent)
  · intro j main
    obtain ⟨inside, absent⟩ := inv.fresh j main
    exact ⟨inside, (present j).mpr absent⟩
  · exact inv.added
  · intro j
    change (Function.update s.phase i p j).fits d = true
    rcases eq_or_ne j i with rfl | other
    · rw [Function.update_self, fits]
    · rw [elsewhere j other, inv.fits]
  · intro j
    change j ∈ registry ↔ d.member (Function.update s.phase i p j) = true ∨
      d.threaded = true ∧ s.main = .spawning j
    rcases eq_or_ne j i with rfl | other
    · rw [Function.update_self, own]
      exact (or_iff_left fun both => inv.not_spawning there both.2).symm
    · rw [elsewhere j other, rest j other]
      exact inv.registry j
  · exact nodup
  · exact main.trans inv.hubMain
  · intro j
    change hub = some (.worker j) ↔ d.threaded = false ∧
      (Function.update s.phase i p j).casting = true
    rcases eq_or_ne j i with rfl | other
    · rw [Function.update_self, holds]
    · rw [elsewhere j other, held j other]
      exact inv.hubWorker j
  · intro e j here
    change d.threaded = true ∧ ∃ left, (Function.update s.phase i p j).target j = some (e, left)
    change (Function.update s.conn c v e).writer = some j at here
    rcases eq_or_ne e c with rfl | apart
    · rw [Function.update_self] at here
      obtain ⟨threaded, from'⟩ := writer j here
      rcases eq_or_ne j i with rfl | other
      · rw [if_pos rfl] at from'
        rw [Function.update_self]
        exact ⟨threaded, from'⟩
      · rw [if_neg other] at from'
        rw [elsewhere j other]
        exact inv.writer e j from'
    · rw [Function.update_of_ne apart] at here
      rcases eq_or_ne j i with rfl | other
      · rw [Function.update_self]
        exact ⟨(inv.writer e j here).1, kept e apart here⟩
      · rw [elsewhere j other]
        exact inv.writer e j here
  · intro j e threaded here
    change (Function.update s.phase i p j).current = some e at here
    change (Function.update s.conn c v e).writer = some j
    rcases eq_or_ne j i with rfl | other
    · rw [Function.update_self] at here
      exact owned threaded e here
    · rw [elsewhere j other] at here
      have mine := inv.owned j e threaded here
      rcases eq_or_ne e c with rfl | apart
      · rw [Function.update_self]
        exact others j other mine
      · rwa [Function.update_of_ne apart]
  · intro j e aimed
    change (Function.update s.phase i p j).current = some e ∨
      e ∈ (Function.update s.phase i p j).later at aimed
    change e < s.count ∧ (d.threaded = false → e ∈ registry)
    rcases eq_or_ne j i with rfl | other
    · rw [Function.update_self] at aimed
      exact aims e aimed
    · rw [elsewhere j other] at aimed
      obtain ⟨inside, member⟩ := inv.aims j e aimed
      refine ⟨inside, fun tcp => ?_⟩
      rw [still tcp j other (Phase.casting_of_aimed aimed)]
      exact member tcp
  · exact asked
  · exact inv.stopping

theorem idle (inv : s.Inv d) {i : ℕ} (here : (s.phase i).target i = none) (e : ℕ) :
    (s.conn e).writer ≠ some i := by
  intro held
  obtain ⟨-, left, target⟩ := inv.writer e i held
  rw [here] at target
  cases target

/-- A step of a worker between its writes, which ends outside a broadcast. -/
theorem outside (inv : s.Inv d) {i : ℕ} {p : Phase} {v : Conn} (hub : Option Thread)
    (registry : List ℕ) (there : s.phase i ≠ .absent) (some' : p ≠ .absent)
    (fits : p.fits d = true) (casting : p.casting = false)
    (idle : (s.phase i).target i = none)
    (own : i ∈ registry ↔ d.member p = true)
    (rest : ∀ j, j ≠ i → (j ∈ registry ↔ j ∈ s.registry))
    (nodup : registry.Nodup)
    (main : hub = some .main ↔ s.hub = some .main)
    (holds : hub ≠ some (.worker i))
    (held : ∀ j, j ≠ i → (hub = some (.worker j) ↔ s.hub = some (.worker j)))
    (writer : v.writer = (s.conn i).writer)
    (still : d.threaded = false → ∀ j, j ≠ i → (s.phase j).casting = true → registry = s.registry)
    (asked : v.asked = true → d = .tcpCpp → p = .starting ∨ p = .done ∨ v.shut = true) :
    ({ (s.setPhase i p).setConn i v with hub, registry } : State).Inv d := by
  have outside : ∀ e, ¬ (p.current = some e ∨ e ∈ p.later) := by
    intro e aimed
    rw [Phase.casting_of_aimed aimed] at casting
    cases casting
  refine inv.work hub registry there some' fits own rest nodup main ?_ held ?_ ?_ ?_ ?_ ?_ still ?_
  · rw [casting]
    exact iff_of_false holds fun both => by cases both.2
  · intro j here
    rw [writer] at here
    have apart : j ≠ i := by
      rintro rfl
      exact inv.idle idle j here
    rw [if_neg apart]
    exact ⟨(inv.writer i j here).1, here⟩
  · exact fun e _ here => absurd here (inv.idle idle e)
  · exact fun _ e here => absurd (.inl here) (outside e)
  · exact fun j _ here => writer.trans here
  · exact fun e aimed => absurd aimed (outside e)
  · intro j
    rcases eq_or_ne j i with rfl | other
    · rw [Function.update_self, Function.update_self]
      exact asked
    · rw [Function.update_of_ne other, Function.update_of_ne other]
      exact inv.asked j

/-- A step of a worker that holds nothing before and after, and stays registered or not. -/
theorem turn (inv : s.Inv d) {i : ℕ} {p : Phase} {v : Conn} (there : s.phase i ≠ .absent)
    (some' : p ≠ .absent) (fits : p.fits d = true) (casting : p.casting = false)
    (before : (s.phase i).casting = false) (idle : (s.phase i).target i = none)
    (member : d.member p = d.member (s.phase i)) (writer : v.writer = (s.conn i).writer)
    (asked : v.asked = true → d = .tcpCpp → p = .starting ∨ p = .done ∨ v.shut = true) :
    ((s.setPhase i p).setConn i v).Inv d := by
  have own : i ∈ s.registry ↔ d.member p = true := by
    rw [inv.registry, member]
    exact or_iff_left fun both => inv.not_spawning there both.2
  have holds : s.hub ≠ some (.worker i) := by
    intro mine
    have casts := ((inv.hubWorker i).mp mine).2
    rw [before] at casts
    cases casts
  exact inv.outside s.hub s.registry there some' fits casting idle own
    (fun _ _ => Iff.rfl) inv.nodup Iff.rfl holds (fun _ _ => Iff.rfl) writer
    (fun _ _ _ _ => rfl) asked

/-- Such a step that leaves the connection as it is. -/
theorem turn_phase (inv : s.Inv d) {i : ℕ} {p : Phase} (there : s.phase i ≠ .absent)
    (some' : p ≠ .absent) (fits : p.fits d = true) (casting : p.casting = false)
    (before : (s.phase i).casting = false) (idle : (s.phase i).target i = none)
    (member : d.member p = d.member (s.phase i))
    (running : d = .tcpCpp → s.phase i ≠ .starting ∧ s.phase i ≠ .done) :
    (s.setPhase i p).Inv d := by
  rw [← setConn_self s i p]
  refine inv.turn there some' fits casting before idle member rfl fun asked cpp => ?_
  rcases inv.asked i asked cpp with starting | done | shut
  · exact absurd starting (running cpp).1
  · exact absurd done (running cpp).2
  · exact .inr (.inr shut)

theorem signal (inv : s.Inv d) (status : Status) (stop : Bool) :
    ({ s with status, stop } : State).Inv d :=
  ⟨inv.counted, inv.waiting, inv.fresh, inv.added, inv.fits, inv.registry, inv.nodup, inv.hubMain,
    inv.hubWorker, inv.writer, inv.owned, inv.aims, inv.asked, inv.stopping⟩

/-- A connection changes under the same lock. -/
theorem setConn (inv : s.Inv d) {c : ℕ} {v : Conn} (writer : v.writer = (s.conn c).writer)
    (asked : v.asked = true → d = .tcpCpp →
      s.phase c = .starting ∨ s.phase c = .done ∨ v.shut = true) : (s.setConn c v).Inv d := by
  have same : ∀ e, (Function.update s.conn c v e).writer = (s.conn e).writer := by
    intro e
    rcases eq_or_ne e c with rfl | other
    · rw [Function.update_self, writer]
    · rw [Function.update_of_ne other]
  refine ⟨inv.counted, inv.waiting, inv.fresh, inv.added, inv.fits, inv.registry, inv.nodup,
    inv.hubMain, inv.hubWorker, fun e j here => ?_, fun j e threaded here => ?_, inv.aims,
    fun j => ?_, inv.stopping⟩
  · rw [setConn_conn, same] at here
    exact inv.writer e j here
  · rw [setConn_conn, same]
    exact inv.owned j e threaded here
  · rw [setConn_conn]
    rcases eq_or_ne j c with rfl | other
    · rw [Function.update_self]
      exact asked
    · rw [Function.update_of_ne other]
      exact inv.asked j

/-- The main thread moves outside its accept. -/
theorem steer (inv : s.Inv d) {main : Main} (hub : Option Thread)
    (before : ∀ i, s.main ≠ .adding i ∧ s.main ≠ .spawning i)
    (after : ∀ i, main ≠ .adding i ∧ main ≠ .spawning i)
    (hubMain : hub = some .main ↔ d ≠ .tcpCpp ∧ ∃ todo, main = .shutting todo)
    (hubWorker : ∀ i, hub = some (.worker i) ↔ s.hub = some (.worker i))
    (stopping : main = .stopping → d ≠ .tcpCpp) : ({ s with main, hub } : State).Inv d := by
  refine ⟨inv.counted, fun i inside absent => ?_, fun i here => ?_, fun i here => ?_, inv.fits,
    fun i => ?_, inv.nodup, hubMain, fun i => (hubWorker i).trans (inv.hubWorker i), inv.writer,
    inv.owned, inv.aims, inv.asked, stopping⟩
  · rcases inv.waiting i inside absent with adding | spawning
    · exact absurd adding (before i).1
    · exact absurd spawning (before i).2
  · rcases here with adding | spawning
    · exact absurd adding (after i).1
    · exact absurd spawning (after i).2
  · exact absurd here (after i).1
  · rw [inv.registry]
    exact or_congr_right (iff_of_false (fun both => (before i).2 both.2)
      fun both => (after i).2 both.2)

theorem accept (inv : s.Inv d) (main : s.main = .polling) :
    ({ s.setConn s.count { nick := d.noNick } with
      count := s.count + 1
      main := if d.threaded then .adding s.count else .spawning s.count } : State).Inv d := by
  have absent : s.phase s.count = .absent := by
    by_contra other
    exact lt_irrefl _ (inv.counted _ other)
  have aimless : ∀ i c, (s.phase i).current = some c ∨ c ∈ (s.phase i).later → c ≠ s.count :=
    fun i c aimed => (inv.aims i c aimed).1.ne
  have polling : ∀ i, s.main ≠ .adding i ∧ s.main ≠ .spawning i := by
    intro i
    rw [main]
    exact ⟨by simp, by simp⟩
  constructor
  · exact fun i other => (inv.counted i other).trans (Nat.lt_succ_self _)
  · intro i inside gone
    change i < s.count + 1 at inside
    change (if d.threaded then Main.adding s.count else .spawning s.count) = .adding i ∨
      (if d.threaded then Main.adding s.count else .spawning s.count) = .spawning i
    have last : i = s.count := by
      by_contra other
      rcases inv.waiting i (by omega) gone with adding | spawning
      · exact (polling i).1 adding
      · exact (polling i).2 spawning
    subst last
    split
    · exact .inl rfl
    · exact .inr rfl
  · intro i here
    change (if d.threaded then Main.adding s.count else .spawning s.count) = .adding i ∨
      (if d.threaded then Main.adding s.count else .spawning s.count) = .spawning i at here
    have last : i = s.count := by
      split at here
      · rcases here with ⟨⟨⟩⟩ | ⟨⟨⟩⟩
        rfl
      · rcases here with ⟨⟨⟩⟩ | ⟨⟨⟩⟩
        rfl
    subst last
    exact ⟨Nat.lt_succ_self _, absent⟩
  · intro i here
    change (if d.threaded then Main.adding s.count else .spawning s.count) = .adding i at here
    split at here
    · next threaded => exact threaded
    · cases here
  · exact inv.fits
  · intro i
    change i ∈ s.registry ↔ d.member (s.phase i) = true ∨ d.threaded = true ∧
      (if d.threaded then Main.adding s.count else .spawning s.count) = .spawning i
    rw [inv.registry]
    refine or_congr_right (iff_of_false (fun both => (polling i).2 both.2) fun both => ?_)
    rw [if_pos both.1] at both
    cases both.2
  · exact inv.nodup
  · change s.hub = some .main ↔ d ≠ .tcpCpp ∧ ∃ todo,
      (if d.threaded then Main.adding s.count else .spawning s.count) = .shutting todo
    rw [inv.hubMain]
    refine and_congr_right fun _ => iff_of_false ?_ ?_
    · rintro ⟨todo, here⟩
      rw [main] at here
      cases here
    · rintro ⟨todo, here⟩
      split at here <;> cases here
  · exact inv.hubWorker
  · intro c i here
    change (Function.update s.conn s.count _ c).writer = some i at here
    rcases eq_or_ne c s.count with rfl | other
    · rw [Function.update_self] at here
      cases here
    · rw [Function.update_of_ne other] at here
      exact inv.writer c i here
  · intro i c threaded here
    change (Function.update s.conn s.count _ c).writer = some i
    rw [Function.update_of_ne (aimless i c (.inl here))]
    exact inv.owned i c threaded here
  · intro i c aimed
    obtain ⟨inside, member⟩ := inv.aims i c aimed
    exact ⟨inside.trans (Nat.lt_succ_self _), member⟩
  · intro i
    change (Function.update s.conn s.count _ i).asked = true → _ → _ ∨ _ ∨
      (Function.update s.conn s.count _ i).shut = true
    rcases eq_or_ne i s.count with rfl | other
    · rw [Function.update_self]
      intro asked
      cases asked
    · rw [Function.update_of_ne other]
      exact inv.asked i
  · intro here
    change (if d.threaded then Main.adding s.count else .spawning s.count) = .stopping at here
    split at here <;> cases here

theorem threaded_hub (inv : s.Inv d) (threaded : d.threaded = true) (i : ℕ) :
    s.hub ≠ some (.worker i) := by
  intro held
  have tcp := ((inv.hubWorker i).mp held).1
  rw [threaded] at tcp
  cases tcp

theorem register (inv : s.Inv d) {i : ℕ} (main : s.main = .adding i) :
    ({ s with registry := s.registry ++ [i], main := .spawning i } : State).Inv d := by
  obtain ⟨inside, absent⟩ := inv.fresh i (.inl main)
  have threaded := inv.added i main
  have outside : i ∉ s.registry := by
    rw [inv.registry, absent, main]
    simp [Design.member, threaded, Phase.alive]
  constructor
  · exact inv.counted
  · intro j within gone
    rcases inv.waiting j within gone with adding | spawning
    · rw [main] at adding
      cases adding
      exact .inr rfl
    · rw [main] at spawning
      cases spawning
  · intro j here
    rcases here with ⟨⟨⟩⟩ | ⟨⟨⟩⟩
    exact ⟨inside, absent⟩
  · intro j here
    cases here
  · exact inv.fits
  · intro j
    change j ∈ s.registry ++ [i] ↔ d.member (s.phase j) = true ∨
      d.threaded = true ∧ Main.spawning i = .spawning j
    rw [List.mem_append, List.mem_singleton, inv.registry, main]
    simp only [threaded, true_and, Main.spawning.injEq, reduceCtorEq, or_false]
    exact or_congr_right eq_comm
  · refine List.nodup_append.mpr ⟨inv.nodup, List.nodup_singleton i, ?_⟩
    rintro j member k single rfl
    rw [List.mem_singleton] at single
    exact outside (single ▸ member)
  · change s.hub = some .main ↔ d ≠ .tcpCpp ∧ ∃ todo, Main.spawning i = .shutting todo
    rw [inv.hubMain, main]
    simp
  · exact inv.hubWorker
  · exact inv.writer
  · exact inv.owned
  · intro j c aimed
    obtain ⟨within, member⟩ := inv.aims j c aimed
    exact ⟨within, fun tcp => List.mem_append_left _ (member tcp)⟩
  · exact inv.asked
  · rintro ⟨⟩

theorem spawn (inv : s.Inv d) {i : ℕ} (main : s.main = .spawning i) :
    ({ s.setPhase i .starting with main := .polling } : State).Inv d := by
  obtain ⟨inside, absent⟩ := inv.fresh i (.inr main)
  have elsewhere : ∀ j, j ≠ i → Function.update s.phase i .starting j = s.phase j :=
    fun j other => Function.update_of_ne other ..
  constructor
  · intro j there
    rcases eq_or_ne j i with rfl | other
    · exact inside
    · exact inv.counted j fun gone => there ((elsewhere j other).trans gone)
  · intro j within gone
    change Function.update s.phase i .starting j = .absent at gone
    rcases eq_or_ne j i with rfl | other
    · rw [Function.update_self] at gone
      cases gone
    · rw [elsewhere j other] at gone
      rcases inv.waiting j within gone with adding | spawning
      · rw [main] at adding
        cases adding
      · rw [main] at spawning
        exact absurd (Main.spawning.inj spawning).symm other
  · rintro j (⟨⟨⟩⟩ | ⟨⟨⟩⟩)
  · rintro j ⟨⟩
  · intro j
    change (Function.update s.phase i .starting j).fits d = true
    rcases eq_or_ne j i with rfl | other
    · rw [Function.update_self]
      rfl
    · rw [elsewhere j other, inv.fits]
  · intro j
    change j ∈ s.registry ↔ d.member (Function.update s.phase i .starting j) = true ∨
      d.threaded = true ∧ Main.polling = .spawning j
    rw [inv.registry, main]
    rcases eq_or_ne j i with rfl | other
    · rw [Function.update_self, absent]
      cases threaded : d.threaded <;> simp [Design.member, threaded, Phase.alive, Phase.serving]
    · rw [elsewhere j other]
      simp [Ne.symm other]
  · exact inv.nodup
  · change s.hub = some .main ↔ d ≠ .tcpCpp ∧ ∃ todo, Main.polling = .shutting todo
    rw [inv.hubMain, main]
    simp
  · intro j
    change s.hub = some (.worker j) ↔ d.threaded = false ∧
      (Function.update s.phase i .starting j).casting = true
    rw [inv.hubWorker]
    rcases eq_or_ne j i with rfl | other
    · rw [Function.update_self, absent]
      rfl
    · rw [elsewhere j other]
  · intro c j here
    change d.threaded = true ∧ ∃ left,
      (Function.update s.phase i .starting j).target j = some (c, left)
    obtain ⟨threaded, left, target⟩ := inv.writer c j here
    refine ⟨threaded, left, ?_⟩
    rcases eq_or_ne j i with rfl | other
    · rw [absent] at target
      cases target
    · rwa [elsewhere j other]
  · intro j c threaded here
    change (Function.update s.phase i .starting j).current = some c at here
    rcases eq_or_ne j i with rfl | other
    · rw [Function.update_self] at here
      cases here
    · rw [elsewhere j other] at here
      exact inv.owned j c threaded here
  · intro j c aimed
    change (Function.update s.phase i .starting j).current = some c ∨
      c ∈ (Function.update s.phase i .starting j).later at aimed
    rcases eq_or_ne j i with rfl | other
    · rw [Function.update_self] at aimed
      rcases aimed with ⟨⟨⟩⟩ | ⟨⟨⟩⟩
    · rw [elsewhere j other] at aimed
      exact inv.aims j c aimed
  · intro j asked cpp
    change Function.update s.phase i .starting j = .starting ∨
      Function.update s.phase i .starting j = .done ∨ _
    rcases eq_or_ne j i with rfl | other
    · rw [Function.update_self]
      exact .inl rfl
    · rw [elsewhere j other]
      exact inv.asked j asked cpp
  · rintro ⟨⟩

theorem member_iff (inv : s.Inv d) {i : ℕ} (there : s.phase i ≠ .absent) :
    i ∈ s.registry ↔ d.member (s.phase i) = true := by
  rw [inv.registry]
  exact or_iff_left fun both => inv.not_spawning there both.2

/-- A worker keeps its registration through a step. -/
theorem own_of_member (inv : s.Inv d) {i : ℕ} {p : Phase} (there : s.phase i ≠ .absent)
    (member : d.member p = d.member (s.phase i)) : i ∈ s.registry ↔ d.member p = true := by
  rw [inv.member_iff there, member]

/-- The worker's socket is shut by the time it has passed its start, if it was asked to stop. -/
theorem asked_update (inv : s.Inv d) {i c : ℕ} {p : Phase} {v : Conn}
    (shut : v.shut = (s.conn c).shut) (asked : v.asked = (s.conn c).asked)
    (running : d = .tcpCpp → s.phase i ≠ .starting ∧ s.phase i ≠ .done) (j : ℕ)
    (told : (Function.update s.conn c v j).asked = true) (cpp : d = .tcpCpp) :
    Function.update s.phase i p j = .starting ∨ Function.update s.phase i p j = .done ∨
      (Function.update s.conn c v j).shut = true := by
  have same : (Function.update s.conn c v j).asked = (s.conn j).asked ∧
      (Function.update s.conn c v j).shut = (s.conn j).shut := by
    rcases eq_or_ne j c with rfl | other
    · rw [Function.update_self]
      exact ⟨asked, shut⟩
    · rw [Function.update_of_ne other]
      exact ⟨rfl, rfl⟩
  rw [same.1] at told
  rw [same.2]
  have before := inv.asked j told cpp
  rcases eq_or_ne j i with rfl | other
  · rw [Function.update_self]
    rcases before with starting | done | shut
    · exact absurd starting (running cpp).1
    · exact absurd done (running cpp).2
    · exact .inr (.inr shut)
  · rwa [Function.update_of_ne other]

theorem lock (inv : s.Inv d) {i : ℕ} {order : List ℕ} {frame : Bytes} {except : Option ℕ}
    {last : Bool} (here : s.phase i = .ready frame except last) (free : s.hub = none)
    (perm : order.Perm (s.registry.filter fun c => except ≠ some c)) :
    ({ s.setPhase i (.sending frame order last) with
      hub := if d.threaded then none else some (.worker i) } : State).Inv d := by
  have there : s.phase i ≠ .absent := by simp [here]
  have fits := inv.fits i
  rw [here] at fits
  have known : ∀ e ∈ order, e ∈ s.registry := fun e inside =>
    (List.mem_filter.mp (perm.subset inside)).1
  rw [← State.setConn_self s i]
  refine inv.work _ s.registry there (by simp) fits (inv.own_of_member there ?_)
    (fun _ _ => Iff.rfl) inv.nodup ?_ ?_ ?_ ?_ ?_ ?_ (fun _ _ same => same) ?_
    (fun _ _ _ _ => rfl) (inv.asked_update rfl rfl fun _ => by simp [here])
  · rw [here]
    rfl
  · rw [free]
    split <;> simp
  · cases d.threaded <;> simp [Phase.casting]
  · intro j other
    rw [free]
    split
    · exact Iff.rfl
    · simpa using Ne.symm other
  · intro j mine
    obtain ⟨threaded, left, target⟩ := inv.writer i j mine
    refine ⟨threaded, ?_⟩
    rw [if_neg]
    · exact mine
    · rintro rfl
      rw [here] at target
      cases target
  · intro e _ mine
    obtain ⟨-, left, target⟩ := inv.writer e i mine
    rw [here] at target
    cases target
  · rintro - e ⟨⟩
  · rintro e (⟨⟨⟩⟩ | inside)
    exact ⟨inv.lt_count (known e inside), fun _ => known e inside⟩

theorem write (inv : s.Inv d) {i c : ℕ} {left : Bytes}
    (here : (s.phase i).target i = some (c, left)) (w : Lib.Wrote) :
    (s.wrote i c left w).Inv d := by
  have spec := Phase.wrote_spec here (inv.fits i) (w.rest left)
  have there : s.phase i ≠ .absent := by
    intro absent
    rw [absent] at here
    cases here
  unfold State.wrote
  generalize (s.phase i).wrote (w.rest left) = p at spec
  let conn : Conn := { s.conn c with sent := (s.conn c).sent ++ taken left w }
  change (((s.setPhase i p).setConn c
    (if (p.target i).isSome then conn else conn.release i)).Inv d)
  generalize final : (if (p.target i).isSome then conn else conn.release i) = v
  have writer : ∀ j, v.writer = some j ↔
      (s.conn c).writer = some j ∧ (j = i → (p.target i).isSome = true) := by
    intro j
    rw [← final]
    split
    · next going => exact (and_iff_left fun _ => going).symm
    · next finished =>
      rw [Conn.release_writer, and_comm]
      exact and_congr_right fun _ => ⟨fun other same => absurd same other, fun same other =>
        finished (same other)⟩
  have same : v.shut = (s.conn c).shut ∧ v.asked = (s.conn c).asked := by
    rw [← final]
    split <;> exact ⟨rfl, rfl⟩
  refine inv.work s.hub s.registry there spec.some spec.fits
    (inv.own_of_member there spec.member) (fun _ _ => Iff.rfl) inv.nodup Iff.rfl ?_
    (fun _ _ => Iff.rfl) ?_ ?_ ?_ ?_ ?_ (fun _ _ _ _ => rfl)
    (inv.asked_update same.1 same.2 fun _ => ?_)
  · rw [inv.hubWorker]
    exact and_congr_right fun tcp => by rw [spec.casting tcp]
  · intro j mine
    obtain ⟨held, going⟩ := (writer j).mp mine
    refine ⟨(inv.writer c j held).1, ?_⟩
    split
    · next same =>
      obtain ⟨⟨e, more⟩, target⟩ := Option.isSome_iff_exists.mp (going same)
      obtain rfl := spec.target e more target
      exact ⟨more, target⟩
    · exact held
  · intro e other held
    obtain ⟨-, more, target⟩ := inv.writer e i held
    rw [here] at target
    cases target
    exact absurd rfl other
  · intro threaded e now
    obtain ⟨rfl, before⟩ := spec.current e now
    obtain ⟨more, target⟩ := Phase.exists_target (i := i) now
    rw [Function.update_self, writer]
    exact ⟨inv.owned i e threaded before, fun _ => by rw [target]; rfl⟩
  · intro j other held
    exact (writer j).mpr ⟨held, fun same => absurd same other⟩
  · rintro e (now | inside)
    · obtain ⟨rfl, before⟩ := spec.current e now
      exact inv.aims i e (.inl before)
    · rw [spec.later] at inside
      exact inv.aims i e (.inr inside)
  · constructor
    · intro starting
      rw [starting] at here
      cases here
    · intro done
      rw [done] at here
      cases here

theorem nextTcp (inv : s.Inv d) {i c : ℕ} {frame : Bytes} {rest : List ℕ} {last : Bool}
    (here : s.phase i = .sending frame (c :: rest) last) (tcp : d.threaded = false) :
    (s.setPhase i (.writing frame c frame rest last)).Inv d := by
  have there : s.phase i ≠ .absent := by simp [here]
  have fits := inv.fits i
  rw [here] at fits
  rw [← State.setConn_self s i]
  have noOne : ∀ e j, (s.conn e).writer ≠ some j := by
    intro e j held
    have threaded := (inv.writer e j held).1
    rw [tcp] at threaded
    cases threaded
  refine inv.work s.hub s.registry there (by simp) fits
    (inv.own_of_member there ?_) (fun _ _ => Iff.rfl) inv.nodup Iff.rfl ?_ (fun _ _ => Iff.rfl)
    (fun j held => absurd held (noOne i j)) (fun e _ held => absurd held (noOne e i)) ?_
    (fun _ _ same => same) ?_ (fun _ _ _ _ => rfl)
    (inv.asked_update rfl rfl fun _ => by simp [here])
  · rw [here]
    rfl
  · rw [inv.hubWorker, here]
    rfl
  · intro threaded
    rw [tcp] at threaded
    cases threaded
  · rintro e (⟨⟨⟩⟩ | inside)
    · exact inv.aims i c (.inr (by rw [here]; exact List.mem_cons_self))
    · exact inv.aims i e (.inr (by rw [here]; exact List.mem_cons_of_mem c inside))

theorem next (inv : s.Inv d) {i c : ℕ} {frame : Bytes} {rest : List ℕ} {last : Bool}
    (here : s.phase i = .sending frame (c :: rest) last) (threaded : d.threaded = true)
    (free : (s.conn c).writer = none) :
    ((s.setPhase i (.writing frame c frame rest last)).setConn c
      { s.conn c with writer := some i }).Inv d := by
  have there : s.phase i ≠ .absent := by simp [here]
  have fits := inv.fits i
  rw [here] at fits
  have idle : ∀ e, (s.conn e).writer ≠ some i := inv.idle (by rw [here]; rfl)
  refine inv.work s.hub s.registry there (by simp) fits
    (inv.own_of_member there ?_) (fun _ _ => Iff.rfl) inv.nodup Iff.rfl ?_ (fun _ _ => Iff.rfl)
    ?_ (fun e _ held => absurd held (idle e)) ?_ ?_ ?_ (fun _ _ _ _ => rfl)
    (inv.asked_update rfl rfl fun _ => by simp [here])
  · rw [here]
    rfl
  · rw [inv.hubWorker, here]
    rfl
  · rintro j ⟨⟩
    rw [if_pos rfl]
    exact ⟨threaded, frame, rfl⟩
  · rintro - e ⟨⟩
    rw [Function.update_self]
  · intro j _ held
    rw [free] at held
    cases held
  · rintro e (⟨⟨⟩⟩ | inside)
    · exact inv.aims i c (.inr (by rw [here]; exact List.mem_cons_self))
    · exact inv.aims i e (.inr (by rw [here]; exact List.mem_cons_of_mem c inside))

theorem startRust (inv : s.Inv d) {i : ℕ} (here : s.phase i = .starting)
    (threaded : d.threaded = true) (free : (s.conn i).writer = none) :
    ((s.setPhase i (.welcoming welcome)).setConn i { s.conn i with writer := some i }).Inv d := by
  have there : s.phase i ≠ .absent := by simp [here]
  have idle : ∀ e, (s.conn e).writer ≠ some i := inv.idle (by rw [here]; rfl)
  refine inv.work s.hub s.registry there (by simp) threaded
    (inv.own_of_member there ?_) (fun _ _ => Iff.rfl) inv.nodup Iff.rfl ?_ (fun _ _ => Iff.rfl)
    ?_ (fun e _ held => absurd held (idle e)) ?_ ?_ ?_ (fun _ _ _ _ => rfl)
    (inv.asked_update rfl rfl fun cpp => ?_)
  · rw [here]
    simp [Design.member, threaded, Phase.alive]
  · rw [inv.hubWorker, here]
    rfl
  · rintro j ⟨⟩
    rw [if_pos rfl]
    exact ⟨threaded, welcome, rfl⟩
  · rintro - e ⟨⟩
  · intro j _ held
    rw [free] at held
    cases held
  · rintro e (⟨⟨⟩⟩ | ⟨⟨⟩⟩)
  · rw [cpp] at threaded
    cases threaded

theorem add (inv : s.Inv d) {i : ℕ} (here : s.phase i = .adding) (free : s.hub = none) :
    ({ s.setPhase i .reading with registry := s.registry ++ [i] } : State).Inv d := by
  have there : s.phase i ≠ .absent := by simp [here]
  have tcp : d.threaded = false := by
    have fits := inv.fits i
    rw [here] at fits
    simpa [Phase.fits] using fits
  have outside : i ∉ s.registry := by
    rw [inv.member_iff there, here]
    simp [Design.member, tcp, Phase.serving]
  have nobody : ∀ j, (s.phase j).casting ≠ true := by
    intro j casting
    have held := (inv.hubWorker j).mpr ⟨tcp, casting⟩
    rw [free] at held
    cases held
  rw [← State.setConn_self s i]
  refine inv.outside s.hub _ there (by simp) rfl rfl (by rw [here]; rfl) ?_ ?_ ?_ Iff.rfl ?_
    (fun _ _ => Iff.rfl) rfl (fun _ j _ casting => absurd casting (nobody j)) fun asked cpp => ?_
  · simp [Design.member, tcp, Phase.serving]
  · intro j other
    simp [other]
  · refine List.nodup_append.mpr ⟨inv.nodup, List.nodup_singleton i, ?_⟩
    rintro j member k single rfl
    rw [List.mem_singleton] at single
    exact outside (single ▸ member)
  · rw [free]
    simp
  · rcases inv.asked i asked cpp with starting | done | shut
    · rw [here] at starting
      cases starting
    · rw [here] at done
      cases done
    · exact .inr (.inr shut)

theorem remove (inv : s.Inv d) {i : ℕ} (here : s.phase i = .removing) (free : s.hub = none)
    (nick : Bytes) : ({ s.setPhase i (afterRemove d nick) with
      registry := s.registry.filter (· ≠ i) } : State).Inv d := by
  have there : s.phase i ≠ .absent := by simp [here]
  have spec : afterRemove d nick ≠ .absent ∧ (afterRemove d nick).fits d = true ∧
      (afterRemove d nick).casting = false ∧ d.member (afterRemove d nick) = false := by
    unfold afterRemove Design.member
    split
    · exact ⟨by simp, rfl, rfl, rfl⟩
    · next tcp =>
      split
      · exact ⟨by simp, rfl, rfl, rfl⟩
      · exact ⟨by simp, by simp [Phase.fits, tcp], rfl, rfl⟩
  generalize afterRemove d nick = p at spec
  obtain ⟨some', fits, casting, member⟩ := spec
  rw [← State.setConn_self s i]
  refine inv.outside s.hub _ there some' fits casting (by rw [here]; rfl) ?_ ?_
    (inv.nodup.filter _) Iff.rfl ?_ (fun _ _ => Iff.rfl) rfl ?_ fun asked cpp => ?_
  · simp [member]
  · intro j other
    simp [other]
  · rw [free]
    simp
  · intro tcp j _ casting
    have held := (inv.hubWorker j).mpr ⟨tcp, casting⟩
    rw [free] at held
    cases held
  · rcases inv.asked i asked cpp with starting | done | shut
    · rw [here] at starting
      cases starting
    · rw [here] at done
      cases done
    · exact .inr (.inr shut)

theorem finish (inv : s.Inv d) {i : ℕ} {frame : Bytes} {last : Bool}
    (here : s.phase i = .sending frame [] last) :
    ({ s.setPhase i (if last then .done else .reading) with
      hub := if d.threaded then s.hub else none } : State).Inv d := by
  have there : s.phase i ≠ .absent := by simp [here]
  have fits := inv.fits i
  rw [here] at fits
  have ends : (if last then Phase.done else .reading) ≠ .absent ∧
      (if last then Phase.done else .reading).fits d = true ∧
      (if last then Phase.done else .reading).casting = false ∧
      d.member (if last then Phase.done else .reading) = d.member (s.phase i) := by
    rw [here]
    cases last with
    | true =>
      have tcp : d.threaded = false := by simpa [Phase.fits] using fits
      exact ⟨by simp, rfl, rfl, by simp [Design.member, tcp, Phase.serving]⟩
    | false => exact ⟨by simp, rfl, rfl, by simp [Design.member, Phase.serving, Phase.alive]⟩
  generalize (if last then Phase.done else .reading) = p at ends
  obtain ⟨some', fits', casting, member⟩ := ends
  rw [← State.setConn_self s i]
  refine inv.outside _ s.registry there some' fits' casting (by rw [here]; rfl)
    (inv.own_of_member there member) (fun _ _ => Iff.rfl) inv.nodup ?_ ?_ ?_ rfl
    (fun _ _ _ _ => rfl) fun asked cpp => ?_
  · split
    · exact Iff.rfl
    · next tcp =>
      have mine := (inv.hubWorker i).mpr ⟨by simpa using tcp, by rw [here]; rfl⟩
      rw [mine]
      simp
  · split
    · next threaded => exact inv.threaded_hub threaded i
    · simp
  · intro j other
    split
    · exact Iff.rfl
    · next tcp =>
      have mine := (inv.hubWorker i).mpr ⟨by simpa using tcp, by rw [here]; rfl⟩
      rw [mine]
      simpa using Ne.symm other
  · rcases inv.asked i asked cpp with starting | done | shut
    · rw [here] at starting
      cases starting
    · rw [here] at done
      cases done
    · exact .inr (.inr shut)

theorem move (inv : s.Inv d) {i : ℕ} {p : Phase} (here : s.phase i = .reading)
    (after : d.After p) : (s.setPhase i p).Inv d := by
  have there : s.phase i ≠ .absent := by simp [here]
  have spec : p ≠ .absent ∧ p.fits d = true ∧ p.casting = false ∧
      d.member p = d.member .reading := by
    cases after with
    | reading => exact ⟨by simp, rfl, rfl, rfl⟩
    | naming name => exact ⟨by simp, rfl, rfl, rfl⟩
    | asking text threaded => exact ⟨by simp, threaded, rfl, rfl⟩
    | ready frame except tcp => exact ⟨by simp, by simp [Phase.fits], rfl, rfl⟩
    | removing => exact ⟨by simp, rfl, rfl, rfl⟩
  obtain ⟨some', fits, casting, member⟩ := spec
  exact inv.turn_phase there some' fits casting (by rw [here]; rfl) (by rw [here]; rfl)
    (by rw [here, member]) fun _ => by simp [here]

theorem ask (inv : s.Inv d) {i : ℕ} {text : Bytes} (here : s.phase i = .asking text)
    (frame : Bytes) : (s.setPhase i (.ready frame none false)).Inv d :=
  inv.turn_phase (by simp [here]) (by simp) (by simp [Phase.fits]) rfl (by rw [here]; rfl)
    (by rw [here]; rfl) (by rw [here]; rfl) fun _ => by simp [here]

theorem name (inv : s.Inv d) {i : ℕ} {name : Bytes} (here : s.phase i = .naming name)
    (nick : Bytes) :
    ((s.setPhase i (afterName d nick)).setConn i { s.conn i with nick }).Inv d := by
  have there : s.phase i ≠ .absent := by simp [here]
  have spec : afterName d nick ≠ .absent ∧ (afterName d nick).fits d = true ∧
      (afterName d nick).casting = false ∧ d.member (afterName d nick) = d.member .reading := by
    unfold afterName
    split
    · exact ⟨by simp, rfl, rfl, rfl⟩
    · exact ⟨by simp, by simp [Phase.fits], rfl, rfl⟩
  obtain ⟨some', fits, casting, member⟩ := spec
  refine inv.turn there some' fits casting (by rw [here]; rfl) (by rw [here]; rfl)
    (by rw [here, member]; rfl) rfl fun asked cpp => ?_
  rcases inv.asked i asked cpp with starting | done | shut
  · rw [here] at starting
    cases starting
  · rw [here] at done
    cases done
  · exact .inr (.inr shut)

theorem startTcp (inv : s.Inv d) {i : ℕ} (here : s.phase i = .starting)
    (tcp : d.threaded = false) {shut : Bool}
    (asked : shut = ((s.conn i).shut || (d = .tcpCpp && (s.conn i).asked))) :
    ((s.setPhase i .adding).setConn i { s.conn i with shut }).Inv d := by
  refine inv.turn (by simp [here]) (by simp) (by simp [Phase.fits, tcp]) rfl (by rw [here]; rfl)
    (by rw [here]; rfl) ?_ rfl fun told cpp => .inr (.inr ?_)
  · rw [here]
    simp [Design.member, tcp, Phase.serving]
  · change shut = true
    rw [asked]
    simp only [cpp, decide_true, Bool.true_and, Bool.or_eq_true]
    exact .inr told

theorem request (inv : s.Inv d) (c : ℕ) : (s.request d c).Inv d := by
  refine inv.setConn rfl fun _ cpp => ?_
  by_cases starting : s.phase c = .starting
  · exact .inl starting
  · by_cases done : s.phase c = .done
    · exact .inr (.inl done)
    · exact .inr (.inr (by simp [cpp, starting, done]))

theorem keeps (inv : s.Inv d) {a : Action} {t : State} (effect : Effect d s a t) : t.Inv d := by
  cases effect with
  | sigint => exact inv.signal s.status true
  | client stalled closed reset stalls resets => exact inv.setConn rfl (inv.asked _)
  | ended ended => exact inv.signal _ s.stop
  | refused => exact inv
  | accept main => exact inv.accept main
  | register main free => exact inv.register main
  | spawn main => exact inv.spawn main
  | sawStop main stop =>
    refine inv.steer s.hub (by simp [main]) (by intro i; split <;> simp) ?_
      (fun _ => Iff.rfl) ?_
    · rw [inv.hubMain, main]
      split
      · next cpp => simp [cpp]
      · simp
    · split
      · rintro ⟨⟩
      · next other => exact fun _ => other
  | lockAll main free perm =>
    refine inv.steer _ (by simp [main]) (by simp) ?_ (fun i => by simp [free]) (by simp)
    simp [inv.stopping main]
  | request main cpp =>
    refine (inv.request _).steer s.hub (by simp [State.request, State.setConn, main])
      (by simp) ?_ (fun _ => Iff.rfl) (by simp)
    rw [inv.hubMain]
    simp [cpp]
  | @shut c rest main other free =>
    have shut : (s.setConn c { s.conn c with shut := true }).Inv d :=
      inv.setConn rfl fun _ _ => .inr (.inr rfl)
    refine shut.steer s.hub (by simp [State.setConn, main]) (by simp) ?_
      (fun _ => Iff.rfl) (by simp)
    rw [inv.hubMain, main]
    simp
  | release main =>
    refine inv.steer _ (by simp [main]) (by simp) ?_ (fun i => ?_) (by simp)
    · split
      · next cpp =>
        rw [inv.hubMain]
        simp [cpp]
      · simp
    · split
      · exact Iff.rfl
      · next other =>
        rw [inv.hubMain.mpr ⟨other, [], main⟩]
        simp
  | joined main done =>
    refine inv.steer s.hub (by simp [main]) (by simp) ?_ (fun _ => Iff.rfl) (by simp)
    rw [inv.hubMain, main]
    simp
  | @leave _ i rest because =>
    have before : ∀ j, s.main ≠ .adding j ∧ s.main ≠ .spawning j := by
      rcases because with ⟨-, main, -⟩ | ⟨k, main⟩ <;> simp [main]
    have calm : ∀ todo, s.main ≠ .shutting todo := by
      rcases because with ⟨-, main, -⟩ | ⟨k, main⟩ <;> simp [main]
    refine (inv.request i).steer s.hub before (by simp) ?_
      (fun _ => Iff.rfl) (by simp)
    rw [inv.hubMain]
    simp [calm]
  | @move _ i p here after =>
    exact inv.move here after
  | ask here => exact inv.ask here _
  | name here nick => exact inv.name here nick
  | startTcp here tcp shut asked => exact inv.startTcp here tcp asked
  | startError here rust =>
    exact inv.turn_phase (by simp [here]) (by simp) rfl rfl (by rw [here]; rfl) (by rw [here]; rfl)
      (by rw [here, rust]; rfl) fun cpp => by rw [rust] at cpp; cases cpp
  | startCpp here cpp =>
    exact inv.turn_phase (by simp [here]) (by simp) (by rw [cpp]; rfl) rfl (by rw [here]; rfl)
      (by rw [here]; rfl) (by rw [here, cpp]; rfl) fun other => by rw [cpp] at other; cases other
  | startRust here rust free => exact inv.startRust here (by rw [rust]; rfl) free
  | add here free => exact inv.add here free
  | write here allowed => exact inv.write here _
  | lock here free perm => exact inv.lock here free perm
  | nextTcp here tcp => exact inv.nextTcp here tcp
  | next here threaded free => exact inv.next here threaded free
  | finish here => exact inv.finish here
  | remove here free => exact inv.remove here free _

theorem init (d : Design) : (server d).init.Inv d := by
  refine ⟨fun i there => absurd rfl there, fun i inside => absurd inside (Nat.not_lt_zero i),
    ?_, ?_, fun i => rfl, fun i => ?_, List.nodup_nil, ?_, fun i => ?_, ?_, ?_, ?_, ?_, ?_⟩
  · rintro i (⟨⟨⟩⟩ | ⟨⟨⟩⟩)
  · rintro i ⟨⟩
  · refine iff_of_false List.not_mem_nil ?_
    rintro (member | ⟨-, ⟨⟩⟩)
    unfold Design.member at member
    split at member <;> cases member
  · exact iff_of_false (by simp [server]) fun both => by obtain ⟨-, -, ⟨⟩⟩ := both
  · exact iff_of_false (by simp [server]) fun both => by cases both.2
  · rintro c i ⟨⟩
  · rintro i c - ⟨⟩
  · rintro i c (⟨⟨⟩⟩ | ⟨⟨⟩⟩)
  · rintro i ⟨⟩
  · rintro ⟨⟩

end State.Inv

theorem server_step {d : Design} {s t : State} {a : Action}
    (taken : (server d).step s a = some t) : s.status = .running ∧ s.act d a = some t := by
  simpa only [server, Option.ite_none_right_eq_some] using taken

end LinuxSys.Servers.Threads
