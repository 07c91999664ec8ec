import LinuxSys.Fleet.Bridge

/-! # Descriptor numbers under a C++ broadcast

The process of one C++ node, down to the single `write` call. A broadcaster keeps its targets as
`PeerConn` objects after the registry's lock is released, and a `PeerConn` holds only a descriptor
number; the handler of a connection that ends closes that number without asking for the `wmu` of
the connection, and the accept loop or the worker's next dial may be given it at once.
-/

namespace LinuxSys.Fleet.FdReuse

open Lib Chatterd

/-- An accepted connection and the descriptor number its `PeerConn` holds. -/
structure Client where
  id : ℕ
  fd : ℕ
deriving DecidableEq, Repr

inductive Socket where
  | accepted (c : Client)
  | dialed (id : ℕ)
deriving DecidableEq, Repr

/-- The threads that broadcast: `handle_client` of a connection, and `bridge_worker`. -/
inductive Thread where
  | handler (c : Client)
  | worker
deriving DecidableEq, Repr

/-- A broadcast in progress: what `write_frame` has to write, the target it is writing to with the
bytes left, and the targets after it. -/
structure Job where
  bytes : Bytes := []
  current : Option (Client × Bytes) := none
  targets : List Client := []
deriving DecidableEq, Repr

/-- What one `write` put on a socket, and the connection it was meant for. -/
structure Write where
  socket : Socket
  selected : Client
  bytes : Bytes
deriving DecidableEq, Repr

structure State where
  next : ℕ := 0
  phase : Client → Phase := fun _ => .absent
  table : ℕ → Option Socket := fun _ => none
  hub : Hub Client := ⟨[], fun _ => ⟨[]⟩⟩
  wmu : Client → Option Thread := fun _ => none
  job : Thread → Job := fun _ => {}
  /-- The worker's connection: its number and its descriptor. -/
  link : Option (ℕ × ℕ) := none
  log : List Write := []

inductive Action where
  | accept (fd : ℕ)
  | join (c : Client) (nick : Bytes)
  | refuse (c : Client)
  | msg (c : Client) (text : Bytes)
  | relay (nick text : Bytes)
  | lock (k : Thread)
  | write (k : Thread) (count : ℕ)
  | fail (k : Thread)
  | done (k : Thread)
  | leave (c : Client)
  | close (c : Client)
  | dial (fd : ℕ)
  | drop
deriving DecidableEq, Repr

def Job.idle (job : Job) : Bool := job.current = none ∧ job.targets = []

/-- The connections a broadcast has still to write to, the one under way included. -/
def Job.pending (job : Job) : List Client := (job.current.map Prod.fst).toList ++ job.targets

/-- The bytes `write_frame` has to write; none if it refuses the frame. -/
def frameBytes (nick text : Bytes) : Bytes :=
  match writeFrame (deliverFrame nick text) with
  | .ok bytes => bytes
  | .error _ => []

namespace State

def setPhase (s : State) (c : Client) (phase : Phase) : State :=
  { s with phase := Function.update s.phase c phase }

def setFd (s : State) (fd : ℕ) (entry : Option Socket) : State :=
  { s with table := Function.update s.table fd entry }

def setJob (s : State) (k : Thread) (job : Job) : State :=
  { s with job := Function.update s.job k job }

def accepted (s : State) (c : Client) : State :=
  { (s.setPhase c .joining).setFd c.fd (some (.accepted c)) with next := s.next + 1 }

def joined (s : State) (c : Client) (conn : PeerConn) : State :=
  { s.setPhase c .serving with hub := s.hub.add c conn }

def left (s : State) (c : Client) : State :=
  { s.setPhase c .leaving with hub := s.hub.remove c }

def closed (s : State) (c : Client) : State := (s.setPhase c .closed).setFd c.fd none

def selecting (s : State) (k : Thread) (exclude : Option Client) (includeBridges : Bool)
    (nick text : Bytes) : State :=
  s.setJob k ⟨frameBytes nick text, none, s.hub.targets exclude includeBridges⟩

def locked (s : State) (k : Thread) (c : Client) (rest : List Client) : State :=
  { s.setJob k { s.job k with current := some (c, (s.job k).bytes), targets := rest } with
    wmu := Function.update s.wmu c (some k) }

/-- `write(c->fd, …)`: the kernel looks the number up now. -/
def wrote (s : State) (k : Thread) (c : Client) (left : Bytes) (count : ℕ) (socket : Socket) :
    State :=
  { s.setJob k { s.job k with current := some (c, left.drop count) } with
    log := s.log ++ [⟨socket, c, left.take count⟩] }

/-- The frame is written, or given up, and the lock is released. -/
def unlocked (s : State) (k : Thread) (c : Client) : State :=
  { s.setJob k { s.job k with current := none } with wmu := Function.update s.wmu c none }

end State

def step (s : State) : Action → Option State
  | .accept fd => if s.table fd = none then some (s.accepted ⟨s.next, fd⟩) else none
  | .join c nick => if s.phase c = .joining then some (s.joined c ⟨nick⟩) else none
  | .refuse c => if s.phase c = .joining then some (s.setPhase c .leaving) else none
  | .msg c text =>
    if s.phase c = .serving ∧ (s.job (.handler c)).idle then
      some (s.selecting (.handler c) (some c) true (s.hub.peer c).nick text)
    else none
  | .relay nick text =>
    if s.link.isSome ∧ (s.job .worker).idle then
      some (s.selecting .worker none false nick text)
    else none
  | .lock k =>
    match (s.job k).current, (s.job k).targets with
    | none, c :: rest => if s.wmu c = none then some (s.locked k c rest) else none
    | _, _ => none
  | .write k count =>
    match (s.job k).current with
    | some (c, left) =>
      if 0 < count ∧ count ≤ left.length then (s.table c.fd).map (s.wrote k c left count) else none
    | none => none
  | .fail k => (s.job k).current.map fun current => s.unlocked k current.1
  | .done k =>
    match (s.job k).current with
    | some (c, []) => some (s.unlocked k c)
    | _ => none
  | .leave c =>
    if s.phase c = .serving ∧ (s.job (.handler c)).idle then some (s.left c) else none
  | .close c => if s.phase c = .leaving then some (s.closed c) else none
  | .dial fd =>
    if s.link = none ∧ s.table fd = none then
      some { s.setFd fd (some (.dialed s.next)) with
        next := s.next + 1, link := some (s.next, fd) }
    else none
  | .drop =>
    if (s.job .worker).idle then
      s.link.map fun link => { s.setFd link.2 none with link := none }
    else none

/-- What each action does to the state, and when it is enabled. -/
inductive Effect (s : State) : Action → State → Prop
  | accept {fd : ℕ} : s.table fd = none → Effect s (.accept fd) (s.accepted ⟨s.next, fd⟩)
  | join {c : Client} {nick : Bytes} : s.phase c = .joining →
      Effect s (.join c nick) (s.joined c ⟨nick⟩)
  | refuse {c : Client} : s.phase c = .joining → Effect s (.refuse c) (s.setPhase c .leaving)
  | msg {c : Client} {text : Bytes} : s.phase c = .serving → (s.job (.handler c)).idle →
      Effect s (.msg c text)
        (s.selecting (.handler c) (some c) true (s.hub.peer c).nick text)
  | relay {nick text : Bytes} : s.link.isSome → (s.job .worker).idle →
      Effect s (.relay nick text) (s.selecting .worker none false nick text)
  | lock {k : Thread} {c : Client} {rest : List Client} : (s.job k).current = none →
      (s.job k).targets = c :: rest → s.wmu c = none → Effect s (.lock k) (s.locked k c rest)
  | write {k : Thread} {count : ℕ} {c : Client} {left : Bytes} {socket : Socket} :
      (s.job k).current = some (c, left) → 0 < count → count ≤ left.length →
      s.table c.fd = some socket → Effect s (.write k count) (s.wrote k c left count socket)
  | fail {k : Thread} {c : Client} {left : Bytes} : (s.job k).current = some (c, left) →
      Effect s (.fail k) (s.unlocked k c)
  | done {k : Thread} {c : Client} : (s.job k).current = some (c, []) →
      Effect s (.done k) (s.unlocked k c)
  | leave {c : Client} : s.phase c = .serving → (s.job (.handler c)).idle →
      Effect s (.leave c) (s.left c)
  | close {c : Client} : s.phase c = .leaving → Effect s (.close c) (s.closed c)
  | dial {fd : ℕ} : s.link = none → s.table fd = none →
      Effect s (.dial fd) { s.setFd fd (some (.dialed s.next)) with
        next := s.next + 1, link := some (s.next, fd) }
  | drop {id fd : ℕ} : (s.job .worker).idle → s.link = some (id, fd) →
      Effect s .drop { s.setFd fd none with link := none }

theorem effect_of_step {s t : State} {a : Action} (taken : step s a = some t) : Effect s a t := by
  cases a <;> simp only [step] at taken
  case accept fd =>
    split_ifs at taken with free
    cases taken
    exact .accept free
  case join c nick =>
    split_ifs at taken with joining
    cases taken
    exact .join joining
  case refuse c =>
    split_ifs at taken with joining
    cases taken
    exact .refuse joining
  case msg c text =>
    split_ifs at taken with ready
    cases taken
    exact .msg ready.1 ready.2
  case relay nick text =>
    split_ifs at taken with ready
    cases taken
    exact .relay ready.1 ready.2
  case lock k =>
    split at taken
    · next c rest current targets =>
      split_ifs at taken with free
      cases taken
      exact .lock current targets free
    · cases taken
  case write k count =>
    split at taken
    · next c left current =>
      split_ifs at taken with bounds
      obtain ⟨socket, entry, rfl⟩ := Option.map_eq_some_iff.mp taken
      exact .write current bounds.1 bounds.2 entry
    · cases taken
  case fail k =>
    obtain ⟨⟨c, left⟩, current, rfl⟩ := Option.map_eq_some_iff.mp taken
    exact .fail current
  case done k =>
    split at taken
    · next c current =>
      cases taken
      exact .done current
    · cases taken
  case leave c =>
    split_ifs at taken with ready
    cases taken
    exact .leave ready.1 ready.2
  case close c =>
    split_ifs at taken with leaving
    cases taken
    exact .close leaving
  case dial fd =>
    split_ifs at taken with ready
    cases taken
    exact .dial ready.1 ready.2
  case drop =>
    split_ifs at taken with idle
    obtain ⟨⟨id, fd⟩, current, rfl⟩ := Option.map_eq_some_iff.mp taken
    exact .drop idle current

/-- The process from its start, with no connection. -/
def node : Machine State Action where
  init := {}
  step := step

/-- A broadcast still has to write to a target with this number. -/
def State.Awaits (s : State) (fd : ℕ) : Prop := ∃ k, ∃ c ∈ (s.job k).pending, c.fd = fd

/-- No new connection gets a descriptor number that a broadcast still has to write to. -/
def FreshNumbers (s : State) : Action → Prop
  | .accept fd => ¬ s.Awaits fd
  | .dial fd => ¬ s.Awaits fd
  | _ => True

structure Held (s : State) : Prop where
  fresh : ∀ c, s.phase c ≠ .absent → c.id < s.next
  clients : ∀ c, c ∈ s.hub.clients → s.phase c = .serving
  table : ∀ c, s.phase c ≠ .absent → s.phase c ≠ .closed → s.table c.fd = some (.accepted c)
  link : ∀ id fd, s.link = some (id, fd) → s.table fd = some (.dialed id)
  pending : ∀ k c, c ∈ (s.job k).pending →
    s.phase c ≠ .absent ∧ (s.phase c ≠ .closed ∨ s.table c.fd = none)
  log : ∀ w ∈ s.log, w.socket = .accepted w.selected

/-- An entry unlike the one that is replaced stays. -/
theorem State.table_of_ne {s : State} {fd g : ℕ} {entry kept : Option Socket}
    (own : s.table g = kept) (other : s.table fd ≠ kept) :
    (s.setFd fd entry).table g = kept := by
  refine (Function.update_of_ne ?_ _ _).trans own
  rintro rfl
  exact other own

/-- Freeing a number leaves every unused number unused. -/
theorem State.table_of_unused {s : State} {fd g : ℕ} (unused : s.table g = none) :
    (s.setFd fd none).table g = none := by
  simp only [setFd, Function.update_apply, unused, ite_self]

/-- The number of a target that is closed stays unused while no awaited number is reused. -/
theorem State.unused_of_pending {s : State} {fd : ℕ} (entry : Option Socket)
    (fresh : ¬ s.Awaits fd) {k : Thread} {c : Client} (target : c ∈ (s.job k).pending)
    (unused : s.table c.fd = none) : (s.setFd fd entry).table c.fd = none := by
  refine (Function.update_of_ne ?_ _ _).trans unused
  intro same
  exact fresh ⟨k, c, target, same⟩

namespace Held

variable {s : State}

theorem init : Held {} := by
  constructor <;> simp [Job.pending]

/-- A step of one connection's handler that opens or closes nothing. -/
theorem of_phase (inv : Held s) {c : Client} {p : Phase} {hub : Hub Client}
    (present : s.phase c ≠ .absent) (unclosed : s.phase c ≠ .closed)
    (now : p ≠ .absent ∧ p ≠ .closed)
    (clients : ∀ x, x ∈ hub.clients → (x ∈ s.hub.clients ∧ x ≠ c) ∨ (x = c ∧ p = .serving)) :
    Held { s.setPhase c p with hub := hub } := by
  have absent := Phase.update_ne_iff present now.1
  have closed := Phase.update_ne_iff unclosed now.2
  constructor
  · intro x known
    exact inv.fresh x ((absent x).mp known)
  · intro x member
    rcases clients x member with ⟨before, different⟩ | ⟨rfl, rfl⟩
    · exact (Function.update_of_ne different _ _).trans (inv.clients x before)
    · exact Function.update_self ..
  · intro x known opened
    exact inv.table x ((absent x).mp known) ((closed x).mp opened)
  · exact inv.link
  · intro k x target
    obtain ⟨known, current⟩ := inv.pending k x target
    exact ⟨(absent x).mpr known, current.imp_left (closed x).mpr⟩
  · exact inv.log

/-- A handler that has not joined is not registered. -/
theorem not_mem_of_joining (inv : Held s) {c : Client} (joining : s.phase c = .joining) :
    c ∉ s.hub.clients := by
  intro inside
  rw [inv.clients c inside] at joining
  cases joining

theorem accepted (inv : Held s) {c : Client} (next : c.id = s.next)
    (free : s.table c.fd = none) (fresh : ¬ s.Awaits c.fd) : Held (s.accepted c) := by
  have absent : s.phase c = .absent := by
    by_contra present
    have old := inv.fresh c present
    omega
  have others : ∀ x, x ≠ c → (s.accepted c).phase x = s.phase x := fun x different =>
    Function.update_of_ne different _ _
  have known : ∀ x, s.phase x ≠ .absent → (s.accepted c).phase x = s.phase x := by
    intro x present
    apply others
    rintro rfl
    exact present absent
  have kept : ∀ fd e, s.table fd = some e → (s.accepted c).table fd = some e := by
    intro fd e own
    refine State.table_of_ne own ?_
    change s.table c.fd ≠ _
    rw [free]
    simp
  constructor
  · intro x present
    change x.id < s.next + 1
    by_cases same : x = c
    · rw [same]
      omega
    · rw [others x same] at present
      have old := inv.fresh x present
      omega
  · intro x member
    have serving := inv.clients x member
    rw [known x (by simp [serving])]
    exact serving
  · intro x present unclosed
    by_cases same : x = c
    · rw [same]
      exact Function.update_self ..
    · rw [others x same] at present unclosed
      exact kept _ _ (inv.table x present unclosed)
  · intro id fd current
    exact kept _ _ (inv.link id fd current)
  · intro k x target
    obtain ⟨present, current⟩ := inv.pending k x target
    rw [known x present]
    exact ⟨present, current.imp_right (State.unused_of_pending _ fresh target)⟩
  · exact inv.log

/-- A connection is closed after its handler has left; its number is then unused. -/
theorem closed (inv : Held s) {c : Client} (leaving : s.phase c = .leaving) :
    Held (s.closed c) := by
  have absent : ∀ x, (s.closed c).phase x ≠ .absent ↔ s.phase x ≠ .absent :=
    Phase.update_ne_iff (by simp [leaving]) (by simp)
  have others : ∀ x, x ≠ c → (s.closed c).phase x = s.phase x := fun x different =>
    Function.update_of_ne different _ _
  have own : s.table c.fd = some (.accepted c) :=
    inv.table c (by simp [leaving]) (by simp [leaving])
  have kept : ∀ fd e, e ≠ .accepted c → s.table fd = some e →
      (s.closed c).table fd = some e := by
    intro fd e other entry
    refine State.table_of_ne entry ?_
    change s.table c.fd ≠ _
    rw [own]
    exact fun same => other (Option.some.inj same).symm
  constructor
  · intro x known
    exact inv.fresh x ((absent x).mp known)
  · intro x member
    have serving := inv.clients x member
    have different : x ≠ c := by
      rintro rfl
      rw [leaving] at serving
      cases serving
    rw [others x different]
    exact serving
  · intro x known unclosed
    have different : x ≠ c := by
      rintro rfl
      exact unclosed (Function.update_self ..)
    rw [others x different] at known unclosed
    apply kept _ _ _ (inv.table x known unclosed)
    exact fun same => different (Socket.accepted.inj same)
  · intro id fd current
    exact kept _ _ Socket.noConfusion (inv.link id fd current)
  · intro k x target
    obtain ⟨present, current⟩ := inv.pending k x target
    refine ⟨(absent x).mpr present, ?_⟩
    by_cases same : x = c
    · rw [same]
      exact .inr (Function.update_self ..)
    · rw [others x same]
      exact current.imp_right State.table_of_unused
  · exact inv.log

/-- The worker dials on a free number. -/
theorem dialed (inv : Held s) {fd : ℕ} (free : s.table fd = none) (fresh : ¬ s.Awaits fd) :
    Held { s.setFd fd (some (.dialed s.next)) with
      next := s.next + 1, link := some (s.next, fd) } := by
  refine ⟨?_, inv.clients, ?_, ?_, ?_, inv.log⟩
  · intro c present
    exact Nat.lt_succ_of_lt (inv.fresh c present)
  · intro c present unclosed
    apply State.table_of_ne (inv.table c present unclosed)
    rw [free]
    simp
  · intro id g current
    obtain ⟨rfl, rfl⟩ := Prod.mk.inj (Option.some.inj current)
    exact Function.update_self ..
  · intro k c target
    obtain ⟨present, current⟩ := inv.pending k c target
    exact ⟨present, current.imp_right (State.unused_of_pending _ fresh target)⟩

/-- The worker's connection ends and its number is freed. -/
theorem dropped (inv : Held s) {id fd : ℕ} (current : s.link = some (id, fd)) :
    Held { s.setFd fd none with link := none } := by
  refine ⟨inv.fresh, inv.clients, ?_, ?_, ?_, inv.log⟩
  · intro c present unclosed
    apply State.table_of_ne (inv.table c present unclosed)
    rw [inv.link id fd current]
    exact fun impossible => Socket.noConfusion (Option.some.inj impossible)
  · intro other g impossible
    cases impossible
  · intro k c target
    obtain ⟨present, current⟩ := inv.pending k c target
    exact ⟨present, current.imp_right State.table_of_unused⟩

/-- A broadcaster's own step: its pending targets are pending already, or registered. -/
theorem of_job (inv : Held s) {k : Thread} {job : Job} {wmu : Client → Option Thread}
    {log : List Write} (pending : ∀ c, c ∈ job.pending → c ∈ (s.job k).pending ∨ c ∈ s.hub.clients)
    (logged : ∀ w ∈ log, w.socket = .accepted w.selected) :
    Held { s.setJob k job with wmu := wmu, log := log } := by
  refine ⟨inv.fresh, inv.clients, inv.table, inv.link, ?_, logged⟩
  intro j c target
  simp only [State.setJob, Function.update_apply] at target
  split at target
  · rcases pending c target with before | member
    · exact inv.pending k c before
    · have serving := inv.clients c member
      change s.phase c ≠ _ ∧ (s.phase c ≠ _ ∨ _)
      rw [serving]
      exact ⟨by decide, .inl (by decide)⟩
  · exact inv.pending j c target

/-- A write that finds a socket finds that of the connection it was selected for. -/
theorem socket_of_current (inv : Held s) {k : Thread} {c : Client} {left : Bytes}
    {socket : Socket} (current : (s.job k).current = some (c, left))
    (entry : s.table c.fd = some socket) : socket = .accepted c := by
  have pending : c ∈ (s.job k).pending := by simp [Job.pending, current]
  obtain ⟨present, unclosed | unused⟩ := inv.pending k c pending
  · rw [inv.table c present unclosed] at entry
    exact (Option.some.inj entry).symm
  · rw [unused] at entry
    cases entry

theorem keeps (inv : Held s) {a : Action} {t : State} (guard : FreshNumbers s a)
    (taken : step s a = some t) : Held t := by
  cases effect_of_step taken with
  | accept free => exact inv.accepted rfl free guard
  | @join c nick joining =>
    refine inv.of_phase (by simp [joining]) (by simp [joining]) (by simp) fun x member => ?_
    rcases Hub.mem_add.mp member with before | last
    · exact .inl ⟨before, fun same => inv.not_mem_of_joining joining (same ▸ before)⟩
    · exact .inr ⟨last, rfl⟩
  | @refuse c joining =>
    refine inv.of_phase (by simp [joining]) (by simp [joining]) (by simp) fun x member => ?_
    exact .inl ⟨member, fun same => inv.not_mem_of_joining joining (same ▸ member)⟩
  | msg => exact inv.of_job (fun x target => .inr (mem_targets.mp target).1) inv.log
  | relay => exact inv.of_job (fun x target => .inr (mem_targets.mp target).1) inv.log
  | lock current targets =>
    refine inv.of_job (fun x target => .inl ?_) inv.log
    simpa [Job.pending, current, targets] using target
  | write current _ _ entry =>
    obtain rfl := inv.socket_of_current current entry
    refine inv.of_job (fun x target => .inl ?_) fun w written => ?_
    · simpa [Job.pending, current] using target
    · rcases List.mem_append.mp written with before | last
      · exact inv.log w before
      · rw [List.mem_singleton.mp last]
  | fail current =>
    refine inv.of_job (fun x target => .inl ?_) inv.log
    exact List.mem_append.mpr (.inr target)
  | done current =>
    refine inv.of_job (fun x target => .inl ?_) inv.log
    exact List.mem_append.mpr (.inr target)
  | @leave c serving =>
    refine inv.of_phase (by simp [serving]) (by simp [serving]) (by simp) fun x member => ?_
    exact .inl (Hub.mem_remove.mp member)
  | close leaving => exact inv.closed leaving
  | dial _ free => exact inv.dialed free guard
  | drop _ current => exact inv.dropped current

end Held

/-- In every run in which no new connection gets a number that a broadcast still has to write to,
each write goes to the connection it was selected for. -/
theorem writes_to_selected {acts : List Action} {s : State}
    (met : node.Meets FreshNumbers node.init acts) (run : node.run? acts = some s) :
    ∀ w ∈ s.log, w.socket = .accepted w.selected := by
  have keeps (s : State) (a : Action) (t : State) (inv : Held s) (guard : FreshNumbers s a)
      (taken : step s a = some t) : Held t := inv.keeps guard taken
  exact (@Machine.run?_keeps_of_meets _ _ node Held _ Held.init keeps s acts met run).log

/-- Two clients join and the first one's message is written to the second. -/
theorem writes_to_selected_pair :
    ∃ s, node.run? [.accept 4, .join ⟨0, 4⟩ [0x61], .accept 5, .join ⟨1, 5⟩ [0x62],
        .msg ⟨0, 4⟩ [0x63], .lock (.handler ⟨0, 4⟩), .write (.handler ⟨0, 4⟩) 6,
        .write (.handler ⟨0, 4⟩) 3, .done (.handler ⟨0, 4⟩)] = some s ∧
      s.log.length = 2 ∧ ∀ w ∈ s.log, w.socket = .accepted w.selected := by
  have met : node.Meets FreshNumbers node.init
      [.accept 4, .join ⟨0, 4⟩ [0x61], .accept 5, .join ⟨1, 5⟩ [0x62],
        .msg ⟨0, 4⟩ [0x63], .lock (.handler ⟨0, 4⟩), .write (.handler ⟨0, 4⟩) 6,
        .write (.handler ⟨0, 4⟩) 3, .done (.handler ⟨0, 4⟩)] := by
    -- both connections are there before anything is broadcast
    have idle {s : State} (job : s.job = node.init.job) (fd : ℕ) : ¬ s.Awaits fd := by
      rintro ⟨k, c, target, -⟩
      rw [job] at target
      cases target
    refine (Machine.meets_cons_iff rfl).mpr ⟨idle rfl _, ?_⟩
    refine (Machine.meets_cons_iff rfl).mpr ⟨trivial, ?_⟩
    refine (Machine.meets_cons_iff rfl).mpr ⟨idle rfl _, ?_⟩
    refine Machine.meets_of_forall (fun s a member => ?_) _
    simp only [List.mem_cons, List.not_mem_nil, or_false] at member
    rcases member with rfl | rfl | rfl | rfl | rfl | rfl <;> trivial
  exact ⟨_, rfl, rfl, writes_to_selected met rfl⟩

/-- The second client leaves after it was selected, a third one is accepted on its descriptor
number, and the whole frame is written to the third. -/
theorem not_writes_to_selected_reused :
    ∃ s, node.run? [.accept 4, .join ⟨0, 4⟩ [0x61], .accept 5, .join ⟨1, 5⟩ [0x62],
        .msg ⟨0, 4⟩ [0x63], .leave ⟨1, 5⟩, .close ⟨1, 5⟩, .accept 5, .lock (.handler ⟨0, 4⟩),
        .write (.handler ⟨0, 4⟩) 6, .write (.handler ⟨0, 4⟩) 3,
        .done (.handler ⟨0, 4⟩)] = some s ∧
      s.log.map Write.bytes = [header typeDeliver 3, [0x61, 0, 0x63]] ∧
      ∀ w ∈ s.log, w.socket = .accepted ⟨2, 5⟩ ∧ w.selected = ⟨1, 5⟩ :=
  ⟨_, rfl, by decide, by decide⟩

end LinuxSys.Fleet.FdReuse
