import LinuxSys.Fleet.Bridge
import Mathlib.Data.List.Nodup

/-! # Connections, descriptors and targets of two bridged nodes

`Attached` says what the registries, the descriptor tables and the targets of a broadcast know of
a connection. Its point is `resolve_of_target`: while no descriptor number is reused under a C++
broadcast, every write goes to the connection it was selected for or finds nothing there.
-/

namespace LinuxSys.Fleet

open Lib Chatterd

structure Attached (cfg : Config) (s : State) : Prop where
  fresh : ∀ c, s.phase c ≠ .absent → c.id < s.next
  clients : ∀ n c, c ∈ (s.hub n).clients → s.phase c = .serving ∧ c.node = n
  nodup : ∀ n, (s.hub n).clients.Nodup
  bridges : ∀ n c, c ∈ (s.hub n).clients → c.dialFd.isSome → ((s.hub n).peer c).isBridge
  table : ∀ c, s.phase c ≠ .absent → s.phase c ≠ .closed →
    s.table c.node c.fd = some (.accepted c)
  link : ∀ n c, s.link n = some c → s.phase c ≠ .absent ∧ c.node = n.other ∧
    ∃ f, c.dialFd = some f ∧ s.table n f = some (.dialed c)
  targets : ∀ k c, c ∈ (s.job k).targets → s.phase c ≠ .absent ∧ c.node = k.node ∧
    (cfg.lang = .cpp → s.phase c ≠ .closed ∨ s.table c.node c.fd = none)

/-- What each action does to the state, and when it is enabled. -/
inductive Effect (cfg : Config) (s : State) : Action → State → Prop
  | accept {n : Node} {fd : ℕ} : s.table n fd = none →
      Effect cfg s (.accept n fd) (s.opened ⟨s.next, n, fd, none⟩)
  | dial {n : Node} {fd dialFd : ℕ} : s.link n = none → s.table n.other fd = none →
      s.table n dialFd = none →
      Effect cfg s (.dial n fd dialFd) ((s.opened ⟨s.next, n.other, fd, some dialFd⟩).linked n
        ⟨s.next, n.other, fd, some dialFd⟩ dialFd)
  | join {c : Conn} {payload : Bytes} : s.phase c = .joining →
      (c.dialFd.isSome → payload = bridgeNick (cfg.name c.node.other)) →
      Effect cfg s (.join c payload) (s.joined c ⟨cfg.lang.text payload⟩)
  | refuse {c : Conn} : s.phase c = .joining → Effect cfg s (.refuse c) (s.setPhase c .leaving)
  | msg {c : Conn} {payload : Bytes} : s.phase c = .serving → s.idle (.handler c) →
      Effect cfg s (.msg c payload)
        { s with read := Function.update s.read c (some (cfg.lang.text payload)) }
  | broadcast {c : Conn} {text : Bytes} : s.read c = some text →
      Effect cfg s (.broadcast c) (s.broadcasting c text)
  | take {n : Node} {d : Sent} {rest : List Sent} : s.inbox n = d :: rest → s.taken n = none →
      s.idle (.worker n) →
      Effect cfg s (.take n) (s.taking n d rest
        ((relayed? cfg.lang (cfg.name n.other) d.frame).map fun parts =>
          ⟨d.msg, parts.1, parts.2⟩))
  | relay {n : Node} {r : Relay} : s.taken n = some r → Effect cfg s (.relay n) (s.relaying n r)
  | write {k : Caster} {sent : Bool} {c : Conn} {rest : List Conn} :
      (s.job k).targets = c :: rest →
      Effect cfg s (.write k sent) (wrote cfg s k c sent (s.popped k rest))
  | leave {c : Conn} : s.phase c = .serving → Effect cfg s (.leave c) (s.left c)
  | close {c : Conn} : s.phase c = .leaving → Effect cfg s (.close c) (s.closed c)
  | drop {n : Node} {c : Conn} {dialFd : ℕ} : s.link n = some c → c.dialFd = some dialFd →
      Effect cfg s (.drop n) (s.dropped n dialFd)

theorem effect_of_step {cfg : Config} {s t : State} {a : Action} (taken : step cfg s a = some t) :
    Effect cfg s a t := by
  cases a <;> simp only [step] at taken
  case accept n fd =>
    split_ifs at taken with free
    cases taken
    exact .accept free
  case dial n fd dialFd =>
    split_ifs at taken with free
    cases taken
    exact .dial free.1 free.2.1 free.2.2.1
  case join c payload =>
    split_ifs at taken with ready
    cases taken
    exact .join ready.1 ready.2
  case refuse c =>
    split_ifs at taken with ready
    cases taken
    exact .refuse ready
  case msg c payload =>
    split_ifs at taken with ready
    cases taken
    exact .msg ready.1 ready.2.2.2
  case broadcast c =>
    obtain ⟨text, read, rfl⟩ := Option.map_eq_some_iff.mp taken
    exact .broadcast read
  case take n =>
    split at taken
    · next d rest waiting =>
      split_ifs at taken with ready
      cases taken
      exact .take waiting ready.1 ready.2
    · cases taken
  case relay n =>
    obtain ⟨r, held, rfl⟩ := Option.map_eq_some_iff.mp taken
    exact .relay held
  case write k sent =>
    split at taken
    · next c rest pending =>
      cases taken
      exact .write pending
    · cases taken
  case leave c =>
    split_ifs at taken with ready
    cases taken
    exact .leave ready.1
  case close c =>
    split_ifs at taken with ready
    cases taken
    exact .close ready
  case drop n =>
    split at taken
    · next c current =>
      split_ifs at taken
      obtain ⟨dialFd, dialed, rfl⟩ := Option.map_eq_some_iff.mp taken
      exact .drop current dialed
    · cases taken

theorem State.phase_setPhase (s : State) (c : Conn) (p : Phase) (x : Conn) :
    (s.setPhase c p).phase x = if x = c then p else s.phase x := Function.update_apply ..

theorem State.table_setTable (s : State) (n : Node) (fd : ℕ) (entry : Option Endpoint) (m : Node)
    (g : ℕ) :
    (s.setTable n fd entry).table m g = if m = n ∧ g = fd then entry else s.table m g := by
  simp only [setTable, Function.update_apply]
  split_ifs with node number <;> simp_all

/-- An entry unlike the one that is replaced stays. -/
theorem State.table_of_ne {s : State} {n m : Node} {fd g : ℕ} {entry kept : Option Endpoint}
    (own : s.table m g = kept) (other : s.table n fd ≠ kept) :
    (s.setTable n fd entry).table m g = kept := by
  rw [table_setTable, if_neg, own]
  rintro ⟨rfl, rfl⟩
  exact other own

/-- Freeing a number leaves every unused number unused. -/
theorem State.table_of_unused {s : State} {n m : Node} {fd g : ℕ} (unused : s.table m g = none) :
    (s.setTable n fd none).table m g = none := by
  rw [table_setTable, unused, ite_self]

theorem mem_of_eq_cons {α : Type*} {l rest : List α} {a : α} (front : l = a :: rest) : a ∈ l := by
  rw [front]
  exact List.mem_cons_self

/-- A bridge worker's nick is recognised as one. -/
theorem isBridge_bridgeNick (cfg : Config) (n : Node) :
    (PeerConn.mk (cfg.lang.text (bridgeNick (cfg.name n)))).isBridge := by
  have kept : cfg.lang.text (bridgeNick (cfg.name n)) = bridgePrefix ++ cfg.name n := by
    have split : bridgeNick (cfg.name n) =
        [0x62, 0x72, 0x69, 0x64, 0x67, 0x65] ++ atSign :: cfg.name n := rfl
    have word : Utf8.Valid [0x62, 0x72, 0x69, 0x64, 0x67, 0x65] := Utf8.valid_of_ascii (by simp)
    rw [split, text_append_cons (by decide), cfg.own, (text_eq_self_iff _ _).mpr fun _ => word]
    rfl
  rw [PeerConn.isBridge, kept, List.isPrefixOf_iff_prefix]
  exact List.prefix_append _ _

namespace Attached

variable {cfg : Config} {s : State}

/-- A write goes to the connection it was selected for, or fails. -/
theorem resolve_of_target (inv : Attached cfg s) {k : Caster} {c : Conn}
    (target : c ∈ (s.job k).targets) :
    resolve cfg s k c = some (.accepted c) ∨ resolve cfg s k c = none := by
  obtain ⟨present, same, current⟩ := inv.targets k c target
  unfold resolve
  split
  · next cpp =>
    rw [← same]
    rcases current cpp with unclosed | free
    · exact .inl (inv.table c present unclosed)
    · exact .inr free
  · exact .inl rfl

/-- The number of a target that is closed stays unused while no awaited number is reused. -/
theorem unused_of_target (inv : Attached cfg s) {n : Node} {fd : ℕ} (entry : Option Endpoint)
    (fresh : ¬ s.Awaits n fd) {k : Caster} {x : Conn} (target : x ∈ (s.job k).targets)
    (unused : s.table x.node x.fd = none) : (s.setTable n fd entry).table x.node x.fd = none := by
  rw [State.table_setTable, if_neg, unused]
  rintro ⟨node, number⟩
  exact fresh ⟨k, (inv.targets k x target).2.1.symm.trans node, x, target, number⟩

theorem opened (inv : Attached cfg s) {c : Conn} (next : c.id = s.next)
    (free : s.table c.node c.fd = none) (fresh : cfg.lang = .cpp → ¬ s.Awaits c.node c.fd) :
    Attached cfg (s.opened c) := by
  have absent : s.phase c = .absent := by
    by_contra present
    have old := inv.fresh c present
    omega
  have phase : ∀ x, (s.opened c).phase x = _ := s.phase_setPhase c .joining
  have known : ∀ x, s.phase x ≠ .absent → (s.opened c).phase x = s.phase x := by
    intro x present
    rw [phase, if_neg]
    rintro rfl
    exact present absent
  have kept : ∀ n fd e, s.table n fd = some e → (s.opened c).table n fd = some e := by
    intro n fd e own
    refine State.table_of_ne own ?_
    change s.table c.node c.fd ≠ _
    rw [free]
    simp
  constructor
  · intro x present
    change x.id < s.next + 1
    rw [phase] at present
    split at present
    · next same =>
      rw [same]
      omega
    · have old := inv.fresh x present
      omega
  · intro n x member
    obtain ⟨serving, node⟩ := inv.clients n x member
    rw [known x (by simp [serving])]
    exact ⟨serving, node⟩
  · exact inv.nodup
  · exact inv.bridges
  · intro x present unclosed
    rw [phase] at present unclosed
    by_cases same : x = c
    · rw [same]
      exact (State.table_setTable ..).trans (if_pos ⟨rfl, rfl⟩)
    · rw [if_neg same] at present unclosed
      exact kept _ _ _ (inv.table x present unclosed)
  · intro n x current
    obtain ⟨present, node, f, dialed, entry⟩ := inv.link n x current
    rw [known x present]
    exact ⟨present, node, f, dialed, kept _ _ _ entry⟩
  · intro k x target
    obtain ⟨present, node, current⟩ := inv.targets k x target
    rw [known x present]
    refine ⟨present, node, fun cpp => ?_⟩
    rcases current cpp with unclosed | unused
    · exact .inl unclosed
    · exact .inr (inv.unused_of_target _ (fresh cpp) target unused)

theorem linked (inv : Attached cfg s) {n : Node} {c : Conn} {dialFd : ℕ}
    (present : s.phase c ≠ .absent) (node : c.node = n.other) (dialed : c.dialFd = some dialFd)
    (free : s.table n dialFd = none) (fresh : cfg.lang = .cpp → ¬ s.Awaits n dialFd) :
    Attached cfg (s.linked n c dialFd) := by
  have kept : ∀ m fd e, s.table m fd = some e →
      (s.linked n c dialFd).table m fd = some e := by
    intro m fd e own
    apply State.table_of_ne own
    rw [free]
    simp
  have link : ∀ m, (s.linked n c dialFd).link m = if m = n then some c else s.link m := fun m =>
    Function.update_apply ..
  refine ⟨inv.fresh, inv.clients, inv.nodup, inv.bridges, ?_, ?_, ?_⟩
  · intro x known unclosed
    exact kept _ _ _ (inv.table x known unclosed)
  · intro m x current
    rw [link] at current
    split at current
    · next same =>
      cases current
      rw [same]
      refine ⟨present, node, dialFd, dialed, ?_⟩
      exact (State.table_setTable ..).trans (if_pos ⟨rfl, rfl⟩)
    · obtain ⟨known, side, f, number, entry⟩ := inv.link m x current
      exact ⟨known, side, f, number, kept _ _ _ entry⟩
  · intro k x target
    obtain ⟨known, side, current⟩ := inv.targets k x target
    refine ⟨known, side, fun cpp => ?_⟩
    rcases current cpp with unclosed | unused
    · exact .inl unclosed
    · exact .inr (inv.unused_of_target _ (fresh cpp) target unused)

/-- A step of one connection's handler that opens or closes nothing. -/
theorem of_phase (inv : Attached cfg s) {c : Conn} {p : Phase} {hub : Node → Hub Conn}
    (present : s.phase c ≠ .absent) (unclosed : s.phase c ≠ .closed)
    (now : p ≠ .absent ∧ p ≠ .closed)
    (clients : ∀ n x, x ∈ (hub n).clients →
      (x ∈ (s.hub n).clients ∧ x ≠ c) ∨ (x = c ∧ c.node = n ∧ p = .serving))
    (nodup : ∀ n, (hub n).clients.Nodup)
    (bridges : ∀ n x, x ∈ (hub n).clients → x.dialFd.isSome → ((hub n).peer x).isBridge) :
    Attached cfg { s.setPhase c p with hub := hub } := by
  have absent := Phase.update_ne_iff present now.1
  have closed := Phase.update_ne_iff unclosed now.2
  constructor
  · intro x known
    exact inv.fresh x ((absent x).mp known)
  · intro n x member
    rcases clients n x member with ⟨before, different⟩ | ⟨rfl, node, rfl⟩
    · obtain ⟨serving, node⟩ := inv.clients n x before
      exact ⟨(Function.update_of_ne different _ _).trans serving, node⟩
    · exact ⟨Function.update_self .., node⟩
  · exact nodup
  · exact bridges
  · intro x known opened
    exact inv.table x ((absent x).mp known) ((closed x).mp opened)
  · intro n x current
    obtain ⟨known, rest⟩ := inv.link n x current
    exact ⟨(absent x).mpr known, rest⟩
  · intro k x target
    obtain ⟨known, node, current⟩ := inv.targets k x target
    exact ⟨(absent x).mpr known, node, fun cpp => (current cpp).imp_left (closed x).mpr⟩

/-- A handler that has not joined is not registered. -/
theorem not_mem_of_joining (inv : Attached cfg s) {c : Conn} (joining : s.phase c = .joining)
    (n : Node) : c ∉ (s.hub n).clients := by
  intro member
  have serving := (inv.clients n c member).1
  rw [joining] at serving
  cases serving

theorem refused (inv : Attached cfg s) {c : Conn} (joining : s.phase c = .joining) :
    Attached cfg (s.setPhase c .leaving) := by
  refine inv.of_phase (by simp [joining]) (by simp [joining]) (by simp) ?_ inv.nodup inv.bridges
  intro n x member
  refine .inl ⟨member, ?_⟩
  rintro rfl
  exact inv.not_mem_of_joining joining n member

theorem joined (inv : Attached cfg s) {c : Conn} {conn : PeerConn} (joining : s.phase c = .joining)
    (bridge : c.dialFd.isSome → conn.isBridge) : Attached cfg (s.joined c conn) := by
  have outside := inv.not_mem_of_joining joining
  have hub : ∀ n, Function.update s.hub c.node ((s.hub c.node).add c conn) n =
      if n = c.node then (s.hub c.node).add c conn else s.hub n := fun n =>
    Function.update_apply ..
  apply inv.of_phase (by simp [joining]) (by simp [joining]) (by simp)
  · intro n x member
    rw [hub] at member
    split at member
    · next same =>
      rw [same]
      rcases Hub.mem_add.mp member with before | last
      · exact .inl ⟨before, fun equal => outside _ (equal ▸ before)⟩
      · exact .inr ⟨last, rfl, rfl⟩
    · exact .inl ⟨member, fun equal => outside n (equal ▸ member)⟩
  · intro n
    rw [hub]
    split
    · exact (inv.nodup c.node).append (List.nodup_singleton c)
        (List.disjoint_singleton.mpr (outside c.node))
    · exact inv.nodup n
  · intro n x member bridged
    rw [hub] at member ⊢
    split at member
    · next same =>
      rw [if_pos same, Hub.peer_add]
      rcases Hub.mem_add.mp member with before | rfl
      · rw [if_neg fun equal => outside _ (equal ▸ before)]
        exact inv.bridges c.node x before bridged
      · rw [if_pos rfl]
        exact bridge bridged
    · next different =>
      rw [if_neg different]
      exact inv.bridges n x member bridged

theorem left (inv : Attached cfg s) {c : Conn} (serving : s.phase c = .serving) :
    Attached cfg (s.left c) := by
  have hub : ∀ n, Function.update s.hub c.node ((s.hub c.node).remove c) n =
      if n = c.node then (s.hub c.node).remove c else s.hub n := fun n =>
    Function.update_apply ..
  have stays : ∀ n x, x ∈ (Function.update s.hub c.node ((s.hub c.node).remove c) n).clients →
      x ∈ (s.hub n).clients ∧ x ≠ c := by
    intro n x member
    rw [hub] at member
    split at member
    · next same =>
      rw [same]
      exact Hub.mem_remove.mp member
    · next different =>
      refine ⟨member, ?_⟩
      rintro rfl
      exact different (inv.clients n x member).2.symm
  apply inv.of_phase (by simp [serving]) (by simp [serving]) (by simp)
  · intro n x member
    exact .inl (stays n x member)
  · intro n
    rw [hub]
    split
    · exact (inv.nodup c.node).filter _
    · exact inv.nodup n
  · intro n x member bridged
    have old := inv.bridges n x (stays n x member).1 bridged
    rw [hub]
    split
    · next same =>
      subst same
      exact old
    · exact old

/-- A connection is closed only after its handler has left; its number is then unused. -/
theorem closed (inv : Attached cfg s) {c : Conn} (leaving : s.phase c = .leaving) :
    Attached cfg (s.closed c) := by
  have absent : ∀ x, (s.closed c).phase x ≠ .absent ↔ s.phase x ≠ .absent :=
    Phase.update_ne_iff (by simp [leaving]) (by simp)
  have own : s.table c.node c.fd = some (.accepted c) :=
    inv.table c (by simp [leaving]) (by simp [leaving])
  have others : ∀ x, x ≠ c → (s.closed c).phase x = s.phase x := fun x different =>
    Function.update_of_ne different _ _
  have kept : ∀ n fd e, e ≠ .accepted c → s.table n fd = some e →
      (s.closed c).table n fd = some e := by
    intro n fd e other entry
    refine State.table_of_ne entry ?_
    change s.table c.node c.fd ≠ _
    rw [own]
    exact fun same => other (Option.some.inj same).symm
  constructor
  · intro x known
    exact inv.fresh x ((absent x).mp known)
  · intro n x member
    obtain ⟨serving, node⟩ := inv.clients n x member
    have different : x ≠ c := by
      rintro rfl
      rw [leaving] at serving
      cases serving
    rw [others x different]
    exact ⟨serving, node⟩
  · exact inv.nodup
  · exact inv.bridges
  · intro x known unclosed
    have different : x ≠ c := by
      rintro rfl
      exact unclosed (Function.update_self ..)
    rw [others x different] at known unclosed
    apply kept _ _ _ _ (inv.table x known unclosed)
    exact fun same => different (Endpoint.accepted.inj same)
  · intro n x current
    obtain ⟨present, node, f, dialed, entry⟩ := inv.link n x current
    exact ⟨(absent x).mpr present, node, f, dialed, kept _ _ _ Endpoint.noConfusion entry⟩
  · intro k x target
    obtain ⟨present, node, current⟩ := inv.targets k x target
    refine ⟨(absent x).mpr present, node, fun cpp => ?_⟩
    by_cases same : x = c
    · rw [same]
      exact .inr ((State.table_setTable ..).trans (if_pos ⟨rfl, rfl⟩))
    · rw [others x same]
      exact (current cpp).imp_right State.table_of_unused

theorem dropped (inv : Attached cfg s) {n : Node} {c : Conn} {dialFd : ℕ}
    (current : s.link n = some c) (dialed : c.dialFd = some dialFd) :
    Attached cfg (s.dropped n dialFd) := by
  have link : ∀ m, (s.dropped n dialFd).link m = if m = n then none else s.link m := fun m =>
    Function.update_apply ..
  have own : s.table n dialFd = some (.dialed c) := by
    obtain ⟨-, -, f, number, entry⟩ := inv.link n c current
    rw [dialed] at number
    cases number
    exact entry
  refine ⟨inv.fresh, inv.clients, inv.nodup, inv.bridges, ?_, ?_, ?_⟩
  · intro x present unclosed
    apply State.table_of_ne (inv.table x present unclosed)
    rw [own]
    exact fun impossible => Endpoint.noConfusion (Option.some.inj impossible)
  · intro m x still
    rw [link] at still
    split at still
    · cases still
    · next different =>
      obtain ⟨present, node, f, number, entry⟩ := inv.link m x still
      refine ⟨present, node, f, number, ?_⟩
      refine (State.table_setTable ..).trans ((if_neg ?_).trans entry)
      exact fun same => different same.1
  · intro k x target
    obtain ⟨present, node, current⟩ := inv.targets k x target
    exact ⟨present, node, fun cpp => (current cpp).imp_right State.table_of_unused⟩

/-- New targets come from a registry. -/
theorem of_selected (inv : Attached cfg s) {n : Node} {exclude : Option Conn}
    {includeBridges : Bool} {x : Conn} (target : x ∈ (s.hub n).targets exclude includeBridges) :
    s.phase x ≠ .absent ∧ x.node = n ∧
      (cfg.lang = .cpp → s.phase x ≠ .closed ∨ s.table x.node x.fd = none) := by
  obtain ⟨serving, node⟩ := inv.clients n x (mem_targets.mp target).1
  exact ⟨by simp [serving], node, fun _ => .inl (by simp [serving])⟩

theorem broadcasting (inv : Attached cfg s) (c : Conn) (text : Bytes) :
    Attached cfg (s.broadcasting c text) := by
  refine ⟨inv.fresh, inv.clients, inv.nodup, inv.bridges, inv.table, inv.link, ?_⟩
  intro k x target
  simp only [State.broadcasting, Function.update_apply] at target
  split at target
  · next same =>
    subst same
    exact inv.of_selected target
  · exact inv.targets k x target

theorem relaying (inv : Attached cfg s) (n : Node) (r : Relay) :
    Attached cfg (s.relaying n r) := by
  refine ⟨inv.fresh, inv.clients, inv.nodup, inv.bridges, inv.table, inv.link, ?_⟩
  intro k x target
  simp only [State.relaying, Function.update_apply] at target
  split at target
  · next same =>
    subst same
    exact inv.of_selected target
  · exact inv.targets k x target

theorem popped (inv : Attached cfg s) {k : Caster} {c : Conn} {rest : List Conn}
    (pending : (s.job k).targets = c :: rest) : Attached cfg (s.popped k rest) := by
  refine ⟨inv.fresh, inv.clients, inv.nodup, inv.bridges, inv.table, inv.link, ?_⟩
  intro j x target
  simp only [State.popped, Function.update_apply] at target
  split at target
  · next same =>
    subst same
    exact inv.targets j x (by rw [pending]; exact List.mem_cons_of_mem _ target)
  · exact inv.targets j x target

/-- A write either sends nothing or puts the frame on the connection it was selected for. -/
theorem wrote_cases (inv : Attached cfg s) {k : Caster} {c : Conn}
    (target : c ∈ (s.job k).targets) (sent : Bool) (t : State) :
    wrote cfg s k c sent t = t ∨
      wrote cfg s k c sent t = t.delivered ⟨.accepted c, (s.job k).msg, k.isWorker,
        deliverFrame (s.job k).nick (s.job k).text⟩ := by
  unfold wrote
  split
  · next dest ok found =>
    rcases inv.resolve_of_target target with own | lost
    · rw [own] at found
      cases found
      exact .inr rfl
    · rw [lost] at found
      cases found
  · exact .inl rfl

theorem init (cfg : Config) : Attached cfg {} := by
  constructor <;> simp

theorem keeps (inv : Attached cfg s) {a : Action} {t : State} (guard : FreshNumbers cfg s a)
    (taken : step cfg s a = some t) : Attached cfg t := by
  cases effect_of_step taken with
  | accept free => exact inv.opened rfl free guard
  | @dial n fd dialFd unlinked free dialFree =>
    have first := inv.opened (c := ⟨s.next, n.other, fd, some dialFd⟩) rfl free
      fun cpp => (guard cpp).1
    refine first.linked ?_ rfl rfl ?_ fun cpp => (guard cpp).2
    · simp [State.opened, State.setPhase, State.setTable]
    · simp [State.opened, State.setPhase, State.setTable, (Node.other_ne n).symm, dialFree]
  | join joining bridge =>
    refine inv.joined joining fun dialed => ?_
    rw [bridge dialed]
    exact isBridge_bridgeNick cfg _
  | refuse joining => exact inv.refused joining
  | msg => exact ⟨inv.fresh, inv.clients, inv.nodup, inv.bridges, inv.table, inv.link, inv.targets⟩
  | broadcast => exact inv.broadcasting _ _
  | take => exact ⟨inv.fresh, inv.clients, inv.nodup, inv.bridges, inv.table, inv.link, inv.targets⟩
  | relay => exact inv.relaying _ _
  | @write k sent c rest pending =>
    have next := inv.popped pending
    rcases inv.wrote_cases (mem_of_eq_cons pending) sent (s.popped k rest) with same | same
    · rw [same]
      exact next
    · rw [same]
      exact ⟨next.fresh, next.clients, next.nodup, next.bridges, next.table, next.link,
        next.targets⟩
  | leave serving => exact inv.left serving
  | close leaving => exact inv.closed leaving
  | drop current dialed => exact inv.dropped current dialed

end Attached

end LinuxSys.Fleet
