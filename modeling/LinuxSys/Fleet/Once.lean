import LinuxSys.Fleet.Attached

/-! # No duplicates and no ping-pong over the bridge

`Routed` follows each message from the registry of the node it was sent on, over the bridge
connection, into the registry of the other node. A message is at every moment selected for a
connection or written to it at most once, and what a worker broadcasts stays off the bridges. In
C++ this needs that no descriptor number is reused under a broadcast.
-/

namespace LinuxSys.Fleet

open Lib Chatterd

def Sent.key (d : Sent) : Endpoint × Msg := (d.dest, d.msg)

/-- What is known of a frame on a connection: a relayed one has crossed the bridge, another one
was sent on this node by someone else. -/
def Placed (relays : Node → List Msg) (d : Sent) (c : Conn) : Prop :=
  if d.relayed then
    c.node = d.msg.origin.node.other ∧ c.dialFd = none ∧ d.msg ∈ relays c.node
  else c.node = d.msg.origin.node ∧ c ≠ d.msg.origin

structure Routed (s : State) : Prop where
  distinct : ∀ k, (s.job k).targets.Nodup
  handlerJob : ∀ h c, c ∈ (s.job (.handler h)).targets →
    (s.job (.handler h)).msg.id < s.msgs ∧ (s.job (.handler h)).msg.origin = h ∧ c ≠ h
  workerJob : ∀ n c, c ∈ (s.job (.worker n)).targets →
    (s.job (.worker n)).msg.id < s.msgs ∧ (s.job (.worker n)).msg.origin.node = n.other ∧
      c.dialFd = none ∧ (s.job (.worker n)).msg ∈ s.relays n
  logged : ∀ d ∈ s.log, d.msg.id < s.msgs ∧ ∃ c, d.dest = .accepted c ∧ Placed s.relays d c
  once : (s.log.map Sent.key).Nodup
  pending : ∀ k c, c ∈ (s.job k).targets → (.accepted c, (s.job k).msg) ∉ s.log.map Sent.key
  relays : ∀ n m, m ∈ s.relays n → m.id < s.msgs
  taken : ∀ n r, s.taken n = some r →
    r.msg.origin.node = n.other ∧ r.msg ∈ s.relays n ∧ (s.job (.worker n)).targets = [] ∧
      ∀ d ∈ s.log, d.relayed → d.msg ≠ r.msg
  inbox : ∀ n d, d ∈ s.inbox n → d ∈ s.log ∧ d.relayed = false ∧ d.msg ∉ s.relays n ∧
    ∃ c, s.link n = some c ∧ d.dest = .accepted c
  inboxNodup : ∀ n, ((s.inbox n).map Sent.msg).Nodup
  linkJob : ∀ n c h, s.link n = some c → c ∈ (s.job (.handler h)).targets →
    (s.job (.handler h)).msg ∉ s.relays n

namespace Routed

variable {cfg : Config} {s : State}

theorem linked (inv : Routed s) (attached : Attached cfg s) {n : Node} {c : Conn} (dialFd : ℕ)
    (next : c.id = s.next) (unlinked : s.link n = none) :
    Routed ((s.opened c).linked n c dialFd) := by
  have link : ∀ m, ((s.opened c).linked n c dialFd).link m =
      if m = n then some c else s.link m := fun m => Function.update_apply ..
  refine ⟨inv.distinct, inv.handlerJob, inv.workerJob, inv.logged, inv.once, inv.pending,
    inv.relays, inv.taken, ?_, inv.inboxNodup, ?_⟩
  · intro m d waiting
    obtain ⟨written, plain, untaken, x, current, dest⟩ := inv.inbox m d waiting
    have different : m ≠ n := by
      rintro rfl
      rw [unlinked] at current
      cases current
    exact ⟨written, plain, untaken, x, by rw [link, if_neg different, current], dest⟩
  · intro m x h current target
    rw [link] at current
    split at current
    · cases current
      have old := attached.fresh c (attached.targets _ c target).1
      omega
    · exact inv.linkJob m x h current target

theorem dropped (inv : Routed s) (n : Node) (dialFd : ℕ) : Routed (s.dropped n dialFd) := by
  have link : ∀ m, (s.dropped n dialFd).link m = if m = n then none else s.link m := fun m =>
    Function.update_apply ..
  have inbox : ∀ m, (s.dropped n dialFd).inbox m = if m = n then [] else s.inbox m := fun m =>
    Function.update_apply ..
  refine ⟨inv.distinct, inv.handlerJob, inv.workerJob, inv.logged, inv.once, inv.pending,
    inv.relays, inv.taken, ?_, ?_, ?_⟩
  · intro m d waiting
    rw [inbox] at waiting
    split at waiting
    · cases waiting
    · next different =>
      rw [link, if_neg different]
      exact inv.inbox m d waiting
  · intro m
    rw [inbox]
    split
    · exact List.nodup_nil
    · exact inv.inboxNodup m
  · intro m x h current target
    rw [link] at current
    split at current
    · cases current
    · exact inv.linkJob m x h current target

theorem broadcasting (inv : Routed s) (attached : Attached cfg s) (c : Conn) (text : Bytes) :
    Routed (s.broadcasting c text) := by
  have job : ∀ k, (s.broadcasting c text).job k =
      if k = .handler c then
        ⟨⟨s.msgs, c, ((s.hub c.node).peer c).nick⟩, ((s.hub c.node).peer c).nick, text,
          (s.hub c.node).targets (some c) true⟩
      else s.job k := fun k => Function.update_apply ..
  have worker : ∀ n, (s.broadcasting c text).job (.worker n) = s.job (.worker n) := fun n => by
    rw [job, if_neg (by simp)]
  constructor
  · intro k
    rw [job]
    split
    · exact (attached.nodup c.node).filter _
    · exact inv.distinct k
  · intro h x target
    change _ < s.msgs + 1 ∧ _
    rw [job] at target ⊢
    split at target
    · next same =>
      cases same
      rw [if_pos rfl]
      have excluded := (mem_targets.mp target).2.1
      exact ⟨Nat.lt_succ_self _, rfl, fun equal => excluded (by rw [equal])⟩
    · next different =>
      rw [if_neg different]
      obtain ⟨bound, rest⟩ := inv.handlerJob h x target
      exact ⟨by omega, rest⟩
  · intro n x target
    change _ < s.msgs + 1 ∧ _
    rw [worker] at target ⊢
    obtain ⟨bound, rest⟩ := inv.workerJob n x target
    exact ⟨by omega, rest⟩
  · intro d written
    obtain ⟨bound, rest⟩ := inv.logged d written
    exact ⟨Nat.lt_succ_of_lt bound, rest⟩
  · exact inv.once
  · intro k x target
    rw [job] at target ⊢
    split at target
    · next same =>
      rw [if_pos same]
      intro written
      obtain ⟨d, member, same⟩ := List.mem_map.mp written
      have bound := (inv.logged d member).1
      rw [(Prod.mk.inj same).2] at bound
      exact absurd bound (lt_irrefl _)
    · next different =>
      rw [if_neg different]
      exact inv.pending k x target
  · intro n m member
    exact Nat.lt_succ_of_lt (inv.relays n m member)
  · intro n r held
    rw [worker]
    exact inv.taken n r held
  · exact inv.inbox
  · exact inv.inboxNodup
  · intro n x h current target
    rw [job] at target ⊢
    split at target
    · next same =>
      rw [if_pos same]
      intro member
      exact absurd (inv.relays n _ member) (lt_irrefl _)
    · next different =>
      rw [if_neg different]
      exact inv.linkJob n x h current target

/-- The next frame of a worker is on the connection it dialed, and was sent on the other node. -/
theorem front (inv : Routed s) (attached : Attached cfg s) {n : Node} {d : Sent}
    {rest : List Sent} (waiting : s.inbox n = d :: rest) :
    d ∈ s.log ∧ d.relayed = false ∧ d.msg ∉ s.relays n ∧ d.msg.origin.node = n.other ∧
      ∃ c, s.link n = some c ∧ d.dest = .accepted c := by
  obtain ⟨written, plain, untaken, c, current, dest⟩ := inv.inbox n d (mem_of_eq_cons waiting)
  obtain ⟨-, c', dest', place⟩ := inv.logged d written
  obtain rfl : c = c' := Endpoint.accepted.inj (dest.symm.trans dest')
  rw [Placed, plain, if_neg Bool.false_ne_true] at place
  refine ⟨written, plain, untaken, ?_, c, current, dest⟩
  rw [← place.1]
  exact (attached.link n c current).2.1

/-- A worker takes the next frame: it was sent on the other node and never taken before. -/
theorem taking (inv : Routed s) (attached : Attached cfg s) {n : Node} {d : Sent}
    {rest : List Sent} {r : Option Relay} (waiting : s.inbox n = d :: rest)
    (idle : (s.job (.worker n)).targets = []) (same : ∀ r' ∈ r, r'.msg = d.msg) :
    Routed (s.taking n d rest r) := by
  have inbox : ∀ m, (s.taking n d rest r).inbox m = if m = n then rest else s.inbox m := fun m =>
    Function.update_apply ..
  have relays : ∀ m, (s.taking n d rest r).relays m =
      if m = n then d.msg :: s.relays n else s.relays m := fun m => Function.update_apply ..
  have held : ∀ m, (s.taking n d rest r).taken m = if m = n then r else s.taken m := fun m =>
    Function.update_apply ..
  have grows : ∀ m msg, msg ∈ s.relays m → msg ∈ (s.taking n d rest r).relays m := by
    intro m msg member
    rw [relays]
    split
    · next equal =>
      subst equal
      exact List.mem_cons_of_mem _ member
    · exact member
  obtain ⟨written, plain, untaken, crossed, c, current, dest⟩ := inv.front attached waiting
  have bound := (inv.logged d written).1
  constructor
  · exact inv.distinct
  · exact inv.handlerJob
  · intro m x target
    obtain ⟨id, origin, client, member⟩ := inv.workerJob m x target
    exact ⟨id, origin, client, grows m _ member⟩
  · intro e member
    obtain ⟨id, x, dest, placed⟩ := inv.logged e member
    refine ⟨id, x, dest, ?_⟩
    unfold Placed at placed ⊢
    split_ifs at placed ⊢
    · exact ⟨placed.1, placed.2.1, grows _ _ placed.2.2⟩
    · exact placed
  · exact inv.once
  · exact inv.pending
  · intro m msg member
    rw [relays] at member
    split at member
    · rcases List.mem_cons.mp member with rfl | old
      · exact bound
      · exact inv.relays n msg old
    · exact inv.relays m msg member
  · intro m r' taken
    rw [held] at taken
    split at taken
    · next equal =>
      subst equal
      rw [same r' taken]
      refine ⟨crossed, ?_, idle, ?_⟩
      · rw [relays, if_pos rfl]
        exact List.mem_cons_self
      · -- a relayed copy would have needed a worker that took the message before
        intro e member relayed equal
        obtain ⟨-, x, -, placed⟩ := inv.logged e member
        rw [Placed, if_pos relayed, equal, crossed, Node.other_other] at placed
        obtain ⟨node, -, old⟩ := placed
        rw [node] at old
        exact untaken old
    · next different =>
      obtain ⟨origin, member, rest⟩ := inv.taken m r' taken
      exact ⟨origin, grows m _ member, rest⟩
  · intro m e member
    rw [inbox] at member
    split at member
    · next equal =>
      subst equal
      have later : e ∈ s.inbox m := by
        rw [waiting]
        exact List.mem_cons_of_mem _ member
      obtain ⟨logged, direct, fresh, linked⟩ := inv.inbox m e later
      refine ⟨logged, direct, ?_, linked⟩
      have nodup := inv.inboxNodup m
      rw [waiting, List.map_cons, List.nodup_cons] at nodup
      rw [relays, if_pos rfl, List.mem_cons, not_or]
      exact ⟨fun equal => nodup.1 (List.mem_map.mpr ⟨e, member, equal⟩), fresh⟩
    · next different =>
      rw [relays, if_neg different]
      exact inv.inbox m e member
  · intro m
    rw [inbox]
    split
    · next equal =>
      have nodup := inv.inboxNodup n
      rw [waiting] at nodup
      exact nodup.of_cons
    · exact inv.inboxNodup m
  · intro m x h linked target
    have old := inv.linkJob m x h linked target
    rw [relays]
    split
    · next equal =>
      subst equal
      obtain rfl : c = x := Option.some.inj (current.symm.trans linked)
      rw [List.mem_cons, not_or]
      refine ⟨fun equal => inv.pending _ c target (List.mem_map.mpr ⟨d, written, ?_⟩), old⟩
      exact Prod.ext dest equal.symm
    · exact old

theorem relaying (inv : Routed s) (attached : Attached cfg s) {n : Node} {r : Relay}
    (held : s.taken n = some r) : Routed (s.relaying n r) := by
  have job : ∀ k, (s.relaying n r).job k =
      if k = .worker n then ⟨r.msg, r.nick, r.text, (s.hub n).targets none false⟩
      else s.job k := fun k => Function.update_apply ..
  have handler : ∀ h, (s.relaying n r).job (.handler h) = s.job (.handler h) := fun h => by
    rw [job, if_neg (by simp)]
  have taken : ∀ m, (s.relaying n r).taken m = if m = n then none else s.taken m := fun m =>
    Function.update_apply ..
  obtain ⟨crossed, member, -, unrelayed⟩ := inv.taken n r held
  constructor
  · intro k
    rw [job]
    split
    · exact (attached.nodup n).filter _
    · exact inv.distinct k
  · intro h c target
    rw [handler] at target ⊢
    exact inv.handlerJob h c target
  · intro m c target
    rw [job] at target ⊢
    split at target
    · next same =>
      cases same
      rw [if_pos rfl]
      obtain ⟨client, -, ordinary⟩ := mem_targets.mp target
      refine ⟨inv.relays _ _ member, crossed, ?_, member⟩
      by_contra dialed
      have bridge := attached.bridges _ c client (Option.ne_none_iff_isSome.mp dialed)
      rw [ordinary rfl] at bridge
      cases bridge
    · next different =>
      rw [if_neg different]
      exact inv.workerJob m c target
  · exact inv.logged
  · exact inv.once
  · intro k c target
    rw [job] at target ⊢
    split at target
    · next same =>
      rw [if_pos same]
      intro written
      obtain ⟨d, logged, equal⟩ := List.mem_map.mp written
      obtain ⟨dest, msg⟩ := Prod.mk.inj equal
      obtain ⟨-, x, dest', placed⟩ := inv.logged d logged
      obtain rfl : c = x := Endpoint.accepted.inj (dest.symm.trans dest')
      have own := (attached.clients n c (mem_targets.mp target).1).2
      unfold Placed at placed
      split_ifs at placed with relayed
      · exact unrelayed d logged relayed msg
      · -- a copy sent on the other node went to a connection of that node
        rw [msg, crossed, own] at placed
        exact (Node.other_ne n).symm placed.1
    · next different =>
      rw [if_neg different]
      exact inv.pending k c target
  · exact inv.relays
  · intro m r' current
    rw [taken] at current
    split at current
    · cases current
    · next different =>
      rw [job, if_neg (by simpa using different)]
      exact inv.taken m r' current
  · exact inv.inbox
  · exact inv.inboxNodup
  · intro m c h linked target
    rw [handler] at target ⊢
    exact inv.linkJob m c h linked target

/-- The first target of a broadcast is done. -/
theorem popped (inv : Routed s) {k : Caster} {c : Conn} {rest : List Conn}
    (pending : (s.job k).targets = c :: rest) : Routed (s.popped k rest) := by
  have msg : ∀ j, ((s.popped k rest).job j).msg = (s.job j).msg := by
    intro j
    simp only [State.popped, Function.update_apply]
    split
    · next same => rw [same]
    · rfl
  have fewer : ∀ j, ((s.popped k rest).job j).targets.Sublist (s.job j).targets := by
    intro j
    simp only [State.popped, Function.update_apply]
    split
    · next same =>
      rw [same, pending]
      exact List.sublist_cons_self c rest
    · exact List.Sublist.refl _
  constructor
  · intro j
    exact (inv.distinct j).sublist (fewer j)
  · intro h x target
    rw [msg]
    exact inv.handlerJob h x ((fewer _).subset target)
  · intro n x target
    rw [msg]
    exact inv.workerJob n x ((fewer _).subset target)
  · exact inv.logged
  · exact inv.once
  · intro j x target
    rw [msg]
    exact inv.pending j x ((fewer j).subset target)
  · exact inv.relays
  · intro n r held
    obtain ⟨origin, member, idle, unrelayed⟩ := inv.taken n r held
    have less := fewer (.worker n)
    rw [idle] at less
    exact ⟨origin, member, List.sublist_nil.mp less, unrelayed⟩
  · exact inv.inbox
  · exact inv.inboxNodup
  · intro n x h current target
    rw [msg]
    exact inv.linkJob n x h current ((fewer _).subset target)

/-- Two broadcasts of one message have no target in common: they run on different nodes. -/
theorem caster_unique (inv : Routed s) (attached : Attached cfg s) {j k : Caster} {c : Conn}
    (first : c ∈ (s.job j).targets) (second : c ∈ (s.job k).targets)
    (same : (s.job j).msg = (s.job k).msg) : j = k := by
  have node := (attached.targets j c first).2.1.symm.trans (attached.targets k c second).2.1
  cases j with
  | handler g =>
    have origin := (inv.handlerJob g c first).2.1
    cases k with
    | handler h =>
      have other := (inv.handlerJob h c second).2.1
      rw [← origin, ← other, same]
    | worker n =>
      have crossed := (inv.workerJob n c second).2.1
      rw [← same, origin] at crossed
      exact absurd (crossed.symm.trans node) (Node.other_ne n)
  | worker m =>
    cases k with
    | handler h =>
      have crossed := (inv.workerJob m c first).2.1
      rw [same, (inv.handlerJob h c second).2.1] at crossed
      exact absurd (crossed.symm.trans node.symm) (Node.other_ne m)
    | worker n => exact congrArg Caster.worker node

/-- A frame is written to a connection that has no copy of its message, and none coming. -/
theorem delivered (inv : Routed s) {d : Sent} {c : Conn} (dest : d.dest = .accepted c)
    (bound : d.msg.id < s.msgs) (placed : Placed s.relays d c)
    (unwritten : (.accepted c, d.msg) ∉ s.log.map Sent.key)
    (unselected : ∀ k, c ∈ (s.job k).targets → (s.job k).msg ≠ d.msg)
    (unheld : ∀ n r, s.taken n = some r → d.relayed → d.msg ≠ r.msg)
    (untaken : ∀ n, s.link n = some c → d.relayed = false ∧ d.msg ∉ s.relays n) :
    Routed (s.delivered d) := by
  have log : ∀ e, e ∈ (s.delivered d).log ↔ e ∈ s.log ∨ e = d := fun e => by
    rw [State.delivered, List.mem_append, List.mem_singleton]
  have inbox : ∀ n, (s.delivered d).inbox n =
      if s.link n = some c then s.inbox n ++ [d] else s.inbox n := by
    intro n
    simp only [State.delivered, dest, Option.mem_def, Option.map_eq_some_iff,
      Endpoint.accepted.injEq, exists_eq_right]
  refine ⟨inv.distinct, inv.handlerJob, inv.workerJob, ?_, ?_, ?_, inv.relays, ?_, ?_, ?_,
    inv.linkJob⟩
  · intro e member
    rcases (log e).mp member with old | rfl
    · exact inv.logged e old
    · exact ⟨bound, c, dest, placed⟩
  · rw [State.delivered, List.map_append, List.map_singleton]
    refine inv.once.append (List.nodup_singleton _) (List.disjoint_singleton.mpr ?_)
    rwa [Sent.key, dest]
  · intro k x target
    rw [State.delivered, List.map_append, List.map_singleton, List.mem_append,
      List.mem_singleton, not_or]
    refine ⟨inv.pending k x target, fun equal => ?_⟩
    obtain ⟨same, msg⟩ := Prod.mk.inj equal
    obtain rfl : x = c := Endpoint.accepted.inj (same.trans dest)
    exact unselected k target msg
  · intro n r held
    obtain ⟨origin, member, idle, unrelayed⟩ := inv.taken n r held
    refine ⟨origin, member, idle, fun e written relayed => ?_⟩
    rcases (log e).mp written with old | rfl
    · exact unrelayed e old relayed
    · exact unheld n r held relayed
  · intro n e waiting
    rw [inbox] at waiting
    have old : e ∈ s.inbox n → e ∈ (s.delivered d).log ∧ e.relayed = false ∧
        e.msg ∉ s.relays n ∧ ∃ c, s.link n = some c ∧ e.dest = .accepted c := fun before =>
      ⟨(log e).mpr (.inl (inv.inbox n e before).1), (inv.inbox n e before).2⟩
    split at waiting
    · next current =>
      rcases List.mem_append.mp waiting with before | last
      · exact old before
      · obtain rfl := List.mem_singleton.mp last
        obtain ⟨plain, fresh⟩ := untaken n current
        exact ⟨(log e).mpr (.inr rfl), plain, fresh, c, current, dest⟩
    · exact old waiting
  · intro n
    rw [inbox]
    split
    · next current =>
      rw [List.map_append, List.map_singleton]
      refine (inv.inboxNodup n).append (List.nodup_singleton _) (List.disjoint_singleton.mpr ?_)
      intro member
      obtain ⟨e, waiting, same⟩ := List.mem_map.mp member
      obtain ⟨written, -, -, x, link, to'⟩ := inv.inbox n e waiting
      obtain rfl : c = x := Option.some.inj (current.symm.trans link)
      exact unwritten (List.mem_map.mpr ⟨e, written, Prod.ext to' same⟩)
    · exact inv.inboxNodup n

/-- One write of a broadcast that reaches its target. -/
theorem wrote (inv : Routed s) (attached : Attached cfg s) {k : Caster} {c : Conn}
    {rest : List Conn} (pending : (s.job k).targets = c :: rest) (frame : Frame) :
    Routed ((s.popped k rest).delivered ⟨.accepted c, (s.job k).msg, k.isWorker, frame⟩) := by
  have target := mem_of_eq_cons pending
  have node := (attached.targets k c target).2.1
  have job : ∀ j, (s.popped k rest).job j =
      if j = k then { s.job k with targets := rest } else s.job j := fun j =>
    Function.update_apply ..
  have unselected : ∀ j, c ∈ ((s.popped k rest).job j).targets →
      ((s.popped k rest).job j).msg ≠ (s.job k).msg := by
    intro j later same
    rw [job] at later same
    split at later
    · have nodup := inv.distinct k
      rw [pending, List.nodup_cons] at nodup
      exact nodup.1 later
    · next different =>
      rw [if_neg different] at same
      exact different (inv.caster_unique attached later target same)
  cases k with
  | handler h =>
    obtain ⟨bound, origin, different⟩ := inv.handlerJob h c target
    refine (inv.popped pending).delivered rfl bound ?_ (inv.pending _ c target) unselected
      (fun n r _ relayed => ?_) fun n current => ⟨rfl, inv.linkJob n c h current target⟩
    · rw [Placed, if_neg (by simp [Caster.isWorker]), origin]
      exact ⟨node, different⟩
    · cases relayed
  | worker m =>
    obtain ⟨bound, crossed, client, member⟩ := inv.workerJob m c target
    change c.node = m at node
    refine (inv.popped pending).delivered rfl bound ?_ (inv.pending _ c target) unselected
      (fun n r held _ equal => ?_) fun n current => ?_
    · rw [Placed, if_pos (by simp [Caster.isWorker]), crossed, node, Node.other_other]
      exact ⟨rfl, client, member⟩
    · -- a worker that holds this message is idle, and the other one never sees it
      obtain ⟨origin, -, idle, -⟩ := inv.taken n r held
      rw [← equal, crossed] at origin
      have same : m = n := by rw [← Node.other_other m, origin, Node.other_other]
      rw [same, idle] at pending
      cases pending
    · obtain ⟨-, -, f, dialed, -⟩ := attached.link n c current
      rw [client] at dialed
      cases dialed

theorem init : Routed {} := by
  constructor <;> simp

theorem keeps (inv : Routed s) (attached : Attached cfg s) {a : Action} {t : State}
    (taken : step cfg s a = some t) : Routed t := by
  have same {t : State} (job : t.job = s.job) (msgs : t.msgs = s.msgs) (log : t.log = s.log)
      (relays : t.relays = s.relays) (held : t.taken = s.taken) (inbox : t.inbox = s.inbox)
      (link : t.link = s.link) : Routed t := by
    constructor <;> simp only [job, msgs, log, relays, held, inbox, link]
    · exact inv.distinct
    · exact inv.handlerJob
    · exact inv.workerJob
    · exact inv.logged
    · exact inv.once
    · exact inv.pending
    · exact inv.relays
    · exact inv.taken
    · exact inv.inbox
    · exact inv.inboxNodup
    · exact inv.linkJob
  cases effect_of_step taken with
  | accept => exact same rfl rfl rfl rfl rfl rfl rfl
  | @dial n fd dialFd unlinked => exact inv.linked attached dialFd rfl unlinked
  | join => exact same rfl rfl rfl rfl rfl rfl rfl
  | refuse => exact same rfl rfl rfl rfl rfl rfl rfl
  | msg => exact same rfl rfl rfl rfl rfl rfl rfl
  | broadcast => exact inv.broadcasting attached _ _
  | take waiting free idle =>
    refine inv.taking attached waiting (by simpa [State.idle] using idle) ?_
    intro r held
    obtain ⟨parts, -, rfl⟩ := Option.map_eq_some_iff.mp held
    rfl
  | relay held => exact inv.relaying attached held
  | @write k sent c rest pending =>
    rcases attached.wrote_cases (mem_of_eq_cons pending) sent (s.popped k rest) with done | done
    · rw [done]
      exact inv.popped pending
    · rw [done]
      exact inv.wrote attached pending _
  | leave => exact same rfl rfl rfl rfl rfl rfl rfl
  | close => exact same rfl rfl rfl rfl rfl rfl rfl
  | drop => exact inv.dropped _ _

end Routed

/-- In every run that reuses no number under a C++ broadcast, both invariants hold. -/
theorem bridge_keeps {cfg : Config} {acts : List Action} {s : State}
    (met : (bridge cfg).Meets (FreshNumbers cfg) (bridge cfg).init acts)
    (run : (bridge cfg).run? acts = some s) : Attached cfg s ∧ Routed s := by
  have keeps (s : State) (a : Action) (t : State) (inv : Attached cfg s ∧ Routed s)
      (guard : FreshNumbers cfg s a) (taken : step cfg s a = some t) :
      Attached cfg t ∧ Routed t :=
    ⟨inv.1.keeps guard taken, inv.2.keeps inv.1 taken⟩
  exact @Machine.run?_keeps_of_meets _ _ (bridge cfg) (fun s => Attached cfg s ∧ Routed s) _
    ⟨Attached.init cfg, Routed.init⟩ keeps s acts met run

/-- Each message was written at most once to each connection of either node and never to the one
it came from, and no frame a worker broadcast was written to a bridge connection. -/
def DeliversOnce (s : State) : Prop :=
  (∀ c m, (s.log.map Sent.key).count (.accepted c, m) ≤ 1) ∧
    (∀ d ∈ s.log, d.dest ≠ .accepted d.msg.origin) ∧
    ∀ d ∈ s.log, d.relayed → ∃ c, d.dest = .accepted c ∧ c.dialFd = none

/-- In every run of two bridged nodes in which no number is reused under a C++ broadcast, no
message is duplicated, echoed to its sender, or sent back over a bridge. -/
theorem delivers_once {cfg : Config} {acts : List Action} {s : State}
    (met : (bridge cfg).Meets (FreshNumbers cfg) (bridge cfg).init acts)
    (run : (bridge cfg).run? acts = some s) : DeliversOnce s := by
  have routed := (bridge_keeps met run).2
  refine ⟨fun c m => List.nodup_iff_count_le_one.mp routed.once _, ?_, ?_⟩
  · intro d written echoed
    obtain ⟨-, c, dest, placed⟩ := routed.logged d written
    obtain rfl : c = d.msg.origin := Endpoint.accepted.inj (dest.symm.trans echoed)
    unfold Placed at placed
    split_ifs at placed
    · exact (Node.other_ne _).symm placed.1
    · exact placed.2 rfl
  · intro d written relayed
    obtain ⟨-, c, dest, placed⟩ := routed.logged d written
    rw [Placed, if_pos relayed] at placed
    exact ⟨c, dest, placed.2.1⟩

/-- A client of `T` says something; the worker of `P` has it and is about to pass it on. -/
def crossing (nick : Bytes) : List Action :=
  [.dial .peer 4 4, .join ⟨0, .target, 4, some 4⟩ (bridgeNick [0x50]),
    .accept .target 5, .join ⟨1, .target, 5, none⟩ nick,
    .accept .peer 5, .join ⟨2, .peer, 5, none⟩ [0x63],
    .msg ⟨1, .target, 5, none⟩ [0x62], .broadcast ⟨1, .target, 5, none⟩,
    .write (.handler ⟨1, .target, 5, none⟩) true, .take .peer, .relay .peer]

theorem not_awaits_of_idle {s : State} (idle : ∀ k, (s.job k).targets = []) (n : Node) (fd : ℕ) :
    ¬ s.Awaits n fd := by
  rintro ⟨k, -, c, target, -⟩
  rw [idle k] at target
  cases target

/-- All connections of this run are there before anything is broadcast. -/
theorem crossing_freshNumbers :
    (bridge cppFleet).Meets (FreshNumbers cppFleet) (bridge cppFleet).init
      (crossing [0x61] ++ [.write (.worker .peer) true]) := by
  have idle {s : State} (job : s.job = (bridge cppFleet).init.job) (n : Node) (fd : ℕ) :
      ¬ s.Awaits n fd := not_awaits_of_idle (fun _ => by rw [job]; rfl) n fd
  simp only [crossing, List.cons_append, List.nil_append]
  refine (Machine.meets_cons_iff rfl).mpr ⟨fun _ => ⟨idle rfl _ _, idle rfl _ _⟩, ?_⟩
  refine (Machine.meets_cons_iff rfl).mpr ⟨trivial, ?_⟩
  refine (Machine.meets_cons_iff rfl).mpr ⟨fun _ => idle rfl _ _, ?_⟩
  refine (Machine.meets_cons_iff rfl).mpr ⟨trivial, ?_⟩
  refine (Machine.meets_cons_iff rfl).mpr ⟨fun _ => idle rfl _ _, ?_⟩
  refine Machine.meets_of_forall (fun s a member => ?_) _
  simp only [List.mem_cons, List.not_mem_nil, or_false] at member
  rcases member with rfl | rfl | rfl | rfl | rfl | rfl | rfl <;> trivial

theorem delivers_once_crossing :
    ∃ s, (bridge cppFleet).run? (crossing [0x61] ++ [.write (.worker .peer) true]) = some s ∧
      s.log.length = 2 ∧ DeliversOnce s := by
  exact ⟨_, rfl, rfl, delivers_once crossing_freshNumbers rfl⟩

/-- A client of `P` leaves while the worker still has to write to it, the worker of `T` dials in
on the freed descriptor, and the relayed frame crosses back to the client that sent it. -/
theorem not_delivers_once_reused_fd :
    ∃ s, (bridge cppFleet).run?
        (crossing [0x61] ++ [.leave ⟨2, .peer, 5, none⟩, .close ⟨2, .peer, 5, none⟩,
          .dial .target 5 6, .join ⟨3, .peer, 5, some 6⟩ (bridgeNick [0x54]),
          .write (.worker .peer) true, .take .target, .relay .target,
          .write (.worker .target) true]) = some s ∧
      (∃ d ∈ s.log, d.relayed ∧ d.dest = .accepted ⟨3, .peer, 5, some 6⟩) ∧
      (∃ d ∈ s.log, d.dest = .accepted d.msg.origin) ∧ ¬ DeliversOnce s := by
  have echoed : ∃ s, (bridge cppFleet).run?
        (crossing [0x61] ++ [.leave ⟨2, .peer, 5, none⟩, .close ⟨2, .peer, 5, none⟩,
          .dial .target 5 6, .join ⟨3, .peer, 5, some 6⟩ (bridgeNick [0x54]),
          .write (.worker .peer) true, .take .target, .relay .target,
          .write (.worker .target) true]) = some s ∧
      (∃ d ∈ s.log, d.relayed ∧ d.dest = .accepted ⟨3, .peer, 5, some 6⟩) ∧
      ∃ d ∈ s.log, d.dest = .accepted d.msg.origin :=
    ⟨_, rfl, by decide, by decide⟩
  obtain ⟨s, run, crossed, d, written, echo⟩ := echoed
  exact ⟨s, run, crossed, ⟨d, written, echo⟩, fun once => once.2.1 d written echo⟩

end LinuxSys.Fleet
