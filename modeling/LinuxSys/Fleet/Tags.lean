import LinuxSys.Fleet.Arrival
import LinuxSys.Fleet.Once

/-! # The node tag of bridged messages

A worker appends `@` and its peer's node name to a nick that has no `@`, and nothing checks the
nicks clients choose. So the tag on a nick shows where a message came from only up to the nicks
that already end in it. `Labelled` follows the nick of a message through both hops.
-/

namespace LinuxSys.Fleet

open Lib Chatterd

/-- The nick a receiver takes from a DELIVER. -/
def shownNick (cfg : Config) (d : Sent) : Option Bytes :=
  (splitDeliver? cfg.lang d.frame.payload).map Prod.fst

/-- The nick a message is broadcast under, by its own node or by a worker. -/
def label (cfg : Config) (relayed : Bool) (m : Msg) : Bytes :=
  if relayed then tag (cfg.name m.origin.node) (before 0 m.nick) else m.nick

structure Labelled (cfg : Config) (s : State) : Prop where
  nicks : ∀ n c, cfg.lang.text ((s.hub n).peer c).nick = ((s.hub n).peer c).nick
  jobs : ∀ k c, c ∈ (s.job k).targets → cfg.lang.text (s.job k).msg.nick = (s.job k).msg.nick ∧
    (s.job k).nick = label cfg k.isWorker (s.job k).msg
  taken : ∀ n r, s.taken n = some r → cfg.lang.text r.msg.nick = r.msg.nick ∧
    r.nick = label cfg true r.msg
  log : ∀ d ∈ s.log, cfg.lang.text d.msg.nick = d.msg.nick ∧ d.frame.typ = typeDeliver ∧
    shownNick cfg d = some (before 0 (label cfg d.relayed d.msg))

/-- A language's own string stays its own when it is cut at a NUL. -/
theorem text_before {lang : Lang} {nick : Bytes} (own : lang.text nick = nick) :
    lang.text (before 0 nick) = before 0 nick := by
  cases found : splitFirst? 0 nick with
  | none =>
    rw [before_of_not_mem (splitFirst?_eq_none_iff.mp found)]
    exact own
  | some parts =>
    obtain ⟨front, back⟩ := parts
    obtain ⟨rfl, fresh⟩ := splitFirst?_eq_some_iff.mp found
    rw [text_append_cons (by decide)] at own
    have kept := splitFirst?_append ((mem_text_iff (by decide) lang front).not.mpr fresh)
      (lang.text back)
    rw [own, found] at kept
    have same := (Prod.mk.inj (Option.some.inj kept)).1
    simp only [before, found]
    exact same.symm

section Labels

variable {cfg : Config} {s : State}

theorem text_label {m : Msg} (own : cfg.lang.text m.nick = m.nick) (relayed : Bool) :
    cfg.lang.text (label cfg relayed m) = label cfg relayed m := by
  unfold label
  split
  · exact text_tag (text_before own) (cfg.own _)
  · exact own

theorem before_label_relayed (cfg : Config) (m : Msg) :
    before 0 (label cfg true m) = label cfg true m := by
  rw [label, if_pos rfl]
  exact before_of_not_mem ((nul_not_mem_tag (cfg.nulFree _)).mpr (not_mem_before 0 _))

/-- A broadcast nick is shown up to its first NUL. -/
theorem shownNick_deliver {dest : Endpoint} {m : Msg} {relayed : Bool} {nick text : Bytes}
    (own : cfg.lang.text nick = nick) :
    shownNick cfg ⟨dest, m, relayed, deliverFrame nick text⟩ = some (before 0 nick) := by
  obtain ⟨rest, split⟩ := splitFirst?_append_cons 0 nick text
  simp only [shownNick, deliverFrame, deliverPayload, splitDeliver?, split, Option.map_some,
    text_before own]

/-- A worker tags what it was shown. -/
theorem nick_of_relayed {d : Sent} {parts : Bytes × Bytes} {n : Node}
    (crossed : d.msg.origin.node = n.other)
    (shown : shownNick cfg d = some (before 0 d.msg.nick))
    (relayed : relayed? cfg.lang (cfg.name n.other) d.frame = some parts) :
    parts.1 = label cfg true d.msg := by
  unfold relayed? at relayed
  split at relayed
  · cases relayed
  · obtain ⟨pair, split, rfl⟩ := Option.map_eq_some_iff.mp relayed
    rw [shownNick, split, Option.map_some, Option.some.injEq] at shown
    rw [label, if_pos rfl, crossed, shown]

end Labels

namespace Labelled

variable {cfg : Config} {s : State}

theorem init (cfg : Config) : Labelled cfg {} := by
  have empty : cfg.lang.text [] = [] := (text_eq_self_iff _ _).mpr fun _ => Utf8.valid_nil
  constructor <;> simp [empty]

theorem joined (inv : Labelled cfg s) (c : Conn) (payload : Bytes) :
    Labelled cfg (s.joined c ⟨cfg.lang.text payload⟩) := by
  refine ⟨fun n x => ?_, inv.jobs, inv.taken, inv.log⟩
  simp only [State.joined, Function.update_apply]
  split
  · rw [Hub.peer_add]
    split
    · exact text_text ..
    · exact inv.nicks c.node x
  · exact inv.nicks n x

theorem left (inv : Labelled cfg s) (c : Conn) : Labelled cfg (s.left c) := by
  refine ⟨fun n x => ?_, inv.jobs, inv.taken, inv.log⟩
  simp only [State.left, Function.update_apply]
  split
  · exact inv.nicks c.node x
  · exact inv.nicks n x

theorem broadcasting (inv : Labelled cfg s) (c : Conn) (text : Bytes) :
    Labelled cfg (s.broadcasting c text) := by
  refine ⟨inv.nicks, fun k x target => ?_, inv.taken, inv.log⟩
  simp only [State.broadcasting, Function.update_apply] at target ⊢
  split at target
  · next same =>
    subst same
    rw [if_pos rfl]
    exact ⟨inv.nicks c.node c, rfl⟩
  · next different =>
    rw [if_neg different]
    exact inv.jobs k x target

theorem relaying (inv : Labelled cfg s) {n : Node} {r : Relay} (held : s.taken n = some r) :
    Labelled cfg (s.relaying n r) := by
  refine ⟨inv.nicks, fun k x target => ?_, fun m r' current => ?_, inv.log⟩
  · simp only [State.relaying, Function.update_apply] at target ⊢
    split at target
    · next same =>
      subst same
      rw [if_pos rfl]
      exact inv.taken n r held
    · next different =>
      rw [if_neg different]
      exact inv.jobs k x target
  · simp only [State.relaying, Function.update_apply] at current
    split at current
    · cases current
    · exact inv.taken m r' current

theorem taking (inv : Labelled cfg s) (attached : Attached cfg s) (routed : Routed s) {n : Node}
    {d : Sent} {rest : List Sent} (waiting : s.inbox n = d :: rest) :
    Labelled cfg (s.taking n d rest
      ((relayed? cfg.lang (cfg.name n.other) d.frame).map fun parts =>
        ⟨d.msg, parts.1, parts.2⟩)) := by
  refine ⟨inv.nicks, inv.jobs, fun m r held => ?_, inv.log⟩
  simp only [State.taking, Function.update_apply] at held
  split at held
  · next same =>
    subst same
    obtain ⟨parts, relayed, rfl⟩ := Option.map_eq_some_iff.mp held
    obtain ⟨written, plain, -, crossed, -⟩ := routed.front attached waiting
    obtain ⟨own, -, shown⟩ := inv.log d written
    rw [plain] at shown
    exact ⟨own, nick_of_relayed crossed shown relayed⟩
  · exact inv.taken m r held

theorem popped (inv : Labelled cfg s) {k : Caster} {c : Conn} {rest : List Conn}
    (pending : (s.job k).targets = c :: rest) : Labelled cfg (s.popped k rest) := by
  refine ⟨inv.nicks, fun j x target => ?_, inv.taken, inv.log⟩
  simp only [State.popped, Function.update_apply] at target ⊢
  split at target
  · next same =>
    subst same
    rw [if_pos rfl]
    exact inv.jobs j x (by rw [pending]; exact List.mem_cons_of_mem _ target)
  · next different =>
    rw [if_neg different]
    exact inv.jobs j x target

theorem keeps (inv : Labelled cfg s) (attached : Attached cfg s) (routed : Routed s) {a : Action}
    {t : State} (taken : step cfg s a = some t) : Labelled cfg t := by
  cases effect_of_step taken with
  | accept => exact ⟨inv.nicks, inv.jobs, inv.taken, inv.log⟩
  | dial => exact ⟨inv.nicks, inv.jobs, inv.taken, inv.log⟩
  | join => exact inv.joined _ _
  | refuse => exact ⟨inv.nicks, inv.jobs, inv.taken, inv.log⟩
  | msg => exact ⟨inv.nicks, inv.jobs, inv.taken, inv.log⟩
  | broadcast => exact inv.broadcasting _ _
  | take waiting => exact inv.taking attached routed waiting
  | relay held => exact inv.relaying held
  | @write k sent c rest pending =>
    have next := inv.popped pending
    have target := mem_of_eq_cons pending
    obtain ⟨own, nick⟩ := inv.jobs k c target
    rcases attached.wrote_cases target sent (s.popped k rest) with done | done
    · rw [done]
      exact next
    · rw [done]
      refine ⟨next.nicks, next.jobs, next.taken, fun d written => ?_⟩
      rcases List.mem_append.mp written with old | last
      · exact inv.log d old
      · obtain rfl := List.mem_singleton.mp last
        refine ⟨own, rfl, ?_⟩
        rw [nick, shownNick_deliver (text_label own _)]
  | leave => exact inv.left _
  | close => exact ⟨inv.nicks, inv.jobs, inv.taken, inv.log⟩
  | drop => exact ⟨inv.nicks, inv.jobs, inv.taken, inv.log⟩

end Labelled

/-- The text `@` and the name of a node. -/
def mark (cfg : Config) (n : Node) : Bytes := atSign :: cfg.name n

/-- In every run in which no number is reused under a C++ broadcast, a DELIVER a connection of
a node receives shows a nick ending in the other node's mark only for a message from the other
node, or for a message of this node whose own nick ends so; and a bridged one shows the sender's
nick, up to a NUL, with the mark appended unless it had an `@`. -/
theorem marked_nicks {cfg : Config} {acts : List Action} {s : State}
    (met : (bridge cfg).Meets (FreshNumbers cfg) (bridge cfg).init acts)
    (run : (bridge cfg).run? acts = some s) :
    ∀ d ∈ s.log, ∀ c, d.dest = .accepted c →
      (∀ nick, shownNick cfg d = some nick → mark cfg c.node.other <:+ nick →
        d.msg.origin.node = c.node.other ∨
          d.msg.origin.node = c.node ∧ mark cfg c.node.other <:+ before 0 d.msg.nick) ∧
      (d.relayed → d.msg.origin.node = c.node.other ∧
        shownNick cfg d = some (if atSign ∈ before 0 d.msg.nick then before 0 d.msg.nick
          else before 0 d.msg.nick ++ mark cfg c.node.other)) := by
  have keeps (s : State) (a : Action) (t : State)
      (inv : (Attached cfg s ∧ Routed s) ∧ Labelled cfg s)
      (guard : FreshNumbers cfg s a) (taken : step cfg s a = some t) :
      (Attached cfg t ∧ Routed t) ∧ Labelled cfg t :=
    ⟨⟨inv.1.1.keeps guard taken, inv.1.2.keeps inv.1.1 taken⟩,
      inv.2.keeps inv.1.1 inv.1.2 taken⟩
  obtain ⟨⟨-, routed⟩, labelled⟩ := @Machine.run?_keeps_of_meets _ _ (bridge cfg)
    (fun s => (Attached cfg s ∧ Routed s) ∧ Labelled cfg s) _
    ⟨⟨Attached.init cfg, Routed.init⟩, Labelled.init cfg⟩ keeps s acts met run
  intro d written c dest
  obtain ⟨-, c', dest', placed⟩ := routed.logged d written
  obtain rfl : c = c' := Endpoint.accepted.inj (dest.symm.trans dest')
  obtain ⟨-, -, shown⟩ := labelled.log d written
  unfold Placed at placed
  split_ifs at placed with relayed
  · have crossed : d.msg.origin.node = c.node.other := by rw [placed.1, Node.other_other]
    refine ⟨fun _ _ _ => .inl crossed, fun _ => ⟨crossed, ?_⟩⟩
    rw [shown, relayed, before_label_relayed, label, if_pos rfl, tag, crossed]
    rfl
  · refine ⟨fun nick same ends => .inr ⟨placed.1.symm, ?_⟩, fun is => absurd is relayed⟩
    rw [shown, label, if_neg relayed, Option.some.injEq] at same
    rwa [same]

theorem marked_nicks_crossing :
    ∃ s, (bridge cppFleet).run? (crossing [0x61] ++ [.write (.worker .peer) true]) = some s ∧
      ∀ d ∈ s.log, ∀ c, d.dest = .accepted c →
        (∀ nick, shownNick cppFleet d = some nick → mark cppFleet c.node.other <:+ nick →
          d.msg.origin.node = c.node.other ∨
            d.msg.origin.node = c.node ∧ mark cppFleet c.node.other <:+ before 0 d.msg.nick) ∧
        (d.relayed → d.msg.origin.node = c.node.other ∧
          shownNick cppFleet d = some (if atSign ∈ before 0 d.msg.nick then before 0 d.msg.nick
            else before 0 d.msg.nick ++ mark cppFleet c.node.other)) := by
  exact ⟨_, rfl, marked_nicks crossing_freshNumbers rfl⟩

/-- A client of `P` that calls itself `x@T` is heard by its own node as if from `T`, and a client
of `T` that calls itself `a@b` is heard on `P` without the mark. -/
theorem not_marked_nicks :
    (∃ s, (bridge cppFleet).run?
        [.accept .peer 4, .join ⟨0, .peer, 4, none⟩ [0x78, 0x40, 0x54],
          .accept .peer 5, .join ⟨1, .peer, 5, none⟩ [0x63],
          .msg ⟨0, .peer, 4, none⟩ [0x62], .broadcast ⟨0, .peer, 4, none⟩,
          .write (.handler ⟨0, .peer, 4, none⟩) true] = some s ∧
      ∃ d ∈ s.log, d.dest = .accepted ⟨1, .peer, 5, none⟩ ∧
        shownNick cppFleet d = some [0x78, 0x40, 0x54] ∧
        mark cppFleet .target <:+ [0x78, 0x40, 0x54] ∧ d.msg.origin.node = .peer) ∧
    ∃ s, (bridge cppFleet).run?
        (crossing [0x61, 0x40, 0x62] ++ [.write (.worker .peer) true]) = some s ∧
      ∃ d ∈ s.log, d.dest = .accepted ⟨2, .peer, 5, none⟩ ∧ d.relayed ∧
        shownNick cppFleet d = some [0x61, 0x40, 0x62] ∧
        ¬ mark cppFleet .target <:+ [0x61, 0x40, 0x62] :=
  ⟨⟨_, rfl, by decide⟩, ⟨_, rfl, by decide⟩⟩

end LinuxSys.Fleet
