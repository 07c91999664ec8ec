import LinuxSys.Lib.PyText
import Mathlib.Data.List.Nodup
import Mathlib.Logic.Function.Basic

/-! # The test harness

`run` of test-all-examples.py builds all combinations of example and language, in whatever order the
pool is done with them, and verifies what has built one after another. What a command answers is up
to the world, and may depend on everything the harness has run before.
-/

namespace LinuxSys.Manifest.Harness

open Lib PyText

structure Example where
  id : Text
  dir : Text
  langs : List Text
  mode : Text
  requires : List Text
deriving DecidableEq, Repr

inductive Mode where
  | loc
  | vm
  | all
deriving DecidableEq, Repr

structure Args where
  only : List Text
  lang : List Text
  mode : Mode
  revertBetween : Bool
deriving DecidableEq, Repr

def Example.isVm (ex : Example) : Bool := ex.mode ∈ ["vm".toList, "vm-peer".toList]

/-- The example with the languages that are asked for. -/
def narrow (a : Args) (ex : Example) : Option Example :=
  if a.only ≠ [] ∧ ex.id ∉ a.only then none
  else if a.mode = .loc ∧ ex.mode ≠ "local".toList then none
  else if a.mode = .vm ∧ ¬ ex.isVm then none
  else
    match ex.langs.filter fun l => a.lang = [] ∨ l ∈ a.lang with
    | [] => none
    | langs => some { ex with langs := langs }

def select (examples : List Example) (a : Args) : Except Text (List Example) :=
  match a.only.find? fun only => only ∉ examples.map Example.id with
  | some only => .error ("error: --only ".toList ++ only ++ ": no such example in manifest".toList)
  | none => .ok (examples.filterMap (narrow a))

inductive Status where
  | pass
  | fail
  | skip
deriving DecidableEq, Repr

structure Result where
  status : Status
  reason : Text
deriving DecidableEq, Repr

/-- How a command ends: with an exit status, too late, or before it has started. -/
inductive Ended where
  | exited (code : ℤ) (out : Text)
  | timedOut
  | failed (error : Text)
deriving DecidableEq, Repr

def buildTimeout : ℕ := 900

def verifyTimeout : ℕ := 300

/-- The mark of a build; a good one leaves the result. -/
def Ended.buildMark : Ended → Option Result
  | .exited code _ =>
    if code = 0 then none else some ⟨.fail, "build exit ".toList ++ (toString code).toList⟩
  | .timedOut =>
    some ⟨.fail, "build timed out after ".toList ++ (toString buildTimeout).toList ++ ['s']⟩
  | .failed error => some ⟨.fail, "build could not start: ".toList ++ error⟩

/-- What `SKIP:\s*(.+)` finds, stripped. -/
def skipReason : Text → Text
  | [] => "verify skipped".toList
  | c :: rest =>
    if "SKIP:".toList.isPrefixOf (c :: rest) ∧ ((c :: rest).drop 5).any (· ≠ '\n') then
      strip ((((c :: rest).drop 5).dropWhile isSpace).takeWhile (· ≠ '\n'))
    else skipReason rest

def Ended.verifyMark : Ended → Option Result
  | .exited code out =>
    if code = 77 then some ⟨.skip, skipReason out⟩
    else if code ≠ 0 then some ⟨.fail, "verify exit ".toList ++ (toString code).toList⟩
    else none
  | .timedOut =>
    some ⟨.fail, "verify timed out after ".toList ++ (toString verifyTimeout).toList ++ ['s']⟩
  | .failed error => some ⟨.fail, "verify could not start: ".toList ++ error⟩

inductive Event where
  | verified (ex : Example) (lang : Text) (ended : Ended)
  | reverted (ok : Bool)
deriving DecidableEq, Repr

/-- What the harness meets. The probes are asked once and remembered. -/
structure World where
  labPrefix : Text
  lgtmUp : Bool
  podmanUp : Bool
  vmReachable : Text → Bool
  build : Example → Text → Ended
  verify : List Event → Example → Text → Ended
  revert : List Event → Bool

namespace World

variable (w : World)

def targetVm : Text := w.labPrefix ++ "-target".toList

def peerVm : Text := w.labPrefix ++ "-peer".toList

def needed (ex : Example) : List Text :=
  w.targetVm :: if ex.mode = "vm-peer".toList then [w.peerVm] else []

/-- What an example has to do without. -/
def missing (ex : Example) : Option Text :=
  if "lgtm".toList ∈ ex.requires ∧ ¬ w.lgtmUp then some "lgtm down".toList
  else if "podman".toList ∈ ex.requires ∧ ¬ w.podmanUp then some "podman unavailable".toList
  else if ex.isVm ∧ ¬ (w.needed ex).all w.vmReachable then some "lab down".toList
  else none

end World

abbrev Key := Text × Text

structure State where
  results : Key → Result
  vmExamplesRun : ℕ
  trace : List Event

namespace State

variable (s : State)

def mark (key : Key) : Option Result → State
  | some r => { s with results := Function.update s.results key r }
  | none => s

def markAll (ex : Example) (reason : Text) (langs : List Text) : State :=
  langs.foldl (fun s l => s.mark (ex.id, l) (some ⟨.skip, reason⟩)) s

def buildOne (w : World) (job : Example × Text) : State :=
  s.mark (job.1.id, job.2) (w.build job.1 job.2).buildMark

def verifyOne (w : World) (ex : Example) (l : Text) : State :=
  let ended := w.verify s.trace ex l
  { s.mark (ex.id, l) ended.verifyMark with trace := s.trace ++ [.verified ex l ended] }

def verifyLangs (w : World) (ex : Example) (langs : List Text) : State :=
  langs.foldl (fun s l => s.verifyOne w ex l) s

/-- The languages that have built. -/
def waiting (ex : Example) : List Text :=
  ex.langs.filter fun l => (s.results (ex.id, l)).status = .pass

/-- One turn of the loop over the selected examples. -/
def verifyExample (w : World) (a : Args) (ex : Example) : State :=
  match s.waiting ex with
  | [] => s
  | langs =>
    match w.missing ex with
    | some reason => s.markAll ex reason langs
    | none =>
      if ex.isVm then
        if a.revertBetween ∧ 0 < s.vmExamplesRun then
          let ok := w.revert s.trace
          let s := { s with trace := s.trace ++ [Event.reverted ok] }
          if ok then { s with vmExamplesRun := s.vmExamplesRun + 1 }.verifyLangs w ex langs
          else s.markAll ex "revert failed".toList langs
        else { s with vmExamplesRun := s.vmExamplesRun + 1 }.verifyLangs w ex langs
      else s.verifyLangs w ex langs

end State

def jobs (selected : List Example) : List (Example × Text) :=
  selected.flatMap fun ex => ex.langs.map fun l => (ex, l)

def jobKey (job : Example × Text) : Key := (job.1.id, job.2)

def buildPhase (w : World) (order : List (Example × Text)) : State :=
  order.foldl (fun s job => s.buildOne w job) ⟨fun _ => ⟨.pass, []⟩, 0, []⟩

def verifyPhase (w : World) (a : Args) (selected : List Example) (s : State) : State :=
  selected.foldl (fun s ex => s.verifyExample w a ex) s

/-- What `run` leaves behind, and its exit status. -/
structure Outcome where
  selected : List Example
  state : State
  code : ℕ

/-- The pool is done with the builds in the given order. -/
def run (w : World) (a : Args) (examples : List Example)
    (order : List Example → List (Example × Text)) : Except Text Outcome :=
  (select examples a).map fun selected =>
    let s := verifyPhase w a selected (buildPhase w (order selected))
    ⟨selected, s,
      if (jobs selected).any fun job => (s.results (jobKey job)).status = .fail then 1 else 0⟩

/-! Every result. -/

def Event.ended (key : Key) : Event → Option Ended
  | .verified ex l ended => if (ex.id, l) = key then some ended else none
  | .reverted _ => none

/-- What the verify runs of a combination have answered. -/
def verifies (key : Key) (trace : List Event) : List Ended := trace.filterMap (Event.ended key)

/-- What the result of a combination says about it. -/
inductive Verdict (w : World) (a : Args) (trace : List Event) (ex : Example) (l : Text) :
    Result → Prop where
  | broken (r : Result) (mark : (w.build ex l).buildMark = some r)
      (never : verifies (ex.id, l) trace = []) : Verdict w a trace ex l r
  | verified (ended : Ended) (built : (w.build ex l).buildMark = none) (there : w.missing ex = none)
      (once : verifies (ex.id, l) trace = [ended]) :
      Verdict w a trace ex l (ended.verifyMark.getD ⟨.pass, []⟩)
  | missing (reason : Text) (built : (w.build ex l).buildMark = none)
      (gone : w.missing ex = some reason) (never : verifies (ex.id, l) trace = []) :
      Verdict w a trace ex l ⟨.skip, reason⟩
  | stale (built : (w.build ex l).buildMark = none) (there : w.missing ex = none)
      (between : a.revertBetween ∧ ex.isVm) (refused : Event.reverted false ∈ trace)
      (never : verifies (ex.id, l) trace = []) :
      Verdict w a trace ex l ⟨.skip, "revert failed".toList⟩

/-- The second state has what the first had of a combination. -/
structure Untouched (key : Key) (s t : State) : Prop where
  result : t.results key = s.results key
  verifies : verifies key t.trace = verifies key s.trace
  kept : ∀ event ∈ s.trace, event ∈ t.trace

section Results

variable {w : World} {a : Args} {ex : Example} {l : Text} {langs : List Text} {key : Key}
  {reason : Text} {s t u : State}

theorem Untouched.refl (key : Key) (s : State) : Untouched key s s := ⟨rfl, rfl, fun _ there => there⟩

theorem Untouched.trans (first : Untouched key s t) (second : Untouched key t u) :
    Untouched key s u :=
  ⟨second.result.trans first.result, second.verifies.trans first.verifies,
    fun event there => second.kept event (first.kept event there)⟩

theorem results_mark (key : Key) (r : Option Result) (s : State) :
    (s.mark key r).results key = r.getD (s.results key) := by
  cases r with
  | none => rfl
  | some r => exact Function.update_self key r s.results

theorem results_mark_of_ne {other : Key} (apart : key ≠ other) (r : Option Result) (s : State) :
    (s.mark other r).results key = s.results key := by
  cases r with
  | none => rfl
  | some r => exact Function.update_of_ne apart r s.results

theorem trace_mark (key : Key) (r : Option Result) (s : State) : (s.mark key r).trace = s.trace := by
  cases r <;> rfl

theorem untouched_mark {other : Key} (apart : key ≠ other) (r : Option Result) (s : State) :
    Untouched key s (s.mark other r) :=
  ⟨results_mark_of_ne apart r s, by rw [trace_mark], fun _ there => by rwa [trace_mark]⟩

theorem trace_markAll (s : State) : (s.markAll ex reason langs).trace = s.trace := by
  induction langs generalizing s with
  | nil => rfl
  | cons l rest ih => exact (ih (s.mark _ _)).trans (trace_mark _ _ s)

theorem untouched_markAll (s : State) (apart : ∀ l ∈ langs, key ≠ (ex.id, l)) :
    Untouched key s (s.markAll ex reason langs) := by
  induction langs generalizing s with
  | nil => exact Untouched.refl key s
  | cons l rest ih =>
    rw [List.forall_mem_cons] at apart
    exact (untouched_mark apart.1 _ s).trans (ih (s.mark _ _) apart.2)

theorem results_markAll (s : State) (member : l ∈ langs) :
    (s.markAll ex reason langs).results (ex.id, l) = ⟨.skip, reason⟩ := by
  induction langs using List.reverseRecOn with
  | nil => cases member
  | append_singleton before last ih =>
    rw [State.markAll, List.foldl_append, List.foldl_cons, List.foldl_nil]
    by_cases same : l = last
    · subst same
      exact results_mark _ _ _
    · have earlier : l ∈ before := by simpa [same] using member
      have apart : (ex.id, l) ≠ (ex.id, last) := by simpa using same
      exact (results_mark_of_ne apart _ _).trans (ih earlier)

theorem untouched_verifyOne {other : Text} (apart : key ≠ (ex.id, other)) (s : State) :
    Untouched key s (s.verifyOne w ex other) := by
  refine ⟨results_mark_of_ne apart _ s, ?_, fun _ there => List.mem_append_left _ there⟩
  simp [State.verifyOne, verifies, Event.ended, apart.symm]

theorem untouched_verifyLangs (s : State) (apart : ∀ l ∈ langs, key ≠ (ex.id, l)) :
    Untouched key s (s.verifyLangs w ex langs) := by
  induction langs generalizing s with
  | nil => exact Untouched.refl key s
  | cons l rest ih =>
    rw [List.forall_mem_cons] at apart
    exact (untouched_verifyOne apart.1 s).trans (ih (s.verifyOne w ex l) apart.2)

/-- Each language is verified once. -/
theorem verifyLangs_spec (s : State) (nodup : langs.Nodup) (member : l ∈ langs) :
    ∃ ended, verifies (ex.id, l) (s.verifyLangs w ex langs).trace =
        verifies (ex.id, l) s.trace ++ [ended] ∧
      (s.verifyLangs w ex langs).results (ex.id, l) =
        ended.verifyMark.getD (s.results (ex.id, l)) := by
  induction langs generalizing s with
  | nil => cases member
  | cons first rest ih =>
    rw [List.nodup_cons] at nodup
    rcases List.mem_cons.mp member with rfl | member
    · have later : Untouched (ex.id, l) (s.verifyOne w ex l)
          ((s.verifyOne w ex l).verifyLangs w ex rest) :=
        untouched_verifyLangs _ fun other there same =>
          nodup.1 ((Prod.mk.inj same).2 ▸ there)
      refine ⟨w.verify s.trace ex l, later.verifies.trans ?_, later.result.trans ?_⟩
      · simp [State.verifyOne, verifies, Event.ended]
      · exact results_mark _ _ s
    · have apart : (ex.id, l) ≠ (ex.id, first) := fun same =>
        nodup.1 ((Prod.mk.inj same).2 ▸ member)
      have before := untouched_verifyOne (w := w) apart s
      obtain ⟨ended, once, result⟩ := ih (s.verifyOne w ex first) nodup.2 member
      exact ⟨ended, once.trans (by rw [before.verifies]), result.trans (by rw [before.result])⟩

/-- A turn leaves the example, skips it, or verifies it, on a fresh guest where it has to be one. -/
theorem verifyExample_cases (s : State) :
    s.waiting ex = [] ∧ s.verifyExample w a ex = s ∨
    (∃ reason, w.missing ex = some reason ∧
      s.verifyExample w a ex = s.markAll ex reason (s.waiting ex)) ∨
    (w.missing ex = none ∧ ex.isVm = false ∧
      s.verifyExample w a ex = s.verifyLangs w ex (s.waiting ex)) ∨
    (w.missing ex = none ∧ ex.isVm ∧ (a.revertBetween → s.vmExamplesRun = 0) ∧
      s.verifyExample w a ex =
        { s with vmExamplesRun := s.vmExamplesRun + 1 }.verifyLangs w ex (s.waiting ex)) ∨
    (w.missing ex = none ∧ ex.isVm ∧ a.revertBetween ∧
      s.verifyExample w a ex =
        { s with
          vmExamplesRun := s.vmExamplesRun + 1
          trace := s.trace ++ [Event.reverted true] }.verifyLangs w ex (s.waiting ex)) ∨
    (w.missing ex = none ∧ ex.isVm ∧ a.revertBetween ∧
      s.verifyExample w a ex =
        { s with trace := s.trace ++ [Event.reverted false] }.markAll ex "revert failed".toList
          (s.waiting ex)) := by
  rw [State.verifyExample]
  cases waiting : s.waiting ex with
  | nil => exact .inl ⟨rfl, rfl⟩
  | cons l rest =>
    refine .inr ?_
    cases missing : w.missing ex with
    | some reason => exact .inl ⟨reason, rfl, rfl⟩
    | none =>
      refine .inr ?_
      dsimp only
      by_cases vm : ex.isVm
      · rw [if_pos vm]
        refine .inr ?_
        by_cases again : a.revertBetween ∧ 0 < s.vmExamplesRun
        · rw [if_pos again]
          cases ok : w.revert s.trace with
          | true => exact .inr (.inl ⟨rfl, vm, again.1, rfl⟩)
          | false => exact .inr (.inr ⟨rfl, vm, again.1, rfl⟩)
        · rw [if_neg again]
          refine .inl ⟨rfl, vm, fun between => ?_, rfl⟩
          exact Nat.eq_zero_of_not_pos fun run => again ⟨between, run⟩
      · rw [if_neg vm]
        exact .inl ⟨rfl, by simpa using vm, rfl⟩

theorem untouched_reverted (key : Key) (ok : Bool) (n : ℕ) (s : State) :
    Untouched key s { s with vmExamplesRun := n, trace := s.trace ++ [Event.reverted ok] } :=
  ⟨rfl, by simp [verifies, Event.ended], fun _ there => List.mem_append_left _ there⟩

theorem mem_waiting : l ∈ s.waiting ex ↔ l ∈ ex.langs ∧ (s.results (ex.id, l)).status = .pass := by
  simp [State.waiting]

/-- A turn leaves what does not wait for it. -/
theorem untouched_verifyExample (s : State) (apart : ∀ l ∈ s.waiting ex, key ≠ (ex.id, l)) :
    Untouched key s (s.verifyExample w a ex) := by
  have counted : Untouched key s { s with vmExamplesRun := s.vmExamplesRun + 1 } :=
    ⟨rfl, rfl, fun _ there => there⟩
  rcases verifyExample_cases (w := w) (a := a) s with ⟨-, turn⟩ | ⟨reason, -, turn⟩ |
    ⟨-, -, turn⟩ | ⟨-, -, -, turn⟩ | ⟨-, -, -, turn⟩ | ⟨-, -, -, turn⟩ <;> rw [turn]
  · exact Untouched.refl key s
  · exact untouched_markAll s apart
  · exact untouched_verifyLangs s apart
  · exact counted.trans (untouched_verifyLangs _ apart)
  · exact (untouched_reverted key true _ s).trans (untouched_verifyLangs _ apart)
  · exact (untouched_reverted key false _ s).trans (untouched_markAll _ apart)

/-- A failed build is a failure. -/
theorem fail_of_buildMark {ended : Ended} {r : Result} (mark : ended.buildMark = some r) :
    r.status = .fail := by
  cases ended with
  | exited code out =>
    simp only [Ended.buildMark] at mark
    split_ifs at mark
    cases mark
    rfl
  | timedOut | failed =>
    cases mark
    rfl

/-- After its turn an example has its verdicts. -/
theorem verdict_of_turn (s : State) (nodup : ex.langs.Nodup) (member : l ∈ ex.langs)
    (built : s.results (ex.id, l) = (w.build ex l).buildMark.getD ⟨.pass, []⟩)
    (never : verifies (ex.id, l) s.trace = []) :
    Verdict w a (s.verifyExample w a ex).trace ex l
      ((s.verifyExample w a ex).results (ex.id, l)) := by
  have once : (s.waiting ex).Nodup := nodup.filter _
  cases mark : (w.build ex l).buildMark with
  | some r =>
    have result : s.results (ex.id, l) = r := by rw [built, mark, Option.getD_some]
    have absent : ∀ other ∈ s.waiting ex, (ex.id, l) ≠ (ex.id, other) := by
      rintro other there same
      obtain rfl := (Prod.mk.inj same).2
      have passes := (mem_waiting.mp there).2
      rw [result, fail_of_buildMark mark] at passes
      cases passes
    have left : Untouched (ex.id, l) s (s.verifyExample w a ex) := untouched_verifyExample s absent
    rw [left.result, result]
    exact .broken r mark (left.verifies.trans never)
  | none =>
    rw [mark, Option.getD_none] at built
    have there : l ∈ s.waiting ex := mem_waiting.mpr ⟨member, by rw [built]⟩
    have verified (t : State) (same : Untouched (ex.id, l) s t) (ready : w.missing ex = none) :
        Verdict w a (t.verifyLangs w ex (s.waiting ex)).trace ex l
          ((t.verifyLangs w ex (s.waiting ex)).results (ex.id, l)) := by
      obtain ⟨ended, trace, result⟩ := verifyLangs_spec (w := w) t once there
      rw [result, same.result, built]
      exact .verified ended mark ready (trace.trans (by rw [same.verifies, never]; rfl))
    rcases verifyExample_cases (w := w) (a := a) s with ⟨none', -⟩ | ⟨reason, gone, turn⟩ |
      ⟨ready, -, turn⟩ | ⟨ready, -, -, turn⟩ | ⟨ready, -, -, turn⟩ | ⟨ready, vm, between, turn⟩
    · rw [none'] at there
      cases there
    · rw [turn, results_markAll s there]
      exact .missing reason mark gone (by rw [trace_markAll]; exact never)
    · rw [turn]
      exact verified s (Untouched.refl _ s) ready
    · rw [turn]
      exact verified _ ⟨rfl, rfl, fun _ there => there⟩ ready
    · rw [turn]
      exact verified _ (untouched_reverted _ true _ s) ready
    · rw [turn, results_markAll _ there]
      refine .stale mark ready ⟨between, vm⟩ ?_ ?_
      · rw [trace_markAll]
        exact List.mem_append_right _ List.mem_cons_self
      · rw [trace_markAll]
        exact (untouched_reverted (ex.id, l) false s.vmExamplesRun s).verifies.trans never

theorem Verdict.later (verdict : Verdict w a s.trace ex l (s.results (ex.id, l)))
    (left : Untouched (ex.id, l) s t) : Verdict w a t.trace ex l (t.results (ex.id, l)) := by
  rw [left.result]
  generalize s.results (ex.id, l) = result at verdict ⊢
  cases verdict with
  | broken r mark never => exact .broken _ mark (left.verifies.trans never)
  | verified ended built there once => exact .verified ended built there (left.verifies.trans once)
  | missing reason built gone never => exact .missing reason built gone (left.verifies.trans never)
  | stale built there between refused never =>
    exact .stale built there between (left.kept _ refused) (left.verifies.trans never)

theorem mem_jobs {selected : List Example} {job : Example × Text} :
    job ∈ jobs selected ↔ job.1 ∈ selected ∧ job.2 ∈ job.1.langs := by
  rw [jobs, List.mem_flatMap]
  constructor
  · rintro ⟨ex, there, member⟩
    obtain ⟨l, lang, rfl⟩ := List.mem_map.mp member
    exact ⟨there, lang⟩
  · rintro ⟨there, lang⟩
    exact ⟨job.1, there, List.mem_map.mpr ⟨job.2, lang, rfl⟩⟩

theorem map_jobKey_cons (ex : Example) (rest : List Example) :
    (jobs (ex :: rest)).map jobKey =
      ex.langs.map (fun l => (ex.id, l)) ++ (jobs rest).map jobKey := by
  simp [jobs, jobKey, Function.comp_def]

theorem untouched_turns {rest : List Example} (s : State)
    (apart : ∀ job ∈ jobs rest, key ≠ jobKey job) :
    Untouched key s (verifyPhase w a rest s) := by
  induction rest generalizing s with
  | nil => exact Untouched.refl key s
  | cons ex rest ih =>
    refine (untouched_verifyExample s fun l there => ?_).trans (ih _ fun job there => ?_)
    · exact apart (ex, l) (mem_jobs.mpr ⟨List.mem_cons_self, (mem_waiting.mp there).1⟩)
    · obtain ⟨member, lang⟩ := mem_jobs.mp there
      exact apart job (mem_jobs.mpr ⟨List.mem_cons_of_mem ex member, lang⟩)

/-- The turns give every combination its verdict, wherever it stands. -/
theorem verdict_of_turns (rest : List Example) (s : State)
    (distinct : ((jobs rest).map jobKey).Nodup)
    (built : ∀ job ∈ jobs rest,
      s.results (jobKey job) = (w.build job.1 job.2).buildMark.getD ⟨.pass, []⟩)
    (never : ∀ job ∈ jobs rest, verifies (jobKey job) s.trace = []) :
    ∀ job ∈ jobs rest, Verdict w a (verifyPhase w a rest s).trace job.1 job.2
      ((verifyPhase w a rest s).results (jobKey job)) := by
  induction rest generalizing s with
  | nil =>
    intro job there
    cases there
  | cons ex rest ih =>
    rw [map_jobKey_cons, List.nodup_append] at distinct
    obtain ⟨own, others, apart⟩ := distinct
    have later : ∀ job ∈ jobs rest, Untouched (jobKey job) s (s.verifyExample w a ex) := by
      refine fun job there => untouched_verifyExample s fun l waits same => ?_
      exact apart _ (List.mem_map.mpr ⟨l, (mem_waiting.mp waits).1, rfl⟩) _
        (List.mem_map_of_mem there) same.symm
    have inRest {job : Example × Text} (there : job ∈ jobs rest) : job ∈ jobs (ex :: rest) := by
      obtain ⟨member, lang⟩ := mem_jobs.mp there
      exact mem_jobs.mpr ⟨List.mem_cons_of_mem ex member, lang⟩
    rintro ⟨turned, l⟩ there
    obtain ⟨member, lang⟩ := mem_jobs.mp there
    rcases List.mem_cons.mp member with rfl | member
    · refine Verdict.later (verdict_of_turn s (List.Nodup.of_map _ own) lang (built _ there)
        (never _ there)) (untouched_turns _ fun job after same => ?_)
      exact apart _ (List.mem_map.mpr ⟨l, lang, rfl⟩) _ (List.mem_map_of_mem after) same
    · refine ih _ others (fun job after => ?_) (fun job after => ?_) _ (mem_jobs.mpr ⟨member, lang⟩)
      · rw [(later job after).result]
        exact built job (inRest after)
      · rw [(later job after).verifies]
        exact never job (inRest after)

theorem trace_builds (order : List (Example × Text)) (s : State) :
    (order.foldl (fun s job => s.buildOne w job) s).trace = s.trace := by
  induction order generalizing s with
  | nil => rfl
  | cons job rest ih => exact (ih (s.buildOne w job)).trans (trace_mark _ _ s)

theorem results_builds_of_not_mem (order : List (Example × Text)) (s : State)
    (absent : key ∉ order.map jobKey) :
    (order.foldl (fun s job => s.buildOne w job) s).results key = s.results key := by
  induction order generalizing s with
  | nil => rfl
  | cons job rest ih =>
    rw [List.map_cons, List.mem_cons, not_or] at absent
    exact (ih (s.buildOne w job) absent.2).trans (results_mark_of_ne absent.1 _ s)

/-- The builds do not share a result. -/
theorem results_builds (order : List (Example × Text)) (s : State)
    (distinct : (order.map jobKey).Nodup) (job : Example × Text) (member : job ∈ order) :
    (order.foldl (fun s job => s.buildOne w job) s).results (jobKey job) =
      (w.build job.1 job.2).buildMark.getD (s.results (jobKey job)) := by
  induction order generalizing s with
  | nil => cases member
  | cons first rest ih =>
    rw [List.map_cons, List.nodup_cons] at distinct
    rcases List.mem_cons.mp member with rfl | member
    · exact (results_builds_of_not_mem rest _ distinct.1).trans (results_mark _ _ s)
    · have other : jobKey job ≠ jobKey first := fun same =>
        distinct.1 (same ▸ List.mem_map_of_mem member)
      refine (ih (s.buildOne w first) distinct.2 member).trans ?_
      rw [State.buildOne, ← jobKey, results_mark_of_ne other]

theorem map_id_narrow (a : Args) (examples : List Example) :
    ((examples.filterMap (narrow a)).map Example.id).Sublist (examples.map Example.id) := by
  induction examples with
  | nil => exact List.Sublist.refl _
  | cons ex rest ih =>
    rw [List.filterMap_cons]
    cases narrowed : narrow a ex with
    | none => exact ih.trans (List.sublist_cons_self _ _)
    | some turned =>
      have same : turned.id = ex.id := by
        simp only [narrow] at narrowed
        split_ifs at narrowed
        split at narrowed
        · cases narrowed
        · cases narrowed
          rfl
      rw [List.map_cons, List.map_cons, same]
      exact ih.cons_cons _

theorem nodup_langs_narrow {turned : Example} (narrowed : narrow a ex = some turned)
    (nodup : ex.langs.Nodup) : turned.langs.Nodup := by
  simp only [narrow] at narrowed
  split_ifs at narrowed
  split at narrowed
  · cases narrowed
  · next langs _ =>
    obtain rfl := Option.some.inj narrowed
    exact nodup.filter _

/-- Different combinations have results of their own. -/
theorem nodup_jobs {selected : List Example} (ids : (selected.map Example.id).Nodup)
    (langs : ∀ ex ∈ selected, ex.langs.Nodup) : ((jobs selected).map jobKey).Nodup := by
  induction selected with
  | nil => exact List.nodup_nil
  | cons ex rest ih =>
    rw [List.map_cons, List.nodup_cons] at ids
    rw [List.forall_mem_cons] at langs
    rw [map_jobKey_cons, List.nodup_append]
    refine ⟨langs.1.map fun l m same => (Prod.mk.inj same).2, ih ids.2 langs.2, ?_⟩
    rintro key own other there rfl
    obtain ⟨l, -, rfl⟩ := List.mem_map.mp own
    obtain ⟨job, member, same⟩ := List.mem_map.mp there
    refine ids.1 ((Prod.mk.inj same).1 ▸ List.mem_map_of_mem (mem_jobs.mp member).1)

/-- A combination fails by its build or by its verify run. -/
theorem Verdict.fail_iff {trace : List Event} {r : Result} (verdict : Verdict w a trace ex l r) :
    r.status = .fail ↔ (w.build ex l).buildMark ≠ none ∨
      ∃ ended ∈ verifies (ex.id, l) trace, ended.verifyMark.map Result.status = some .fail := by
  cases verdict with
  | broken _ mark never =>
    exact iff_of_true (fail_of_buildMark mark) (.inl (by rw [mark]; exact Option.some_ne_none _))
  | verified ended built there once =>
    rw [once, built]
    cases mark : ended.verifyMark with
    | none => simp [mark]
    | some r => simp [mark]
  | missing reason built gone never => simp [never, built]
  | stale built there between refused never => simp [never, built]

end Results

/-- Every combination has its verdict, in whatever order the builds were done, and the exit status
tells whether one has failed. -/
theorem verdict_of_run (w : World) (a : Args) (examples : List Example)
    (order : List Example → List (Example × Text)) (out : Outcome)
    (ids : (examples.map Example.id).Nodup) (langs : ∀ ex ∈ examples, ex.langs.Nodup)
    (done : ∀ selected, (order selected).Perm (jobs selected))
    (ran : run w a examples order = .ok out) :
    (∀ job ∈ jobs out.selected,
        Verdict w a out.state.trace job.1 job.2 (out.state.results (jobKey job))) ∧
      (out.code = 1 ↔ ∃ job ∈ jobs out.selected, (w.build job.1 job.2).buildMark ≠ none ∨
        ∃ ended ∈ verifies (jobKey job) out.state.trace,
          ended.verifyMark.map Result.status = some .fail) := by
  cases chosen : select examples a with
  | error text =>
    rw [run, chosen] at ran
    cases ran
  | ok selected =>
    rw [run, chosen] at ran
    obtain rfl := Except.ok.inj ran
    have narrowed : selected = examples.filterMap (narrow a) := by
      rw [select] at chosen
      split at chosen
      · cases chosen
      · exact (Except.ok.inj chosen).symm
    have distinct : ((jobs selected).map jobKey).Nodup := by
      subst narrowed
      refine nodup_jobs (ids.sublist (map_id_narrow a examples)) fun ex there => ?_
      obtain ⟨whole, member, same⟩ := List.mem_filterMap.mp there
      exact nodup_langs_narrow same (langs whole member)
    have ordered : ((order selected).map jobKey).Nodup :=
      ((done selected).map jobKey).nodup_iff.mpr distinct
    have verdicts : ∀ job ∈ jobs selected, Verdict w a
        (verifyPhase w a selected (buildPhase w (order selected))).trace job.1 job.2
        ((verifyPhase w a selected (buildPhase w (order selected))).results (jobKey job)) := by
      refine verdict_of_turns selected _ distinct (fun job there => ?_) fun job _ => ?_
      · exact results_builds _ _ ordered job ((done selected).mem_iff.mpr there)
      · rw [buildPhase, trace_builds]
        rfl
    have code (b : Bool) : (if b then 1 else 0) = 1 ↔ b := by cases b <;> decide
    refine ⟨verdicts, (code _).trans ?_⟩
    rw [List.any_eq_true]
    refine exists_congr fun job => and_congr_right fun there => ?_
    rw [decide_eq_true_iff]
    exact (verdicts job there).fail_iff

/-- Two examples, one of which does not build. -/
theorem verdict_of_run_two :
    let examples := [Example.mk ['a'] ['d'] [['c']] "local".toList [],
      Example.mk ['b'] ['d'] [['c']] "vm".toList []]
    let w : World := ⟨['l'], true, true, fun _ => true,
      fun ex _ => .exited (if ex.id = ['a'] then 2 else 0) [],
      fun _ _ _ => .exited 0 [], fun _ => true⟩
    ∃ out, run w ⟨[], [], .all, false⟩ examples jobs = .ok out ∧
      (∀ job ∈ jobs out.selected, Verdict w ⟨[], [], .all, false⟩ out.state.trace job.1 job.2
        (out.state.results (jobKey job))) := by
  intro examples w
  obtain ⟨out, ran⟩ : ∃ out, run w ⟨[], [], .all, false⟩ examples jobs = .ok out := ⟨_, rfl⟩
  exact ⟨out, ran, (verdict_of_run w _ examples jobs out (by decide) (by decide)
    (fun _ => List.Perm.refl _) ran).1⟩

/-! Fresh guests. -/

/-- The example that the guests have been used for since they were last reverted. -/
def uses (used : Option Example) : Event → Option Example
  | .verified ex _ _ => if ex.isVm then some ex else used
  | .reverted ok => if ok then none else used

/-- No example runs on guests that another has used. -/
def Fresh : Option Example → List Event → Prop
  | _, [] => True
  | used, event :: rest =>
    (∀ ex l ended, event = .verified ex l ended → ex.isVm → ∀ old ∈ used, old = ex) ∧
      Fresh (uses used event) rest

section Guests

variable {w : World} {a : Args} {ex : Example} {langs : List Text} {s t : State}
  {used : Option Example}

theorem fresh_append (first last : List Event) :
    Fresh used (first ++ last) ↔ Fresh used first ∧ Fresh (first.foldl uses used) last := by
  induction first generalizing used with
  | nil => exact (and_iff_right trivial).symm
  | cons event rest ih =>
    rw [List.cons_append, Fresh, Fresh, ih, and_assoc]
    rfl

/-- The guests are fresh for every example, and used only once one has run. -/
structure Guests (s : State) : Prop where
  fresh : Fresh none s.trace
  counted : (s.trace.foldl uses none).isSome → 0 < s.vmExamplesRun

theorem vmExamplesRun_mark (key : Key) (r : Option Result) (s : State) :
    (s.mark key r).vmExamplesRun = s.vmExamplesRun := by
  cases r <;> rfl

theorem fresh_verifyLangs (w : World) (ex : Example) (langs : List Text) (s : State)
    (fresh : Fresh none s.trace)
    (ready : ex.isVm → ∀ old ∈ s.trace.foldl uses none, old = ex) :
    Fresh none (s.verifyLangs w ex langs).trace ∧
      (ex.isVm = false →
        (s.verifyLangs w ex langs).trace.foldl uses none = s.trace.foldl uses none) ∧
      (s.verifyLangs w ex langs).vmExamplesRun = s.vmExamplesRun := by
  induction langs generalizing s with
  | nil => exact ⟨fresh, fun _ => rfl, rfl⟩
  | cons l rest ih =>
    have last : (s.verifyOne w ex l).trace.foldl uses none =
        if ex.isVm then some ex else s.trace.foldl uses none := by
      rw [State.verifyOne, List.foldl_append]
      rfl
    have next : Fresh none (s.verifyOne w ex l).trace := by
      refine (fresh_append _ _).mpr ⟨fresh, ?_, trivial⟩
      rintro same l' ended event vm old there
      obtain ⟨rfl, -, -⟩ := Event.verified.inj event
      exact ready vm old there
    obtain ⟨kept, other, count⟩ := ih (s.verifyOne w ex l) next fun vm old there => by
      rw [last, if_pos vm] at there
      exact (Option.some.inj there).symm
    refine ⟨kept, fun local' => (other local').trans ?_, count.trans (vmExamplesRun_mark _ _ s)⟩
    rw [last, local']
    rfl

theorem vmExamplesRun_markAll (reason : Text) (s : State) :
    (s.markAll ex reason langs).vmExamplesRun = s.vmExamplesRun := by
  induction langs generalizing s with
  | nil => rfl
  | cons l rest ih => exact (ih (s.mark _ _)).trans (vmExamplesRun_mark _ _ s)

theorem Guests.turn (guests : Guests s) (between : a.revertBetween) :
    Guests (s.verifyExample w a ex) := by
  rcases verifyExample_cases (w := w) (a := a) s with ⟨-, turn⟩ | ⟨reason, -, turn⟩ |
    ⟨-, vm, turn⟩ | ⟨-, vm, first, turn⟩ | ⟨-, vm, -, turn⟩ | ⟨-, -, -, turn⟩ <;> rw [turn]
  · exact guests
  · exact ⟨by rw [trace_markAll]; exact guests.fresh,
      by rw [trace_markAll, vmExamplesRun_markAll]; exact guests.counted⟩
  · obtain ⟨fresh, same, count⟩ := fresh_verifyLangs w ex (s.waiting ex) s guests.fresh
      (fun vm' => by rw [vm] at vm'; cases vm')
    refine ⟨fresh, fun some' => ?_⟩
    rw [same vm] at some'
    rw [count]
    exact guests.counted some'
  · have unused : s.trace.foldl uses none = none := by
      refine Option.not_isSome_iff_eq_none.mp fun used => ?_
      exact absurd (guests.counted used) (by rw [first between]; exact Nat.lt_irrefl 0)
    obtain ⟨fresh, -, count⟩ := fresh_verifyLangs w ex (s.waiting ex)
      { s with vmExamplesRun := s.vmExamplesRun + 1 } guests.fresh
      (fun _ old there => by rw [unused] at there; cases there)
    exact ⟨fresh, fun _ => count ▸ Nat.succ_pos _⟩
  · have unused : (s.trace ++ [Event.reverted true]).foldl uses none = none := by
      rw [List.foldl_append]
      rfl
    obtain ⟨fresh, -, count⟩ := fresh_verifyLangs w ex (s.waiting ex)
      { s with
        vmExamplesRun := s.vmExamplesRun + 1
        trace := s.trace ++ [Event.reverted true] }
      ((fresh_append _ _).mpr ⟨guests.fresh, fun _ _ _ same => (by cases same), trivial⟩)
      (fun _ old there => by rw [unused] at there; cases there)
    exact ⟨fresh, fun _ => count ▸ Nat.succ_pos _⟩
  · refine ⟨?_, ?_⟩
    · rw [trace_markAll]
      exact (fresh_append _ _).mpr ⟨guests.fresh, fun _ _ _ same => (by cases same), trivial⟩
    · rw [trace_markAll, vmExamplesRun_markAll]
      dsimp only
      rw [List.foldl_append]
      exact guests.counted

theorem guests_of_turns (selected : List Example) (between : a.revertBetween)
    (guests : Guests s) : Guests (verifyPhase w a selected s) := by
  induction selected generalizing s with
  | nil => exact guests
  | cons ex rest ih => exact ih (guests.turn between)

/-- What another example has used is not used again before it is reverted. -/
theorem reverted_of_fresh {ex' : Example} {l : Text} {ended : Ended} {after : List Event}
    (middle : List Event) (fresh : Fresh (some ex) (middle ++ .verified ex' l ended :: after))
    (vm : ex'.isVm) (other : ex ≠ ex') : Event.reverted true ∈ middle := by
  induction middle with
  | nil => exact absurd (fresh.1 ex' l ended rfl vm ex rfl) other
  | cons event rest ih =>
    cases event with
    | verified again l' ended' =>
      have same : uses (some ex) (.verified again l' ended') = some ex := by
        rw [uses]
        split_ifs with vm'
        · rw [fresh.1 again l' ended' rfl vm' ex rfl]
        · rfl
      exact List.mem_cons_of_mem _ (ih (same ▸ fresh.2))
    | reverted ok =>
      cases ok with
      | true => exact List.mem_cons_self
      | false => exact List.mem_cons_of_mem _ (ih fresh.2)

end Guests

/-- With `--revert-between`, the guests have been reverted between any two examples that ran there. -/
theorem reverted_between (w : World) (a : Args) (examples : List Example)
    (order : List Example → List (Example × Text)) (out : Outcome) (between : a.revertBetween)
    (ran : run w a examples order = .ok out) (before middle after : List Event)
    (first second : Example) (l m : Text) (ended later : Ended)
    (trace : out.state.trace =
      before ++ .verified first l ended :: (middle ++ .verified second m later :: after))
    (vm : first.isVm ∧ second.isVm) (other : first ≠ second) : Event.reverted true ∈ middle := by
  cases chosen : select examples a with
  | error text =>
    rw [run, chosen] at ran
    cases ran
  | ok selected =>
    rw [run, chosen] at ran
    obtain rfl := Except.ok.inj ran
    have start : Guests (buildPhase w (order selected)) := by
      refine ⟨?_, ?_⟩ <;> rw [buildPhase, trace_builds]
      · trivial
      · exact fun some' => (by cases some')
    have fresh := (guests_of_turns (w := w) selected between start).fresh
    dsimp only at trace
    rw [trace, fresh_append, Fresh] at fresh
    have used (d : Option Example) : uses d (.verified first l ended) = some first := if_pos vm.1
    rw [used] at fresh
    exact reverted_of_fresh middle fresh.2.2 vm.2 other

/-- Two examples for a guest. -/
theorem reverted_between_two :
    let first := Example.mk ['a'] ['d'] [['c']] "vm".toList []
    let second := Example.mk ['b'] ['d'] [['c']] "vm".toList []
    let w : World := ⟨['l'], true, true, fun _ => true, fun _ _ => .exited 0 [],
      fun _ _ _ => .exited 0 [], fun _ => true⟩
    ∃ out, run w ⟨[], [], .all, true⟩ [first, second] jobs = .ok out ∧
      out.state.trace = [] ++ .verified first ['c'] (.exited 0 []) ::
        ([.reverted true] ++ .verified second ['c'] (.exited 0 []) :: []) ∧
      Event.reverted true ∈ [Event.reverted true] := by
  intro first second w
  obtain ⟨out, ran, trace⟩ : ∃ out, run w ⟨[], [], .all, true⟩ [first, second] jobs = .ok out ∧
      out.state.trace = [] ++ .verified first ['c'] (.exited 0 []) ::
        ([.reverted true] ++ .verified second ['c'] (.exited 0 []) :: []) := ⟨_, rfl, rfl⟩
  exact ⟨out, ran, trace, reverted_between w ⟨[], [], .all, true⟩ [first, second] jobs out rfl ran []
    [.reverted true] [] first second ['c'] ['c'] _ _ trace (by decide) (by decide)⟩

end LinuxSys.Manifest.Harness
