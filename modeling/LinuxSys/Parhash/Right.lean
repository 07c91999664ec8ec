import LinuxSys.Parhash.Ends

/-! # What parhash prints

All three programs come to an end under every schedule, and print what their walk finds. It finds
every file that can be read unless the C++ iterator stops at a directory that cannot be opened, a
name is no text in Rust, or the root is a link in Go.
-/

namespace LinuxSys.Parhash

open Lib

namespace Root

def readable (r : Root) (rel : Bytes) : Bool := (r.content rel).isSome

/-- The regular files below the root. -/
def files (r : Root) : List Bytes := filesOf r.visits

/-- The report of a run that is not interrupted. -/
def expected (r : Root) : Report :=
  let lines := r.files.filterMap r.lineOf
  ⟨sortLines lines, some lines.length, 0⟩

/-- The lines of what a walk finds. -/
def found (r : Root) (lang : Language) : List Line := (filesOf (r.walk lang)).filterMap r.lineOf

end Root

/-- What is left of the walk behind the first directory that cannot be opened. -/
def behindDenied : List Visit → List Visit
  | [] => []
  | .denied :: rest => rest
  | _ :: rest => behindDenied rest

/-- No file that can be read is behind a directory that C++ cannot open; in Rust, a file whose path
is no text cannot be read, nor what the text that is made of it names; in Go, the root is no link,
unless no file below it can be read. -/
def Root.Fit (r : Root) : Language → Prop
  | .cpp => ∀ rel ∈ filesOf (behindDenied r.visits), r.content rel = none
  | .rust => ∀ rel ∈ r.files, Utf8.lossy rel ≠ rel →
      r.content rel = none ∧ r.content (Utf8.lossy rel) = none
  | .go => r.link = true → ∀ rel ∈ r.files, r.content rel = none

/-- What holds in every state of a run. -/
structure State.Right (lang : Language) (workers : ℕ) (root : Root) (acts : List Action)
    (s : State) : Prop where
  bounded : acts.length ≤
    9 * (root.walk lang).length + 5 * workers + 8 + (acts.map Action.cost).sum
  live : s.report = none → s.Live lang workers root
  whole : ∀ r, s.report = some r → s.interrupted = false → r = root.expected
  cut : ∀ r, s.report = some r → s.interrupted = true →
    r.files = none ∧ r.status = 130 ∧
      r.lines.Pairwise (fun one other => one.rel ≤ other.rel) ∧
      r.lines.Subperm root.expected.lines

/-- Programs that are not interrupted print the same. -/
def Agree (workers : ℕ) (root : Root) : Prop :=
  ∀ one other acts acts' s t r r', (pool one workers root).run? acts = some s →
    (pool other workers root).run? acts' = some t → s.interrupted = false →
    t.interrupted = false → s.report = some r → t.report = some r' → r = r'

/-! The walks. -/

theorem untilDenied_append (visits : List Visit) :
    untilDenied visits ++ behindDenied visits = visits := by
  induction visits with
  | nil => rfl
  | cons v rest ih =>
    cases v with
    | denied => rfl
    | _ => exact congrArg _ ih

theorem filesOf_append (first last : List Visit) :
    filesOf (first ++ last) = filesOf first ++ filesOf last := List.filterMap_append ..

theorem filesOf_under (name : Bytes) (visits : List Visit) :
    filesOf (visits.map (Visit.under name)) =
      (filesOf visits).map fun rel => name ++ slash :: rel := by
  rw [filesOf, filesOf, List.filterMap_map, List.map_filterMap]
  congr 1
  funext v
  cases v <;> rfl

theorem filesOf_lossy (visits : List Visit) :
    filesOf (visits.map Visit.lossy) = (filesOf visits).map Utf8.lossy := by
  rw [filesOf, filesOf, List.filterMap_map, List.map_filterMap]
  congr 1
  funext v
  cases v <;> rfl

theorem Tree.inOrder_perm (blocks : List (Bytes × List Visit)) :
    (inOrder blocks).Perm (blocks.flatMap Prod.snd) :=
  (List.mergeSort_perm _ _).flatMap_right _

/-- `WalkDir` finds the files in another order. -/
theorem Tree.filesOf_inOrder (t : Tree) : (filesOf (inOrder t.blocks)).Perm (filesOf t.visits) := by
  have flat : ∀ blocks, (filesOf (inOrder blocks)).Perm (filesOf (blocks.flatMap Prod.snd)) :=
    fun blocks => (inOrder_perm blocks).filterMap _
  refine (flat _).trans ?_
  induction t with
  | nil => exact .refl _
  | file name rest ih => exact ih.cons name
  | other name rest ih => exact ih
  | denied name rest ih => exact ih
  | dir name inside rest inner ih =>
    change (filesOf (((inOrder inside.blocks).map (Visit.under name)) ++ _)).Perm
      (filesOf (inside.visits.map (Visit.under name) ++ rest.visits))
    rw [filesOf_append, filesOf_append, filesOf_under, filesOf_under]
    exact (((flat _).trans inner).map _).append ih

section FilterMap

variable {α β : Type*} {f g : α → Option β} {l : List α}

theorem length_filterMap_le (within : ∀ a ∈ l, (f a).isSome → (g a).isSome) :
    (l.filterMap f).length ≤ (l.filterMap g).length := by
  rw [List.length_filterMap_eq_countP, List.length_filterMap_eq_countP]
  exact List.countP_mono_left within

/-- Where a function gives no more than one that gives less, it gives nothing else. -/
theorem isSome_of_length (within : ∀ a ∈ l, (f a).isSome → (g a).isSome)
    (few : (l.filterMap g).length ≤ (l.filterMap f).length) :
    ∀ a ∈ l, (g a).isSome → (f a).isSome := by
  induction l with
  | nil => exact nofun
  | cons a rest ih =>
    have later : ∀ b ∈ rest, (f b).isSome → (g b).isSome :=
      fun b member => within b (List.mem_cons_of_mem a member)
    have least := length_filterMap_le later
    have here := within a (List.mem_cons_self ..)
    cases first : f a with
    | some b =>
      obtain ⟨c, second⟩ := Option.isSome_iff_exists.mp (here (by rw [first]; rfl))
      rw [List.filterMap_cons_some first, List.filterMap_cons_some second] at few
      refine List.forall_mem_cons.mpr ⟨fun _ => by rw [first]; rfl, ih later ?_⟩
      exact Nat.le_of_succ_le_succ few
    | none =>
      cases second : g a with
      | none =>
        rw [List.filterMap_cons_none first, List.filterMap_cons_none second] at few
        refine List.forall_mem_cons.mpr ⟨fun some' => ?_, ih later few⟩
        rw [second] at some'
        cases some'
      | some c =>
        rw [List.filterMap_cons_none first, List.filterMap_cons_some second,
          List.length_cons] at few
        omega

end FilterMap

namespace Root

variable {r : Root}

theorem lineOf_eq_none_iff {rel : Bytes} : r.lineOf rel = none ↔ r.content rel = none :=
  Option.map_eq_none_iff

theorem lineOf_rel {rel : Bytes} {line : Line} (found : r.lineOf rel = some line) :
    line.rel = rel := by
  obtain ⟨content, -, rfl⟩ := Option.map_eq_some_iff.mp found
  rfl

theorem filterMap_lineOf_eq_nil_iff {files : List Bytes} :
    files.filterMap r.lineOf = [] ↔ ∀ rel ∈ files, r.content rel = none := by
  simp only [List.filterMap_eq_nil_iff, lineOf_eq_none_iff]

theorem found_cpp_iff : (r.found .cpp).Perm (r.files.filterMap r.lineOf) ↔ r.Fit .cpp := by
  have split : r.files.filterMap r.lineOf =
      r.found .cpp ++ (filesOf (behindDenied r.visits)).filterMap r.lineOf := by
    rw [files, ← untilDenied_append r.visits, filesOf_append, List.filterMap_append,
      untilDenied_append]
    rfl
  rw [Fit, ← filterMap_lineOf_eq_nil_iff, split]
  constructor
  · intro same
    have length := same.length_eq
    rw [List.length_append] at length
    exact List.length_eq_zero_iff.mp (by omega)
  · intro none
    rw [none, List.append_nil]

theorem found_rust : r.found .rust = r.files.filterMap fun rel => r.lineOf (Utf8.lossy rel) := by
  rw [found, walk, filesOf_lossy, List.filterMap_map]
  rfl

theorem found_rust_iff : (r.found .rust).Perm (r.files.filterMap r.lineOf) ↔ r.Fit .rust := by
  rw [found_rust]
  constructor
  · intro same
    -- The Rust program prints texts only.
    have none : ∀ rel ∈ r.files, Utf8.lossy rel ≠ rel → r.content rel = none := by
      intro rel member change'
      by_contra readable
      obtain ⟨line, here⟩ := Option.ne_none_iff_exists'.mp (mt lineOf_eq_none_iff.mp readable)
      obtain ⟨other, -, there⟩ := List.mem_filterMap.mp
        (same.mem_iff.mpr (List.mem_filterMap.mpr ⟨rel, member, here⟩))
      have text := lineOf_rel there
      rw [lineOf_rel here] at text
      rw [text, Utf8.lossy_lossy] at change'
      exact change' rfl
    have within : ∀ rel ∈ r.files, (r.lineOf rel).isSome →
        (r.lineOf (Utf8.lossy rel)).isSome := by
      intro rel member some'
      by_cases text : Utf8.lossy rel = rel
      · rw [text]
        exact some'
      · rw [lineOf_eq_none_iff.mpr (none rel member text)] at some'
        cases some'
    have only := isSome_of_length within same.length_eq.le
    refine fun rel member change' => ⟨none rel member change', ?_⟩
    by_contra readable
    have more := only rel member (Option.isSome_iff_ne_none.mpr (mt lineOf_eq_none_iff.mp readable))
    rw [lineOf_eq_none_iff.mpr (none rel member change')] at more
    cases more
  · intro fit
    refine .of_eq (List.filterMap_congr fun rel member => ?_)
    by_cases text : Utf8.lossy rel = rel
    · rw [text]
    · obtain ⟨own, other⟩ := fit rel member text
      rw [lineOf_eq_none_iff.mpr own, lineOf_eq_none_iff.mpr other]

theorem found_go_iff : (r.found .go).Perm (r.files.filterMap r.lineOf) ↔ r.Fit .go := by
  rw [Fit]
  cases link : r.link with
  | true =>
    have nothing : r.found .go = [] := by
      rw [found, walk, if_pos link]
      rfl
    rw [nothing, List.nil_perm, filterMap_lineOf_eq_nil_iff]
    exact ⟨fun none _ => none, fun none => none rfl⟩
  | false =>
    refine iff_of_true (List.Perm.filterMap _ ?_) (by rintro ⟨⟩)
    rw [walk, if_neg (by rw [link]; exact Bool.false_ne_true), files, visits]
    cases r.entries with
    | none => exact .refl _
    | some t => exact t.filesOf_inOrder

/-- The walk finds every file that can be read, and nothing else, exactly where it fits. -/
theorem found_iff (lang : Language) :
    (r.found lang).Perm (r.files.filterMap r.lineOf) ↔ r.Fit lang := by
  cases lang with
  | cpp => exact found_cpp_iff
  | rust => exact found_rust_iff
  | go => exact found_go_iff

end Root

/-! The report. -/

theorem sortLines_perm (lines : List Line) : (sortLines lines).Perm lines :=
  List.mergeSort_perm _ _

theorem sortLines_sorted (lines : List Line) :
    (sortLines lines).Pairwise fun one other => one.rel ≤ other.rel := by
  refine (List.pairwise_mergeSort ?_ ?_ lines).imp fun ordered => of_decide_eq_true ordered
  · intro one two three first second
    exact decide_eq_true (Std.le_trans (of_decide_eq_true first) (of_decide_eq_true second))
  · intro one two
    rw [Bool.or_eq_true, decide_eq_true_eq, decide_eq_true_eq]
    exact Std.le_total

/-- A line is known by its path, so that the order leaves no choice. -/
theorem sortLines_eq {root : Root} {first second : List Line} (same : first.Perm second)
    (lines : ∀ line ∈ first, root.lineOf line.rel = some line) :
    sortLines first = sortLines second := by
  refine List.Perm.eq_of_pairwise (fun one other member member' le ge => ?_)
    (sortLines_sorted first) (sortLines_sorted second)
    ((sortLines_perm first).trans (same.trans (sortLines_perm second).symm))
  have here := lines one ((sortLines_perm first).mem_iff.mp member)
  have there := lines other (same.mem_iff.mpr ((sortLines_perm second).mem_iff.mp member'))
  rw [Std.le_antisymm le ge] at here
  exact Option.some.inj (here.symm.trans there)

theorem filterMap_rel {root : Root} {lines : List Line}
    (right : ∀ line ∈ lines, root.lineOf line.rel = some line) :
    (lines.map Line.rel).filterMap root.lineOf = lines := by
  rw [List.filterMap_map]
  exact (List.filterMap_congr fun line member => right line member).trans List.filterMap_some

theorem filterMap_readable (root : Root) (files : List Bytes) :
    (files.filter root.readable).filterMap root.lineOf =
      files.filterMap root.lineOf := by
  rw [List.filterMap_filter]
  refine List.filterMap_congr fun rel _ => ?_
  rw [Root.readable, Root.lineOf]
  cases root.content rel <;> rfl

namespace State

variable {lang : Language} {workers : ℕ} {root : Root} {s : State}

/-- When all workers have returned, no more results than the walk finds are there. -/
theorem Data.results_subperm (data : s.Data lang workers root) :
    s.results.Subperm (root.found lang) := by
  have subperm : (s.results.map Line.rel).Subperm
      ((filesOf (root.walk lang)).filter root.readable) := by
    refine List.subperm_ext_iff.mpr fun rel member => ?_
    obtain ⟨line, inside, rfl⟩ := List.mem_map.mp member
    have here := data.lines line inside
    have readable : root.content line.rel ≠ none := by
      intro none
      rw [Root.lineOf_eq_none_iff.mpr none] at here
      cases here
    have most := (data.counted line.rel readable).1
    have here : root.readable line.rel = true := Option.isSome_iff_ne_none.mpr readable
    rw [List.count_filter here]
    rw [total] at most
    omega
  obtain ⟨those, perm, sublist⟩ := subperm
  have same := perm.filterMap root.lineOf
  rw [filterMap_rel data.lines] at same
  refine ⟨those.filterMap root.lineOf, same, ?_⟩
  rw [Root.found, ← filterMap_readable root (filesOf (root.walk lang))]
  exact sublist.filterMap _

/-- When they have in a run that is not interrupted, all that the walk finds is there. -/
theorem Data.results_perm (data : s.Data lang workers root) (sync : s.Sync lang workers)
    (some' : 0 < workers) (all : ∀ w < workers, s.worker w = .finished)
    (clear : s.interrupted = false) : s.results.Perm (root.found lang) := by
  obtain ⟨shut, empty⟩ :=
    (sync.finished 0 some' (all 0 some')).resolve_left (by rw [clear]; nofun)
  have over' : s.walker.past = true ∧ ∀ rel, s.walker.held rel = 0 := by
    cases here : s.walker <;> simp_all [State.shut, Walker.past, Walker.held]
  have idle : ∀ rel, ∑ w ∈ Finset.range workers, (s.worker w).held rel = 0 := by
    intro rel
    refine Finset.sum_eq_zero fun w member => ?_
    rw [all w (Finset.mem_range.mp member)]
    rfl
  refine data.results_subperm.perm_of_length_le ?_
  have subperm : ((filesOf (root.walk lang)).filter root.readable).Subperm
      (s.results.map Line.rel) := by
    refine List.subperm_ext_iff.mpr fun rel member => ?_
    have readable : root.readable rel = true := (List.mem_filter.mp member).2
    have same := (data.counted rel (Option.isSome_iff_ne_none.mp readable)).2 clear
    rw [total, idle, empty, over'.2, sync.past over'.1] at same
    rw [List.count_filter readable, ← same]
    exact le_rfl
  have length := subperm.length_le
  rw [List.length_map] at length
  rw [Root.found, ← filterMap_readable root (filesOf (root.walk lang))]
  exact (List.length_filterMap_le _ _).trans length

theorem Sync.init (lang : Language) (workers : ℕ) (root : Root) :
    (pool lang workers root).init.Sync lang workers :=
  ⟨nofun, nofun, nofun, fun _ => iff_of_false nofun nofun, nofun, fun _ => rfl, nofun, nofun,
    nofun⟩

theorem Data.init (lang : Language) (workers : ℕ) (root : Root) :
    (pool lang workers root).init.Data lang workers root := by
  have total : ∀ rel, (pool lang workers root).init.total workers rel =
      (filesOf (root.walk lang)).count rel := by
    intro rel
    have idle : ∑ w ∈ Finset.range workers, (Worker.looking).held rel = 0 :=
      Finset.sum_eq_zero fun _ _ => rfl
    change 0 + ∑ w ∈ Finset.range workers, (Worker.looking).held rel + 0 + 0 + _ = _
    rw [idle, Nat.zero_add]
    rfl
  exact ⟨fun rel _ => ⟨(total rel).le, fun _ => total rel⟩, nofun, nofun⟩

theorem inv_of_run {acts : List Action} (run : (pool lang workers root).run? acts = some s) :
    s.Sync lang workers ∧ s.Data lang workers root :=
  @Machine.run?_keeps _ _ _ (fun s => s.Sync lang workers ∧ s.Data lang workers root)
    ⟨Sync.init lang workers root, Data.init lang workers root⟩
    (fun _ _ _ inv taken => ⟨inv.1.keeps taken, inv.2.keeps taken⟩) _ _ run

/-- Every run is as long as the work that it has done, the spurious wake-ups apart. -/
theorem work_of_run {t : State} {acts : List Action}
    (run : (pool lang workers root).runFrom? s acts = some t) :
    acts.length + t.work workers ≤ s.work workers + (acts.map Action.cost).sum := by
  induction acts generalizing s with
  | nil =>
    cases run
    simp
  | cons a rest ih =>
    obtain ⟨next, taken, tail⟩ := Machine.runFrom?_cons_eq_some _ |>.mp run
    have first := work_step taken
    have later := ih tail
    rw [List.length_cons, List.map_cons, List.sum_cons]
    omega

theorem work_init (lang : Language) (workers : ℕ) (root : Root) :
    (pool lang workers root).init.work workers =
      9 * (root.walk lang).length + 5 * workers + 8 := by
  have idle : ∑ w ∈ Finset.range workers, (Worker.looking).work = 3 * workers := by
    rw [Finset.sum_const_nat fun _ _ => rfl, Finset.card_range, Nat.mul_comm]
    rfl
  change 9 * _ + (workers + 3) + 0 + ∑ w ∈ Finset.range workers, (Worker.looking).work +
    (workers + 3) + 0 + 1 + 1 = _
  rw [idle]
  have todo : (pool lang workers root).init.todo = root.walk lang := rfl
  rw [todo]
  omega

/-- What the program does of itself does not interrupt it. -/
theorem interrupted_of_own {t : State} {a : Action} (own : a.own = true)
    (taken : s.step lang workers root a = some t) : t.interrupted = s.interrupted := by
  obtain ⟨-, effect⟩ := effect_of_step taken
  cases effect with
  | sigint => cases own
  | _ => rfl

theorem cost_of_own {a : Action} (own : a.own = true) : a.cost = 0 := by
  cases a <;> first | rfl | cases own

/-- A report has the results in order. -/
theorem lines_of_report (sync : s.Sync lang workers) {r : Report} (reported : s.report = some r) :
    r.lines = sortLines s.results := by
  obtain ⟨-, rfl⟩ := sync.report r reported
  rw [finalCheck]
  split <;> rfl

theorem right_of_inv {acts : List Action} (some' : 0 < workers) (fit : root.Fit lang)
    (run : (pool lang workers root).run? acts = some s) : s.Right lang workers root acts := by
  obtain ⟨sync, data⟩ := inv_of_run run
  have same := (Root.found_iff lang).mpr fit
  refine ⟨?_, live_of_sync sync some', fun r reported clear => ?_, fun r reported flag => ?_⟩
  · have done' := work_of_run run
    rw [work_init] at done'
    omega
  · have all := sync.collected (sync.report r reported).1
    have perm := (data.results_perm sync some' all clear).trans same
    obtain ⟨-, rfl⟩ := sync.report r reported
    rw [finalCheck, if_neg (by rw [clear]; nofun), Root.expected, sortLines_eq perm data.lines,
      perm.length_eq]
  · obtain ⟨-, rfl⟩ := sync.report r reported
    rw [finalCheck, if_pos flag]
    refine ⟨rfl, rfl, sortLines_sorted _, ?_⟩
    have within := data.results_subperm.trans same.subperm
    exact ((sortLines_perm _).subperm.trans within).trans (sortLines_perm _).symm.subperm

/-- Left to itself, the program reports what its walk finds. -/
theorem exists_report (lang : Language) (root : Root) (some' : 0 < workers) :
    ∃ acts s r, (pool lang workers root).run? acts = some s ∧ s.interrupted = false ∧
      s.report = some r ∧ r.lines.Perm (root.found lang) := by
  have progress : ∀ s : State, (s.Sync lang workers ∧ s.Data lang workers root ∧
      s.interrupted = false) → ¬ s.report ≠ none → ∃ a t, a.own = true ∧
        (pool lang workers root).step s a = some t ∧
        (t.Sync lang workers ∧ t.Data lang workers root ∧ t.interrupted = false) ∧
        t.work workers < s.work workers := by
    rintro s ⟨sync, data, clear⟩ running
    obtain ⟨a, own, some''⟩ := @live_of_sync lang workers root s sync some' (not_not.mp running)
    obtain ⟨t, taken⟩ := Option.isSome_iff_exists.mp some''
    have less := work_step taken
    rw [cost_of_own own] at less
    exact ⟨a, t, own, taken, ⟨sync.keeps taken, data.keeps taken,
      (interrupted_of_own own taken).trans clear⟩, less⟩
  obtain ⟨acts, s, -, run, ⟨sync, data, clear⟩, reported⟩ :=
    Machine.exists_run_within (work workers) progress
      ⟨Sync.init lang workers root, Data.init lang workers root, rfl⟩
  obtain ⟨r, reported⟩ := Option.ne_none_iff_exists'.mp reported
  refine ⟨acts, s, r, run, clear, reported, ?_⟩
  rw [lines_of_report sync reported]
  have all := sync.collected (sync.report r reported).1
  exact (sortLines_perm _).trans (data.results_perm sync some' all clear)

end State

/-- A directory with a file, and a file behind it. -/
def plain : Root where
  entries := some (.dir [100] (.file [97] .nil) (.file [98] .nil))
  content := fun _ => some [0]

/-- A file that a program does not find: behind a directory that cannot be opened, with a name that
is no text, below a link. -/
def missed : Language → Root
  | .cpp => { entries := some (.denied [100] (.file [97] .nil)), content := fun _ => some [0] }
  | .rust =>
    { entries := some (.file [0xFF] .nil)
      content := fun rel => if rel = [0xFF] then some [0] else none }
  | .go => { link := true, entries := some (.file [97] .nil), content := fun _ => some [0] }

end LinuxSys.Parhash
