import LinuxSys.Loadmix.Tables

/-! # Tables with their columns in another order

What it is to move the value columns of a table, in its header and in its rows alike, for each of
the tools. A name that is read stands once in its header. Of lines that are not of the table nothing
is asked but that they are not. Reading by name gives the same result.
-/

namespace LinuxSys.Loadmix

open Lib

section Row

variable {F : Type} (d : Doubles F) {σ : Equiv.Perm ℕ} {name : Bytes} {default : F}

theorem getOr_moved {left right : Row} (once : Once name left.names)
    (names : Moved σ left.names right.names) (values : Moved σ left.values right.values) :
    right.getOr d name default = left.getOr d name default := by
  rw [Row.getOr, Row.getOr, Row.get, Row.get, cell_moved once names values]

end Row

/-! `vmstat`: no label columns. -/

def vmstatNames : List Bytes := [ascii "r", ascii "si", ascii "so"]

/-- A row, or a line between the rows that is too short for one. -/
inductive VmstatBody (σ : Equiv.Perm ℕ) (columns : ℕ) : Line → Line → Prop where
  | row {left right} : Moved σ left right → VmstatBody σ columns left right
  | note {left right} : left.length + 2 < columns → right.length + 2 < columns →
      VmstatBody σ columns left right

inductive VmstatReordered : List Line → List Line → Prop where
  | nil : VmstatReordered [] []
  | note {left right front back} : swpd ∉ front → swpd ∉ back → VmstatReordered left right →
      VmstatReordered (front :: left) (back :: right)
  | table {left right front back} (σ : Equiv.Perm ℕ) : swpd ∈ front →
      (∀ name ∈ vmstatNames, Once name front) → Moved σ front back →
      List.Forall₂ (VmstatBody σ front.length) left right →
      VmstatReordered (front :: left) (back :: right)

/-! `mpstat` and `sar`: two label columns in the header and in a row. -/

/-- A line of the summary, or two lines that are not. -/
inductive AveragesLine (σ : Equiv.Perm ℕ) (title : Bytes) (read : List Bytes) :
    Line → Line → Prop where
  | header {left right} : (∀ name ∈ read, Once name left) → Moved σ left right →
      AveragesLine σ title read (average :: title :: left) (average :: title :: right)
  | row {label left right} : label ≠ title → Moved σ left right →
      AveragesLine σ title read (average :: label :: left) (average :: label :: right)
  | note {left right} : (∀ label rest, left ≠ average :: label :: rest) →
      (∀ label rest, right ≠ average :: label :: rest) → AveragesLine σ title read left right

def AveragesReordered (title : Bytes) (read : List Bytes) (left right : List Line) : Prop :=
  ∃ σ, List.Forall₂ (AveragesLine σ title read) left right

def MpstatReordered : List Line → List Line → Prop :=
  AveragesReordered (ascii "CPU") [ascii "%idle", ascii "%iowait"]

def SarReordered : List Line → List Line → Prop :=
  AveragesReordered (ascii "IFACE") [ascii "rxpck/s", ascii "txpck/s"]

/-! `free`: a label column in a row. -/

inductive FreeLine (σ : Equiv.Perm ℕ) : Line → Line → Prop where
  | header {left right} : available ∈ left → (∀ name ∈ [ascii "total", available], Once name left) →
      Moved σ left right → FreeLine σ left right
  | row {left right} : available ∉ left → Moved σ left right →
      FreeLine σ (mem :: left) (mem :: right)
  | note {left right} : available ∉ left → left.head? ≠ some mem → available ∉ right →
      right.head? ≠ some mem → FreeLine σ left right

def FreeReordered (left right : List Line) : Prop := ∃ σ, List.Forall₂ (FreeLine σ) left right

/-! Nothing changes. -/

section Vmstat

variable {F : Type} [LinearOrder F] (d : Doubles F) {σ : Equiv.Perm ℕ} {header moved : Line}

/-- Two scans behind the header of a table. -/
structure VmstatAlike (σ : Equiv.Perm ℕ) (header moved : Line) (s t : VmstatScan) : Prop where
  header : s.header = header
  moved : t.header = moved
  rows : List.Forall₂ (Moved σ) s.dataRows t.dataRows

theorem vmstat_step {left right : Line} {s t : VmstatScan} (some : header ≠ [])
    (columns : Moved σ header moved) (line : VmstatBody σ header.length left right)
    (alike : VmstatAlike σ header moved s t) :
    VmstatAlike σ header moved (s.step left) (t.step right) := by
  have none_left : s.header ≠ [] := alike.header ▸ some
  have none_right : t.header ≠ [] := by
    rw [alike.moved]
    exact columns.eq_nil_iff.not.mpr some
  have width : t.header.length = s.header.length := by
    rw [alike.header, alike.moved, columns.length_eq]
  simp only [VmstatScan.step, if_neg none_left, if_neg none_right]
  cases line with
  | row same =>
    simp only [same.eq_nil_iff, same.length_eq, width]
    split_ifs
    · exact alike
    · exact ⟨alike.header, alike.moved, List.rel_append alike.rows (.cons same .nil)⟩
    · exact alike
  | note short_left short_right =>
    rw [← alike.header] at short_left short_right
    rw [if_neg (not_le.mpr short_left), width, if_neg (not_le.mpr short_right), ite_self, ite_self]
    exact alike

theorem vmstat_follow {left right : Line} (columns : Moved σ header moved)
    (once : ∀ name ∈ vmstatNames, Once name header) (row : Moved σ left right)
    (res : VmstatResult F) : res.follow d moved right = res.follow d header left := by
  have value : ∀ name ∈ vmstatNames, ∀ default, (makeRow moved 0 right 0).getOr d name default =
      (makeRow header 0 left 0).getOr d name default :=
    fun name inside default => getOr_moved d (once name inside) columns row
  simp only [VmstatResult.follow, value (ascii "r") (by decide), value (ascii "si") (by decide),
    value (ascii "so") (by decide)]

theorem VmstatAlike.result_eq {s t : VmstatScan} (columns : Moved σ header moved)
    (once : ∀ name ∈ vmstatNames, Once name header) (alike : VmstatAlike σ header moved s t) :
    t.result d = s.result d := by
  have rows := List.forall₂_drop 1 alike.rows
  rw [VmstatScan.result, VmstatScan.result, alike.header, alike.moved]
  generalize s.dataRows.drop 1 = front, t.dataRows.drop 1 = back at rows ⊢
  generalize (⟨d.zero, d.zero⟩ : VmstatResult F) = res
  induction rows generalizing res with
  | nil => rfl
  | cons first _ ih =>
    rw [List.foldl_cons, List.foldl_cons, vmstat_follow d columns once first, ih]

theorem vmstat_note {line : Line} (fresh : swpd ∉ line) : VmstatScan.step {} line = {} := by
  simp [VmstatScan.step, fresh]

theorem vmstat_header {line : Line} (inside : swpd ∈ line) :
    VmstatScan.step {} line = { header := line } := by
  simp [VmstatScan.step, inside, List.ne_nil_of_mem inside]

theorem vmstat_same {left right : List Line} (reordered : VmstatReordered left right) :
    (right.foldl VmstatScan.step {}).result d = (left.foldl VmstatScan.step {}).result d := by
  induction reordered with
  | nil => rfl
  | note fresh_left fresh_right _ ih =>
    rw [List.foldl_cons, List.foldl_cons, vmstat_note fresh_left, vmstat_note fresh_right, ih]
  | table σ inside once columns body =>
    rw [List.foldl_cons, List.foldl_cons, vmstat_header inside,
      vmstat_header (columns.mem_of_mem inside)]
    refine VmstatAlike.result_eq d columns once (List.rel_foldl ?_ ⟨rfl, rfl, .nil⟩ body)
    intro s t alike front back line
    exact vmstat_step (List.ne_nil_of_mem inside) columns line alike

end Vmstat

/-! The summary of `mpstat` and `sar`, and `free`. -/

/-- Two scans that have the same of a header and a row, moved alike behind the labels. -/
structure FoundAlike (σ : Equiv.Perm ℕ) (read : List Bytes) (headerSkip dataSkip : ℕ)
    (s t : Found) : Prop where
  header : t.header = [] ↔ s.header = []
  data : t.data = [] ↔ s.data = []
  once : ∀ name ∈ read, Once name (s.header.drop headerSkip)
  names : Moved σ (s.header.drop headerSkip) (t.header.drop headerSkip)
  values : Moved σ (s.data.drop dataSkip) (t.data.drop dataSkip)

section Found

variable {F : Type} (d : Doubles F) {σ : Equiv.Perm ℕ} {title : Bytes} {read : List Bytes}
  {headerSkip dataSkip : ℕ} {s t : Found}

theorem foundAlike_nil (σ : Equiv.Perm ℕ) (read : List Bytes) (headerSkip dataSkip : ℕ) :
    FoundAlike σ read headerSkip dataSkip {} {} := by
  have empty : ∀ n, Moved σ (([] : Line).drop n) (([] : Line).drop n) := by
    intro n i
    rw [List.drop_nil]
    rfl
  refine ⟨Iff.rfl, Iff.rfl, fun name _ i j at_i => ?_, empty _, empty _⟩
  rw [List.drop_nil] at at_i
  cases at_i

theorem FoundAlike.getOr (alike : FoundAlike σ read headerSkip dataSkip s t) (name : Bytes)
    (inside : name ∈ read) (default : F) :
    (makeRow t.header headerSkip t.data dataSkip).getOr d name default =
      (makeRow s.header headerSkip s.data dataSkip).getOr d name default :=
  getOr_moved d (alike.once name inside) alike.names alike.values

theorem averages_step {label : Bytes} {left right : Line}
    (line : AveragesLine σ title read left right) (alike : FoundAlike σ read 2 2 s t) :
    FoundAlike σ read 2 2 (s.averages title label left) (t.averages title label right) := by
  cases line with
  | header once moved =>
    simp only [Found.averages, and_self, if_true]
    exact ⟨by simp, alike.data, once, moved, alike.values⟩
  | row other moved =>
    simp only [Found.averages, true_and, if_neg other]
    split
    · exact ⟨alike.header, by simp, alike.once, alike.names, moved⟩
    · exact alike
  | note front back =>
    have stays : ∀ (u : Found) (line : Line), (∀ label rest, line ≠ average :: label :: rest) →
        u.averages title label line = u := by
      intro u line outside
      match line with
      | [] => rfl
      | [_] => rfl
      | first :: second :: rest =>
        have other : first ≠ average := by
          rintro rfl
          exact outside second rest rfl
        simp only [Found.averages, other, false_and, if_false]
    rw [stays s left front, stays t right back]
    exact alike

theorem averages_alike (label : Bytes) {left right : List Line}
    (reordered : AveragesReordered title read left right) : ∃ σ,
    FoundAlike σ read 2 2 (left.foldl (Found.averages title label) {})
      (right.foldl (Found.averages title label) {}) := by
  obtain ⟨σ, lines⟩ := reordered
  refine ⟨σ, List.rel_foldl ?_ (foundAlike_nil σ read 2 2) lines⟩
  intro s t alike front back line
  exact averages_step line alike

theorem free_step {left right : Line} (line : FreeLine σ left right)
    (alike : FoundAlike σ [ascii "total", available] 0 1 s t) :
    FoundAlike σ [ascii "total", available] 0 1 (s.free left) (t.free right) := by
  have apart : available ≠ mem := by decide
  cases line with
  | header inside once moved =>
    rw [Found.free, Found.free, if_pos inside, if_pos (moved.mem_of_mem inside)]
    have some := List.ne_nil_of_mem inside
    exact ⟨iff_of_false (moved.eq_nil_iff.not.mpr some) some, alike.data, once, moved, alike.values⟩
  | row fresh moved =>
    rename_i left right
    have outside : ∀ {line : Line}, available ∉ line → available ∉ mem :: line := by
      intro line absent member
      exact (List.mem_cons.mp member).elim apart absent
    rw [Found.free, Found.free, if_neg (outside fresh), List.head?_cons, if_pos rfl,
      if_neg (outside (moved.mem_iff.not.mpr fresh)), List.head?_cons, if_pos rfl]
    exact ⟨alike.header, by simp, alike.once, alike.names, moved⟩
  | note fresh_left other_left fresh_right other_right =>
    rw [Found.free, Found.free, if_neg fresh_left, if_neg other_left, if_neg fresh_right,
      if_neg other_right]
    exact alike

theorem free_alike {left right : List Line} (reordered : FreeReordered left right) : ∃ σ,
    FoundAlike σ [ascii "total", available] 0 1 (left.foldl Found.free {})
      (right.foldl Found.free {}) := by
  obtain ⟨σ, lines⟩ := reordered
  refine ⟨σ, List.rel_foldl ?_ (foundAlike_nil σ _ 0 1) lines⟩
  intro s t alike front back line
  exact free_step line alike

end Found

/-! The results. -/

section Same

variable {F : Type} (d : Doubles F) (lang : Lang) {left right : Bytes}

theorem parseVmstat_same [LinearOrder F]
    (reordered : VmstatReordered (lang.tokens left) (lang.tokens right)) :
    parseVmstat d lang right = parseVmstat d lang left :=
  vmstat_same d reordered

theorem parseMpstat_same (reordered : MpstatReordered (lang.tokens left) (lang.tokens right)) :
    parseMpstat d lang right = parseMpstat d lang left := by
  obtain ⟨σ, alike⟩ := averages_alike (ascii "all") reordered
  have idle := alike.getOr d (ascii "%idle") (by decide) d.hundred
  have iowait := alike.getOr d (ascii "%iowait") (by decide) d.zero
  simp only [parseMpstat, alike.header, alike.data, idle, iowait]

theorem parseSarPkts_same (iface : Bytes)
    (reordered : SarReordered (lang.tokens left) (lang.tokens right)) :
    parseSarPkts d lang right iface = parseSarPkts d lang left iface := by
  obtain ⟨σ, alike⟩ := averages_alike iface reordered
  have received := alike.getOr d (ascii "rxpck/s") (by decide) d.zero
  have sent := alike.getOr d (ascii "txpck/s") (by decide) d.zero
  simp only [parseSarPkts, alike.header, alike.data, received, sent]

theorem parseFreeUsedPct_same (reordered : FreeReordered (lang.tokens left) (lang.tokens right)) :
    parseFreeUsedPct d lang right = parseFreeUsedPct d lang left := by
  obtain ⟨σ, alike⟩ := free_alike reordered
  have total := alike.getOr d (ascii "total") (by decide) d.zero
  have avail := alike.getOr d (ascii "available") (by decide) d.zero
  simp only [parseFreeUsedPct, alike.header, alike.data, total, avail]

end Same

end LinuxSys.Loadmix
