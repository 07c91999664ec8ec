import Mathlib.Order.Bounds.Basic
import LinuxSys.Loadmix.Reordered

/-! # What `iostat` says of the devices

`parse_iostat` keeps the header of a table when the table has ended, so the value row of an
`avg-cpu:` table is read as the row of a device. Its result is the greatest value of the device
tables where no such row has a greater one, and then it does not depend on the order of the columns.
-/

namespace LinuxSys.Loadmix

open Lib

/-! Where a line stands: all is said of the lines in front of it. -/

/-- Neither empty nor the title of a table. -/
def Plain (line : Line) : Prop :=
  line ≠ [] ∧ line.head? ≠ some avgCpu ∧ line.head? ≠ some device

instance (line : Line) : Decidable (Plain line) :=
  inferInstanceAs (Decidable (line ≠ [] ∧ line.head? ≠ some avgCpu ∧ line.head? ≠ some device))

def titleStep (title : Option Line) (line : Line) : Option Line :=
  if line = [] then none
  else if line.head? = some avgCpu ∨ line.head? = some device then some line
  else title

/-- The title of the table that a line behind these stands in: an empty line ends a table. -/
def openTitle (front : List Line) : Option Line := front.foldl titleStep none

/-- The title of the last table of devices, be it at its end or not. -/
def lastDevice (front : List Line) : Option Line :=
  (front.filter fun line => line.head? = some device).getLast?

/-- A block begins with the title `avg-cpu:`. -/
def blocks (front : List Line) : ℕ := front.countP fun line => line.head? = some avgCpu

def Excluded (row : Line) : Prop := ∃ dev ∈ row.head?, excluded dev

/-- A row of a device table in a block after the first, for a device that is not excluded. -/
structure DeviceRow (front : List Line) (title row : Line) : Prop where
  inside : openTitle front = some title
  devices : title.head? = some device
  plain : Plain row
  later : 2 ≤ blocks front
  kept : ¬ Excluded row

/-- A value row of an `avg-cpu:` table. -/
structure CpuRow (front : List Line) (row : Line) : Prop where
  inside : ∃ title, openTitle front = some title ∧ title.head? = some avgCpu
  plain : Plain row

/-- A line outside the device tables that looks like a row of the last one. -/
structure StrayRow (front : List Line) (title row : Line) : Prop where
  outside : ∀ other, openTitle front = some other → other.head? ≠ some device
  behind : lastDevice front = some title
  plain : Plain row
  later : 2 ≤ blocks front
  kept : ¬ Excluded row

/-- Some line of the text, with those in front of it. -/
def Somewhere (P : List Line → Line → Prop) (whole : List Line) : Prop :=
  ∃ front row back, whole = front ++ row :: back ∧ P front row

section Values

variable {F : Type} (d : Doubles F)

def value (column : Bytes) (title row : Line) : F :=
  (makeRow title 1 row 1).getOr d column d.zero

def deviceValues (column : Bytes) (whole : List Line) : Set F :=
  {v | Somewhere
    (fun front row => ∃ title, DeviceRow front title row ∧ value d column title row = v) whole}

def strayValues (column : Bytes) (whole : List Line) : Set F :=
  {v | Somewhere
    (fun front row => ∃ title, StrayRow front title row ∧ value d column title row = v) whole}

end Values

/-- The row that the code makes of a line. -/
def readRow (front : List Line) (row : Line) : Option Row :=
  (front.foldl IostatScan.step {}).row? row

/-! The same tables with their columns in another order; each table has an order of its own. -/

inductive Place where
  | outside
  | device (σ : Equiv.Perm ℕ)
  | cpu (σ : Equiv.Perm ℕ)

inductive IostatLines : Place → List Line → List Line → Prop where
  | nil : IostatLines .outside [] []
  | blank {place left right} : IostatLines place left right →
      IostatLines .outside (left ++ [[]]) (right ++ [[]])
  | devices {place left right names moved} (σ : Equiv.Perm ℕ) : IostatLines place left right →
      (∀ name ∈ [util, wAwait], Once name names) → Moved σ names moved →
      IostatLines (.device σ) (left ++ [device :: names]) (right ++ [device :: moved])
  | cpus {place left right names moved} (σ : Equiv.Perm ℕ) : IostatLines place left right →
      Moved σ names moved →
      IostatLines (.cpu σ) (left ++ [avgCpu :: names]) (right ++ [avgCpu :: moved])
  | deviceRow {σ left right dev cells moved} : IostatLines (.device σ) left right →
      Plain (dev :: cells) → Moved σ cells moved →
      IostatLines (.device σ) (left ++ [dev :: cells]) (right ++ [dev :: moved])
  | cpuRow {σ left right cells moved} : IostatLines (.cpu σ) left right →
      Plain cells → Plain moved → Moved σ cells moved →
      IostatLines (.cpu σ) (left ++ [cells]) (right ++ [moved])
  | note {left right line} : IostatLines .outside left right → Plain line →
      IostatLines .outside (left ++ [line]) (right ++ [line])

def IostatReordered (left right : List Line) : Prop := ∃ place, IostatLines place left right

/-! What is promised, and when it is so. -/

section Promise

variable {F : Type} [LinearOrder F] (d : Doubles F) (lang : Lang)

/-- The result is the greatest value of the rows, or zero. -/
structure Greatest (text : Bytes) : Prop where
  util : IsGreatest (insert d.zero (deviceValues d util (lang.tokens text)))
    (parseIostat d lang text).utilMax
  await : IsGreatest (insert d.zero (deviceValues d wAwait (lang.tokens text)))
    (parseIostat d lang text).awaitMax

/-- No value row of an `avg-cpu:` table is read. -/
def CpuUnread (whole : List Line) : Prop :=
  ∀ front row back, whole = front ++ row :: back → CpuRow front row → readRow front row = none

structure IostatRight (left right : Bytes) : Prop where
  same : parseIostat d lang right = parseIostat d lang left
  greatest : ∀ text ∈ [left, right], Greatest d lang text
  unread : ∀ text ∈ [left, right], CpuUnread (lang.tokens text)

/-- A value row of an `avg-cpu:` table has no device table in front of it, or belongs to the first
block, or begins like an excluded device. -/
def CpuUnreached (whole : List Line) : Prop :=
  ∀ front row back, whole = front ++ row :: back → CpuRow front row →
    (∀ line ∈ front, line.head? ≠ some device) ∨ blocks front < 2 ∨ Excluded row

/-- No line outside the device tables has, under a name of the last one, more than zero and more
than every row of the device tables. -/
def StraysBelow (whole : List Line) : Prop :=
  ∀ column ∈ [util, wAwait], ∀ stray ∈ strayValues d column whole,
    ∃ v ∈ insert d.zero (deviceValues d column whole), stray ≤ v

structure IostatFine (left right : Bytes) : Prop where
  unreached : ∀ text ∈ [left, right], CpuUnreached (lang.tokens text)
  below : ∀ text ∈ [left, right], StraysBelow d (lang.tokens text)

end Promise

/-! What the code reads. -/

section Read

variable {F : Type} {whole front : List Line} {last row title line : Line}

theorem somewhere_concat {P : List Line → Line → Prop} :
    Somewhere P (whole ++ [last]) ↔ Somewhere P whole ∨ P whole last := by
  constructor
  · rintro ⟨front, row, back, same, here⟩
    rcases List.eq_nil_or_concat back with rfl | ⟨back, other, rfl⟩
    · obtain ⟨rfl, one⟩ := List.append_inj' same rfl
      obtain rfl : last = row := (List.cons.inj one).1
      exact .inr here
    · rw [List.concat_eq_append, ← List.cons_append, ← List.append_assoc] at same
      exact .inl ⟨front, row, back, (List.append_inj' same rfl).1, here⟩
  · rintro (⟨front, row, back, rfl, here⟩ | here)
    · exact ⟨front, row, back ++ [last], by rw [List.append_assoc, List.cons_append], here⟩
    · exact ⟨whole, last, [], rfl, here⟩

theorem openTitle_concat (front : List Line) (line : Line) :
    openTitle (front ++ [line]) = titleStep (openTitle front) line := by
  rw [openTitle, List.foldl_concat, openTitle]

theorem titleStep_of_plain (plain : Plain line) (title : Option Line) :
    titleStep title line = title := by
  rw [titleStep, if_neg plain.1, if_neg (not_or.mpr plain.2)]

theorem lastDevice_concat_of_device (front : List Line) (names : Line) :
    lastDevice (front ++ [device :: names]) = some (device :: names) := by
  rw [lastDevice, List.filter_append, List.filter_cons_of_pos (by simp), List.filter_nil,
    List.getLast?_concat]

theorem lastDevice_concat_of_other (other : line.head? ≠ some device) :
    lastDevice (front ++ [line]) = lastDevice front := by
  rw [lastDevice, List.filter_append, List.filter_cons_of_neg (by simpa using other),
    List.filter_nil, List.append_nil, lastDevice]

theorem lastDevice_eq_none_iff :
    lastDevice front = none ↔ ∀ line ∈ front, line.head? ≠ some device := by
  rw [lastDevice, List.getLast?_eq_none_iff, List.filter_eq_nil_iff]
  simp

theorem line_cases (line : Line) : line = [] ∨ (∃ names, line = avgCpu :: names) ∨
    (∃ names, line = device :: names) ∨ Plain line := by
  cases line with
  | nil => exact .inl rfl
  | cons first names =>
    by_cases cpu : first = avgCpu
    · exact .inr (.inl ⟨names, by rw [cpu]⟩)
    · by_cases devices : first = device
      · exact .inr (.inr (.inl ⟨names, by rw [devices]⟩))
      · refine .inr (.inr (.inr ⟨List.cons_ne_nil first names, ?_, ?_⟩))
        · simpa using cpu
        · simpa using devices

theorem device_ne_avgCpu : device ≠ avgCpu := by decide

theorem openTitle_blank (front : List Line) : openTitle (front ++ [[]]) = none := by
  rw [openTitle_concat, titleStep, if_pos rfl]

theorem openTitle_cpu (front : List Line) (names : Line) :
    openTitle (front ++ [avgCpu :: names]) = some (avgCpu :: names) := by
  rw [openTitle_concat, titleStep, if_neg (List.cons_ne_nil _ _), if_pos (.inl rfl)]

theorem openTitle_device (front : List Line) (names : Line) :
    openTitle (front ++ [device :: names]) = some (device :: names) := by
  rw [openTitle_concat, titleStep, if_neg (List.cons_ne_nil _ _), if_pos (.inr rfl)]

theorem openTitle_plain (plain : Plain line) : openTitle (front ++ [line]) = openTitle front := by
  rw [openTitle_concat, titleStep_of_plain plain]

/-- A table of devices that is open is the last one. -/
theorem lastDevice_of_open (inside : openTitle front = some title)
    (devices : title.head? = some device) : lastDevice front = some title := by
  induction front using List.reverseRecOn with
  | nil => cases inside
  | append_singleton front line ih =>
    rcases line_cases line with rfl | ⟨names, rfl⟩ | ⟨names, rfl⟩ | plain
    · rw [openTitle_blank] at inside
      cases inside
    · rw [openTitle_cpu] at inside
      obtain rfl := Option.some.inj inside
      exact absurd (Option.some.inj devices).symm device_ne_avgCpu
    · rw [openTitle_device] at inside
      rw [lastDevice_concat_of_device, inside]
    · rw [openTitle_plain plain] at inside
      rw [lastDevice_concat_of_other plain.2.2, ih inside]

theorem blocks_concat (front : List Line) (line : Line) :
    blocks (front ++ [line]) = blocks front + if line.head? = some avgCpu then 1 else 0 := by
  rw [blocks, List.countP_append, List.countP_singleton, blocks]
  simp

theorem step_cpu (s : IostatScan) (names : Line) :
    s.step (avgCpu :: names) = { s with blockIdx := s.blockIdx + 1 } := by
  rw [IostatScan.step, if_pos rfl]

theorem step_device (s : IostatScan) (names : Line) :
    s.step (device :: names) = { s with header := device :: names } := by
  rw [IostatScan.step, if_neg device_ne_avgCpu, if_pos rfl]

theorem step_plain (s : IostatScan) (plain : Plain line) : s.step line = s := by
  cases line with
  | nil => rfl
  | cons first rest =>
    have cpu : first ≠ avgCpu := by simpa using plain.2.1
    have devices : first ≠ device := by simpa using plain.2.2
    rw [IostatScan.step, if_neg cpu, if_neg devices]

theorem blockIdx_scan (front : List Line) :
    (front.foldl IostatScan.step {}).blockIdx = (blocks front : ℤ) - 1 := by
  induction front using List.reverseRecOn with
  | nil => rfl
  | append_singleton front line ih =>
    rw [List.foldl_concat, blocks_concat]
    rcases line_cases line with rfl | ⟨names, rfl⟩ | ⟨names, rfl⟩ | plain
    · exact ih
    · rw [step_cpu, ih, List.head?_cons, if_pos rfl]
      dsimp only
      omega
    · rw [step_device, List.head?_cons, if_neg (by simpa using device_ne_avgCpu)]
      exact ih
    · rw [step_plain _ plain, ih, if_neg plain.2.1]
      rfl

theorem header_scan (front : List Line) :
    (front.foldl IostatScan.step {}).header = (lastDevice front).getD [] := by
  induction front using List.reverseRecOn with
  | nil => rfl
  | append_singleton front line ih =>
    rw [List.foldl_concat]
    rcases line_cases line with rfl | ⟨names, rfl⟩ | ⟨names, rfl⟩ | plain
    · rw [lastDevice_concat_of_other (by simp)]
      exact ih
    · rw [step_cpu, lastDevice_concat_of_other (by simpa using device_ne_avgCpu.symm)]
      exact ih
    · rw [step_device, lastDevice_concat_of_device]
      rfl
    · rw [step_plain _ plain, ih, lastDevice_concat_of_other plain.2.2]

theorem head_of_lastDevice (found : lastDevice front = some title) :
    title.head? = some device := by
  have inside := List.mem_of_getLast? found
  simpa using (List.mem_filter.mp inside).2

theorem row?_of_not_plain (s : IostatScan) (not_plain : ¬ Plain row) : s.row? row = none := by
  rcases line_cases row with rfl | ⟨names, rfl⟩ | ⟨names, rfl⟩ | plain
  · rfl
  · rw [IostatScan.row?, if_pos rfl]
  · rw [IostatScan.row?, if_neg device_ne_avgCpu, if_pos rfl]
  · exact absurd plain not_plain

/-- A line is read as a row if a device table is in front of it, in a block after the first. -/
theorem readRow_eq_some_iff {r : Row} : readRow front row = some r ↔
    ∃ title, lastDevice front = some title ∧ Plain row ∧ 2 ≤ blocks front ∧ ¬ Excluded row ∧
      makeRow title 1 row 1 = r := by
  by_cases plain : Plain row
  · cases row with
    | nil => exact absurd rfl plain.1
    | cons dev rest =>
      have cpu : dev ≠ avgCpu := by simpa using plain.2.1
      have devices : dev ≠ device := by simpa using plain.2.2
      have kept : Excluded (dev :: rest) ↔ excluded dev := by simp [Excluded]
      have later : (blocks front : ℤ) - 1 < 1 ↔ ¬ 2 ≤ blocks front := by omega
      simp only [readRow, IostatScan.row?, if_neg cpu, if_neg devices, blockIdx_scan, header_scan,
        later]
      cases found : lastDevice front with
      | none => simp
      | some title =>
        have full : title ≠ [] := by
          rintro rfl
          cases head_of_lastDevice found
        simp only [Option.getD_some, full, false_or, Option.some.injEq, exists_eq_left', plain,
          kept,
          true_and]
        split_ifs with early out
        · exact iff_of_false nofun fun all => all.2.1 out
        · rw [Option.some.injEq]
          exact ⟨fun same => ⟨early, out, same⟩, fun all => all.2.2⟩
        · exact iff_of_false nofun fun all => early all.1
  · rw [readRow, row?_of_not_plain _ plain]
    refine iff_of_false (by simp) ?_
    rintro ⟨title, -, other, -⟩
    exact plain other

theorem readRow_eq_some_iff_or {r : Row} : readRow front row = some r ↔ ∃ title,
    (DeviceRow front title row ∨ StrayRow front title row) ∧ makeRow title 1 row 1 = r := by
  rw [readRow_eq_some_iff]
  constructor
  · rintro ⟨title, found, plain, later, kept, same⟩
    refine ⟨title, ?_, same⟩
    by_cases inside : ∃ other, openTitle front = some other ∧ other.head? = some device
    · obtain ⟨other, opened, devices⟩ := inside
      obtain rfl := Option.some.inj ((lastDevice_of_open opened devices).symm.trans found)
      exact .inl ⟨opened, devices, plain, later, kept⟩
    · have outside : ∀ other, openTitle front = some other → other.head? ≠ some device :=
        fun other opened devices => inside ⟨other, opened, devices⟩
      exact .inr ⟨outside, found, plain, later, kept⟩
  · rintro ⟨title, row | row, same⟩
    · exact ⟨title, lastDevice_of_open row.inside row.devices, row.plain, row.later, row.kept, same⟩
    · exact ⟨title, row.behind, row.plain, row.later, row.kept, same⟩

end Read

/-! The result. -/

section Result

variable {F : Type} (d : Doubles F) {whole : List Line} {last : Line}

theorem mem_values_iff (column : Bytes) (v : F) :
    v ∈ deviceValues d column whole ∪ strayValues d column whole ↔
      Somewhere (fun front row => ∃ r, readRow front row = some r ∧ r.getOr d column d.zero = v)
        whole := by
  constructor
  · rintro (⟨front, row, back, same, title, here, rfl⟩ | ⟨front, row, back, same, title, here, rfl⟩)
    · exact ⟨front, row, back, same, _, readRow_eq_some_iff_or.mpr ⟨title, .inl here, rfl⟩, rfl⟩
    · exact ⟨front, row, back, same, _, readRow_eq_some_iff_or.mpr ⟨title, .inr here, rfl⟩, rfl⟩
  · rintro ⟨front, row, back, same, r, read, rfl⟩
    obtain ⟨title, here | here, rfl⟩ := readRow_eq_some_iff_or.mp read
    · exact .inl ⟨front, row, back, same, title, here, rfl⟩
    · exact .inr ⟨front, row, back, same, title, here, rfl⟩

theorem somewhere_nil {P : List Line → Line → Prop} : ¬ Somewhere P [] := by
  rintro ⟨front, row, back, same, -⟩
  exact absurd same.symm (by simp)

variable [LinearOrder F]

/-- What is raised by every value that is read is the greatest of them. -/
theorem isGreatest_of_concat (column : Bytes) (result : List Line → F) (nil : result [] = d.zero)
    (concat : ∀ whole last, result (whole ++ [last]) = (readRow whole last).elim (result whole)
      fun r => max (result whole) (r.getOr d column d.zero)) (whole : List Line) :
    IsGreatest (insert d.zero (deviceValues d column whole ∪ strayValues d column whole))
      (result whole) := by
  induction whole using List.reverseRecOn with
  | nil =>
    rw [nil]
    refine ⟨Set.mem_insert _ _, fun v inside => ?_⟩
    rcases Set.mem_insert_iff.mp inside with rfl | value
    · exact le_rfl
    · exact absurd ((mem_values_iff d column v).mp value) somewhere_nil
  | append_singleton whole last ih =>
    have values : ∀ v, v ∈ deviceValues d column (whole ++ [last]) ∪
        strayValues d column (whole ++ [last]) ↔
        v ∈ deviceValues d column whole ∪ strayValues d column whole ∨
          ∃ r, readRow whole last = some r ∧ r.getOr d column d.zero = v := by
      intro v
      rw [mem_values_iff, somewhere_concat, mem_values_iff]
    rw [concat]
    cases read : readRow whole last with
    | none =>
      have same : deviceValues d column (whole ++ [last]) ∪ strayValues d column (whole ++ [last]) =
          deviceValues d column whole ∪ strayValues d column whole := by
        ext v
        rw [values v]
        simp [read]
      rw [same]
      exact ih
    | some r =>
      have more : deviceValues d column (whole ++ [last]) ∪ strayValues d column (whole ++ [last]) =
          insert (r.getOr d column d.zero)
            (deviceValues d column whole ∪ strayValues d column whole) := by
        ext v
        rw [values v, Set.mem_insert_iff, read]
        simp only [Option.some.injEq, exists_eq_left', eq_comm, or_comm]
      rw [more, Set.insert_comm, Option.elim_some, max_comm]
      exact ih.insert _

theorem iostatRun_concat (whole : List Line) (last : Line) : iostatRun d (whole ++ [last]) =
    ((iostatRun d whole).1.step last,
      (iostatRun d whole).2.follow d ((iostatRun d whole).1.row? last)) := by
  rw [iostatRun, List.foldl_concat, iostatRun]

theorem scan_iostatRun (whole : List Line) :
    (iostatRun d whole).1 = whole.foldl IostatScan.step {} := by
  induction whole using List.reverseRecOn with
  | nil => rfl
  | append_singleton whole last ih => rw [iostatRun_concat, List.foldl_concat, ih]

theorem result_concat (whole : List Line) (last : Line) : (iostatRun d (whole ++ [last])).2 =
    (iostatRun d whole).2.follow d (readRow whole last) := by
  rw [iostatRun_concat, scan_iostatRun, readRow]

theorem isGreatest_util (whole : List Line) :
    IsGreatest (insert d.zero (deviceValues d util whole ∪ strayValues d util whole))
      (iostatRun d whole).2.utilMax := by
  refine isGreatest_of_concat d util (fun whole => (iostatRun d whole).2.utilMax) rfl ?_ whole
  intro whole last
  rw [result_concat]
  cases readRow whole last <;> rfl

theorem isGreatest_await (whole : List Line) :
    IsGreatest (insert d.zero (deviceValues d wAwait whole ∪ strayValues d wAwait whole))
      (iostatRun d whole).2.awaitMax := by
  refine isGreatest_of_concat d wAwait (fun whole => (iostatRun d whole).2.awaitMax) rfl ?_ whole
  intro whole last
  rw [result_concat]
  cases readRow whole last <;> rfl

/-- The greatest of all is the greatest of some of them if none of the others is above them. -/
theorem isGreatest_part_iff {some others : Set F} {m : F} (whole : IsGreatest (some ∪ others) m) :
    IsGreatest some m ↔ ∀ v ∈ others, ∃ w ∈ some, v ≤ w := by
  constructor
  · intro part v other
    exact ⟨m, part.1, whole.2 (.inr other)⟩
  · intro below
    refine ⟨?_, fun v inside => whole.2 (.inl inside)⟩
    rcases whole.1 with inside | other
    · exact inside
    · obtain ⟨w, inside, le⟩ := below m other
      exact le_antisymm le (whole.2 (.inl inside)) ▸ inside

theorem greatest_iff (lang : Lang) (text : Bytes) :
    Greatest d lang text ↔ StraysBelow d (lang.tokens text) := by
  have utils := isGreatest_util d (lang.tokens text)
  have awaits := isGreatest_await d (lang.tokens text)
  rw [← Set.insert_union] at utils awaits
  constructor
  · rintro ⟨util, await⟩ column read
    rcases List.mem_pair.mp read with rfl | rfl
    · exact (isGreatest_part_iff utils).mp util
    · exact (isGreatest_part_iff awaits).mp await
  · intro below
    exact ⟨(isGreatest_part_iff utils).mpr (below util (by simp)),
      (isGreatest_part_iff awaits).mpr (below wAwait (by simp))⟩

omit [LinearOrder F] in
theorem readRow_eq_none_iff {front : List Line} {row : Line} (plain : Plain row) :
    readRow front row = none ↔
      (∀ line ∈ front, line.head? ≠ some device) ∨ blocks front < 2 ∨ Excluded row := by
  rw [← lastDevice_eq_none_iff, Option.eq_none_iff_forall_ne_some]
  simp only [ne_eq, readRow_eq_some_iff]
  constructor
  · intro unread
    by_contra! open_
    obtain ⟨some, later, kept⟩ := open_
    obtain ⟨title, found⟩ := Option.ne_none_iff_exists'.mp some
    exact unread _ ⟨title, found, plain, later, kept, rfl⟩
  · rintro apart r ⟨title, found, -, later, kept, -⟩
    rcases apart with none | less | out
    · rw [none] at found
      cases found
    · omega
    · exact kept out

omit [LinearOrder F] in
theorem cpuUnread_iff : CpuUnread whole ↔ CpuUnreached whole := by
  constructor
  · intro unread front row back same here
    exact (readRow_eq_none_iff here.plain).mp (unread front row back same here)
  · intro unreached front row back same here
    exact (readRow_eq_none_iff here.plain).mpr (unreached front row back same here)

end Result

/-! The order of the columns. -/

/-- The table that is open behind the same lines in two orders. -/
inductive SameOpen : Place → Option Line → Option Line → Prop where
  | outside : SameOpen .outside none none
  | device {names moved} {σ : Equiv.Perm ℕ} : (∀ name ∈ [util, wAwait], Once name names) →
      Moved σ names moved → SameOpen (.device σ) (some (device :: names)) (some (device :: moved))
  | cpu {names moved} {σ : Equiv.Perm ℕ} :
      SameOpen (.cpu σ) (some (avgCpu :: names)) (some (avgCpu :: moved))

namespace SameOpen

variable {left right : Option Line} {σ : Equiv.Perm ℕ}

theorem of_outside (same : SameOpen .outside left right) : left = none ∧ right = none := by
  cases same
  exact ⟨rfl, rfl⟩

theorem of_device (same : SameOpen (.device σ) left right) : ∃ names moved,
    left = some (Loadmix.device :: names) ∧ right = some (Loadmix.device :: moved) ∧
      (∀ name ∈ [util, wAwait], Once name names) ∧ Moved σ names moved := by
  cases same with
  | device once moved => exact ⟨_, _, rfl, rfl, once, moved⟩

theorem of_cpu (same : SameOpen (.cpu σ) left right) : ∃ names moved,
    left = some (avgCpu :: names) ∧ right = some (avgCpu :: moved) := by
  cases same
  exact ⟨_, _, rfl, rfl⟩

end SameOpen

section Order

variable {F : Type} (d : Doubles F) {place : Place} {left right : List Line} {front back : Line}

theorem plain_cons_iff {dev : Bytes} {cells : Line} :
    Plain (dev :: cells) ↔ dev ≠ avgCpu ∧ dev ≠ device := by
  simp [Plain]

theorem IostatLines.sameOpen (lines : IostatLines place left right) :
    SameOpen place (openTitle left) (openTitle right) := by
  induction lines with
  | nil => exact .outside
  | blank _ ih =>
    rw [openTitle_blank, openTitle_blank]
    exact .outside
  | devices σ _ once moved ih =>
    rw [openTitle_device, openTitle_device]
    exact .device once moved
  | cpus σ _ moved ih =>
    rw [openTitle_cpu, openTitle_cpu]
    exact .cpu
  | deviceRow _ plain moved ih =>
    rw [openTitle_plain plain, openTitle_plain (plain_cons_iff.mpr (plain_cons_iff.mp plain))]
    exact ih
  | cpuRow _ plain other moved ih =>
    rw [openTitle_plain plain, openTitle_plain other]
    exact ih
  | note _ plain ih =>
    rw [openTitle_plain plain, openTitle_plain plain]
    exact ih

theorem IostatLines.blocks_eq (lines : IostatLines place left right) :
    blocks right = blocks left := by
  induction lines with
  | nil => rfl
  | cpuRow _ plain other moved ih =>
    rw [blocks_concat, blocks_concat, ih, if_neg plain.2.1, if_neg other.2.1]
  | blank _ ih | note _ _ ih => rw [blocks_concat, blocks_concat, ih]
  | devices _ _ _ _ ih | cpus _ _ _ ih | deviceRow _ _ _ ih =>
    rw [blocks_concat, blocks_concat, ih]
    rfl

theorem deviceRow_iff {whole : List Line} {names title row : Line}
    (opened : openTitle whole = some (device :: names)) : DeviceRow whole title row ↔
      device :: names = title ∧ Plain row ∧ 2 ≤ blocks whole ∧ ¬ Excluded row := by
  constructor
  · rintro ⟨inside, -, plain, later, kept⟩
    exact ⟨Option.some.inj (opened.symm.trans inside), plain, later, kept⟩
  · rintro ⟨rfl, plain, later, kept⟩
    exact ⟨opened, rfl, plain, later, kept⟩

theorem not_deviceRow_of_closed {whole : List Line} {title row : Line}
    (closed : ∀ other, openTitle whole = some other → other.head? ≠ some device) :
    ¬ DeviceRow whole title row := fun here => closed title here.inside here.devices

/-- What a line at the end adds to the values of the devices. -/
theorem mem_deviceValues_concat (column : Bytes) (whole : List Line) (last : Line) (v : F) :
    v ∈ deviceValues d column (whole ++ [last]) ↔ v ∈ deviceValues d column whole ∨
      ∃ title, DeviceRow whole title last ∧ value d column title last = v :=
  somewhere_concat

/-- Two lines that add the same. -/
theorem deviceValues_concat_eq (column : Bytes)
    (same : deviceValues d column right = deviceValues d column left)
    (last : ∀ v, (∃ title, DeviceRow right title back ∧ value d column title back = v) ↔
      ∃ title, DeviceRow left title front ∧ value d column title front = v) :
    deviceValues d column (right ++ [back]) = deviceValues d column (left ++ [front]) := by
  ext v
  rw [mem_deviceValues_concat, mem_deviceValues_concat, same, last]

/-- Lines that are not rows of devices add nothing. -/
theorem deviceValues_concat_eq_of_none (column : Bytes)
    (same : deviceValues d column right = deviceValues d column left)
    (no_back : ∀ title, ¬ DeviceRow right title back)
    (no_front : ∀ title, ¬ DeviceRow left title front) :
    deviceValues d column (right ++ [back]) = deviceValues d column (left ++ [front]) := by
  refine deviceValues_concat_eq d column same fun v => iff_of_false ?_ ?_
  · rintro ⟨title, row, -⟩
    exact no_back title row
  · rintro ⟨title, row, -⟩
    exact no_front title row

theorem IostatLines.deviceValues_eq (lines : IostatLines place left right) {column : Bytes}
    (read : column ∈ [util, wAwait]) :
    deviceValues d column right = deviceValues d column left := by
  induction lines with
  | nil => rfl
  | blank _ ih =>
    have not_plain : ¬ Plain [] := fun plain => plain.1 rfl
    exact deviceValues_concat_eq_of_none d column ih (fun _ row => not_plain row.plain)
      fun _ row => not_plain row.plain
  | devices σ _ once moved ih =>
    exact deviceValues_concat_eq_of_none d column ih (fun _ row => row.plain.2.2 rfl)
      fun _ row => row.plain.2.2 rfl
  | cpus σ _ moved ih =>
    exact deviceValues_concat_eq_of_none d column ih (fun _ row => row.plain.2.1 rfl)
      fun _ row => row.plain.2.1 rfl
  | @deviceRow σ left right dev cells shifted before plain moved ih =>
    obtain ⟨names, other, open_left, open_right, once, columns⟩ := before.sameOpen.of_device
    refine deviceValues_concat_eq d column ih fun v => ?_
    have same : value d column (device :: other) (dev :: shifted) =
        value d column (device :: names) (dev :: cells) :=
      getOr_moved d (once column read) columns moved
    simp only [deviceRow_iff open_left, deviceRow_iff open_right, before.blocks_eq, plain_cons_iff,
      Excluded, List.head?_cons, and_assoc, exists_eq_left', same]
  | cpuRow before plain other moved ih =>
    obtain ⟨names, more, open_left, open_right⟩ := before.sameOpen.of_cpu
    refine deviceValues_concat_eq_of_none d column ih (fun _ => not_deviceRow_of_closed ?_)
      fun _ => not_deviceRow_of_closed ?_
    · rintro title opened devices
      rw [open_right] at opened
      obtain rfl := Option.some.inj opened
      exact device_ne_avgCpu (Option.some.inj devices).symm
    · rintro title opened devices
      rw [open_left] at opened
      obtain rfl := Option.some.inj opened
      exact device_ne_avgCpu (Option.some.inj devices).symm
  | note before plain ih =>
    obtain ⟨open_left, open_right⟩ := before.sameOpen.of_outside
    refine deviceValues_concat_eq_of_none d column ih (fun _ row => ?_) fun _ row => ?_
    · exact absurd (open_right.symm.trans row.inside) (by simp)
    · exact absurd (open_left.symm.trans row.inside) (by simp)

end Order

/-! What is promised, exactly. -/

section Exact

variable {F : Type} [LinearOrder F] (d : Doubles F) (lang : Lang) {left right : Bytes}

/-- The same values have the same greatest one. -/
theorem parseIostat_same (reordered : IostatReordered (lang.tokens left) (lang.tokens right))
    (greatest_left : Greatest d lang left) (greatest_right : Greatest d lang right) :
    parseIostat d lang right = parseIostat d lang left := by
  obtain ⟨place, lines⟩ := reordered
  have utils := greatest_right.util
  have awaits := greatest_right.await
  rw [lines.deviceValues_eq d (by simp)] at utils awaits
  have util := utils.unique greatest_left.util
  have await := awaits.unique greatest_left.await
  cases result : parseIostat d lang right
  cases other : parseIostat d lang left
  rw [result, other] at util await
  rw [IostatResult.mk.injEq]
  exact ⟨util, await⟩

theorem iostatRight_iff (reordered : IostatReordered (lang.tokens left) (lang.tokens right)) :
    IostatRight d lang left right ↔ IostatFine d lang left right := by
  constructor
  · rintro ⟨-, greatest, unread⟩
    exact ⟨fun text inside => cpuUnread_iff.mp (unread text inside),
      fun text inside => (greatest_iff d lang text).mp (greatest text inside)⟩
  · rintro ⟨unreached, below⟩
    have greatest : ∀ text ∈ [left, right], Greatest d lang text :=
      fun text inside => (greatest_iff d lang text).mpr (below text inside)
    exact ⟨parseIostat_same d lang reordered (greatest left (by simp)) (greatest right (by simp)),
      greatest, fun text inside => cpuUnread_iff.mpr (unreached text inside)⟩

end Exact

end LinuxSys.Loadmix
