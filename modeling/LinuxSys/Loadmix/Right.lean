import Mathlib.Algebra.Order.Ring.Int
import LinuxSys.Lib.Numeral
import LinuxSys.Loadmix.Iostat

/-! # Reading by name

Four of the tables give the same result whatever the order of their columns. `iostat` does so where
no row outside the device tables is read, or none that is greater.
-/

namespace LinuxSys.Loadmix

open Lib

/-- What the parsers promise, for each tool. -/
theorem tables_by_name_iff {F : Type} [LinearOrder F] (d : Doubles F) (lang : Lang) :
    (∀ left right, VmstatReordered (lang.tokens left) (lang.tokens right) →
      parseVmstat d lang right = parseVmstat d lang left) ∧
    (∀ left right, MpstatReordered (lang.tokens left) (lang.tokens right) →
      parseMpstat d lang right = parseMpstat d lang left) ∧
    (∀ left right, FreeReordered (lang.tokens left) (lang.tokens right) →
      parseFreeUsedPct d lang right = parseFreeUsedPct d lang left) ∧
    (∀ left right iface, SarReordered (lang.tokens left) (lang.tokens right) →
      parseSarPkts d lang right iface = parseSarPkts d lang left iface) ∧
    ∀ left right, IostatReordered (lang.tokens left) (lang.tokens right) →
      (IostatRight d lang left right ↔ IostatFine d lang left right) :=
  ⟨fun _ _ reordered => parseVmstat_same d lang reordered,
    fun _ _ reordered => parseMpstat_same d lang reordered,
    fun _ _ reordered => parseFreeUsedPct_same d lang reordered,
    fun _ _ iface reordered => parseSarPkts_same d lang iface reordered,
    fun _ _ reordered => iostatRight_iff d lang reordered⟩

/-! Outputs. -/

/-- Doubles that are whole. -/
def wholeDoubles : Doubles ℤ where
  parse := IntParser.parse64.parse
  zero := 0
  hundred := 100
  add := (· + ·)
  sub := (· - ·)
  mul := (· * ·)
  div := (· / ·)
  nonpositive := fun x => x ≤ 0

/-- A text of these lines. -/
def render (whole : List Line) : Bytes :=
  whole.flatMap fun line => joined 0x20 line ++ [0x0A]

/-- No token is empty, and all are of printable characters. -/
def Tokens (whole : List Line) : Prop :=
  ∀ line ∈ whole, ∀ token ∈ line, token ≠ [] ∧ ∀ b ∈ token, 0x21 ≤ b ∧ b ≤ 0x7E

instance (whole : List Line) : Decidable (Tokens whole) :=
  inferInstanceAs (Decidable (∀ line ∈ whole, ∀ token ∈ line, token ≠ [] ∧ _))

theorem wordless_of_printable {token : Bytes} (printable : ∀ b ∈ token, 0x21 ≤ b ∧ b ≤ 0x7E) :
    Wordless Utf8.spaces token := by
  have each : ∀ w ∈ Utf8.spaces, ¬ ∀ b ∈ w, 0x21 ≤ b ∧ b ≤ 0x7E := by decide
  intro w space inside
  exact each w space fun b member => printable b (inside.subset member)

theorem splitWs_joined (lang : Lang) {line : Line}
    (tokens : ∀ token ∈ line, token ≠ [] ∧ ∀ b ∈ token, 0x21 ≤ b ∧ b ≤ 0x7E) :
    lang.splitWs (joined 0x20 line) = line := by
  have each : ∀ token ∈ line, token ≠ [] ∧ Wordless Utf8.spaces token :=
    fun token inside => ⟨(tokens token inside).1, wordless_of_printable (tokens token inside).2⟩
  have unicode : fields Utf8.spaces (joined 0x20 line) = line :=
    fields_joined (Utf8.single_spaces (by decide)) Utf8.nil_not_mem_spaces (by decide) each
  have ascii : ∀ w ∈ blanks, w ∈ Utf8.spaces := by decide
  cases lang with
  | cpp =>
    have single : ∀ w ∈ blanks, 0x20 ∈ w → w = [0x20] := by decide
    refine fields_joined single (by decide) (by decide) fun token inside => ?_
    exact ⟨(each token inside).1, fun w blank => (each token inside).2 w (ascii w blank)⟩
  | rust => exact unicode
  | go => exact unicode

/-- Any lines of tokens are the lines of a text. -/
theorem tokens_render (lang : Lang) {whole : List Line} (each : Tokens whole) :
    lang.tokens (render whole) = whole := by
  have fresh : ∀ line ∈ whole, (0x0A : UInt8) ∉ joined 0x20 line := by
    intro line inside member
    rcases mem_of_mem_joined member with same | ⟨token, here, found⟩
    · exact absurd same (by decide)
    · exact absurd ((each line inside token here).2 0x0A found).1 (by decide)
  rw [Lang.tokens, lines_eq_cutLines, render, cutLines_flatMap fresh, if_pos rfl, List.append_nil,
    List.map_map]
  exact (List.map_congr_left fun line inside => splitWs_joined lang (each line inside)).trans
    (List.map_id whole)

def cpuNames : Line :=
  [ascii "%user", ascii "%nice", ascii "%system", ascii "%iowait", ascii "%steal", ascii "%idle"]

def cpuValues : Line := [ascii "1", ascii "0", ascii "2", ascii "0", ascii "0", ascii "97"]

/-- Two blocks of `iostat`, with these names and values in the device tables. -/
def iostatLines (names first second : Line) : List Line :=
  [] ++ [avgCpu :: cpuNames] ++ [cpuValues] ++ [[]] ++ [device :: names] ++
    [ascii "sda" :: first] ++ [[]] ++ [avgCpu :: cpuNames] ++ [cpuValues] ++ [[]] ++
    [device :: names] ++ [ascii "sda" :: second]

def plainLines : List Line :=
  iostatLines
    [ascii "r/s", ascii "rkB/s", ascii "rrqm/s", ascii "%rrqm", ascii "r_await", wAwait, util]
    [ascii "9", ascii "70", ascii "0", ascii "0", ascii "1", ascii "2", ascii "4"]
    [ascii "5", ascii "20", ascii "0", ascii "0", ascii "1", ascii "2", ascii "3"]

/-- The columns `r_await` and `%util` have changed their places. -/
def swappedLines : List Line :=
  iostatLines
    [ascii "r/s", ascii "rkB/s", ascii "rrqm/s", ascii "%rrqm", util, wAwait, ascii "r_await"]
    [ascii "9", ascii "70", ascii "0", ascii "0", ascii "4", ascii "2", ascii "1"]
    [ascii "5", ascii "20", ascii "0", ascii "0", ascii "3", ascii "2", ascii "1"]

section Examples

variable {σ : Equiv.Perm ℕ} {names moved first shifted second other : Line}

theorem moved_swap {a b n : ℕ} {left right : Line} (a_lt : a < n) (b_lt : b < n)
    (left_le : left.length ≤ n) (right_le : right.length ≤ n)
    (inside : ∀ i < n, right[Equiv.swap a b i]? = left[i]?) :
    Moved (Equiv.swap a b) left right := by
  refine Moved.of_lt left_le right_le (fun i behind => ?_) inside
  exact Equiv.swap_apply_of_ne_of_ne (by omega) (by omega)

theorem iostatLines_reordered (nodup : names.Nodup) (columns : Moved σ names moved)
    (row : Moved σ first shifted) (later : Moved σ second other) :
    IostatReordered (iostatLines names first second) (iostatLines moved shifted other) := by
  have once : ∀ name ∈ [util, wAwait], Once name names := fun name _ => .of_nodup nodup name
  have cpu : Plain cpuValues := by decide
  have sda : ∀ cells, Plain (ascii "sda" :: cells) := fun cells => plain_cons_iff.mpr (by decide)
  refine ⟨.device σ, .deviceRow (.devices σ (.blank (.cpuRow (.cpus (Equiv.refl ℕ) (.blank
    (.deviceRow (.devices σ (.blank (.cpuRow (.cpus (Equiv.refl ℕ) .nil ?_) cpu cpu ?_)) once
      columns) (sda _) row)) ?_) cpu cpu ?_)) once columns) (sda _) later⟩
  all_goals exact Moved.refl _

theorem plain_tokens (lang : Lang) : lang.tokens (render plainLines) = plainLines :=
  tokens_render lang (by decide)

theorem swapped_tokens (lang : Lang) : lang.tokens (render swappedLines) = swappedLines :=
  tokens_render lang (by decide)

theorem lines_reordered : IostatReordered plainLines swappedLines := by
  have swap : ∀ {left right : Line}, left.length ≤ 7 → right.length ≤ 7 →
      (∀ i < 7, right[Equiv.swap 4 6 i]? = left[i]?) → Moved (Equiv.swap 4 6) left right :=
    fun left_le right_le inside => moved_swap (by omega) (by omega) left_le right_le inside
  refine iostatLines_reordered (by decide) (swap ?_ ?_ ?_) (swap ?_ ?_ ?_) (swap ?_ ?_ ?_)
  all_goals decide

theorem outputs_reordered (lang : Lang) :
    IostatReordered (lang.tokens (render plainLines)) (lang.tokens (render swappedLines)) := by
  rw [plain_tokens, swapped_tokens]
  exact lines_reordered

/-! A small table of each of the other tools, and its first two value columns exchanged. -/

theorem moved_front {a b : Bytes} {rest : Line} :
    Moved (Equiv.swap 0 1) (a :: b :: rest) (b :: a :: rest) := by
  intro i
  match i with
  | 0 => rfl
  | 1 => rfl
  | i + 2 =>
    rw [Equiv.swap_apply_of_ne_of_ne (by omega) (by omega)]
    rfl

def vmstatLeft : List Line :=
  [ascii "r" :: swpd :: [ascii "si", ascii "so"], ascii "1" :: ascii "0" :: [ascii "0", ascii "0"],
    ascii "2" :: ascii "0" :: [ascii "3", ascii "4"]]

def vmstatRight : List Line :=
  [swpd :: ascii "r" :: [ascii "si", ascii "so"], ascii "0" :: ascii "1" :: [ascii "0", ascii "0"],
    ascii "0" :: ascii "2" :: [ascii "3", ascii "4"]]

theorem vmstat_reordered : VmstatReordered (Lang.cpp.tokens (render vmstatLeft))
    (Lang.cpp.tokens (render vmstatRight)) := by
  rw [tokens_render _ (by decide), tokens_render _ (by decide)]
  refine .table (Equiv.swap 0 1) (by decide) (fun name _ => .of_nodup (by decide) name) moved_front
    (.cons (.row moved_front) (.cons (.row moved_front) .nil))

/-- A summary with two columns, under a title and for a label. -/
def averageLines (title label firstName secondName first second : Bytes) : List Line :=
  [average :: title :: firstName :: secondName :: [], average :: label :: first :: second :: []]

theorem averages_reordered {title label firstName secondName : Bytes} (read : List Bytes)
    (first second : Bytes) (names : firstName ≠ secondName) (labels : label ≠ title) :
    AveragesReordered title read
      (averageLines title label firstName secondName first second)
      (averageLines title label secondName firstName second first) := by
  refine ⟨Equiv.swap 0 1, .cons (.header (fun name _ => .of_nodup ?_ name) moved_front)
    (.cons (.row labels moved_front) .nil)⟩
  simpa using names

def mpstatLeft : List Line :=
  averageLines (ascii "CPU") (ascii "all") (ascii "%iowait") (ascii "%idle")
    (ascii "1") (ascii "90")

def mpstatRight : List Line :=
  averageLines (ascii "CPU") (ascii "all") (ascii "%idle") (ascii "%iowait")
    (ascii "90") (ascii "1")

theorem mpstat_reordered : MpstatReordered (Lang.cpp.tokens (render mpstatLeft))
    (Lang.cpp.tokens (render mpstatRight)) := by
  rw [tokens_render _ (by decide), tokens_render _ (by decide)]
  exact averages_reordered _ _ _ (by decide) (by decide)

def sarLeft : List Line :=
  averageLines (ascii "IFACE") (ascii "lo") (ascii "rxpck/s") (ascii "txpck/s")
    (ascii "7") (ascii "8")

def sarRight : List Line :=
  averageLines (ascii "IFACE") (ascii "lo") (ascii "txpck/s") (ascii "rxpck/s")
    (ascii "8") (ascii "7")

theorem sar_reordered : SarReordered (Lang.cpp.tokens (render sarLeft))
    (Lang.cpp.tokens (render sarRight)) := by
  rw [tokens_render _ (by decide), tokens_render _ (by decide)]
  exact averages_reordered _ _ _ (by decide) (by decide)

def freeLeft : List Line :=
  [ascii "total" :: ascii "used" :: [available], mem :: ascii "1" :: ascii "0" :: [ascii "0"]]

def freeRight : List Line :=
  [ascii "used" :: ascii "total" :: [available], mem :: ascii "0" :: ascii "1" :: [ascii "0"]]

theorem free_reordered : FreeReordered (Lang.cpp.tokens (render freeLeft))
    (Lang.cpp.tokens (render freeRight)) := by
  rw [tokens_render _ (by decide), tokens_render _ (by decide)]
  refine ⟨Equiv.swap 0 1, .cons (.header (by decide) (fun name _ => .of_nodup (by decide) name)
    moved_front) (.cons (.row (by decide) moved_front) .nil)⟩

end Examples

/-- Every parser at one output in two orders. -/
theorem tables_by_name_outputs :
    parseVmstat wholeDoubles .cpp (render vmstatRight) =
      parseVmstat wholeDoubles .cpp (render vmstatLeft) ∧
    parseMpstat wholeDoubles .cpp (render mpstatRight) =
      parseMpstat wholeDoubles .cpp (render mpstatLeft) ∧
    parseFreeUsedPct wholeDoubles .cpp (render freeRight) =
      parseFreeUsedPct wholeDoubles .cpp (render freeLeft) ∧
    parseSarPkts wholeDoubles .cpp (render sarRight) (ascii "lo") =
      parseSarPkts wholeDoubles .cpp (render sarLeft) (ascii "lo") ∧
    (IostatRight wholeDoubles .cpp (render plainLines) (render swappedLines) ↔
      IostatFine wholeDoubles .cpp (render plainLines) (render swappedLines)) :=
  have all := tables_by_name_iff wholeDoubles .cpp
  ⟨all.1 _ _ vmstat_reordered, all.2.1 _ _ mpstat_reordered, all.2.2.1 _ _ free_reordered,
    all.2.2.2.1 _ _ _ sar_reordered, all.2.2.2.2 _ _ (outputs_reordered .cpp)⟩

/-- The value row of the second `avg-cpu:` table has its 97 where the header of the first device
table has `%util`. -/
theorem idle_taken_for_utilization : IostatReordered plainLines swappedLines ∧ ∀ lang : Lang,
    lang.tokens (render plainLines) = plainLines ∧
      lang.tokens (render swappedLines) = swappedLines ∧
      parseIostat wholeDoubles lang (render plainLines) = ⟨3, 2⟩ ∧
      parseIostat wholeDoubles lang (render swappedLines) = ⟨97, 2⟩ ∧
      parseIostat wholeDoubles lang (render swappedLines) ≠
        parseIostat wholeDoubles lang (render plainLines) := by
  refine ⟨lines_reordered, fun lang => ?_⟩
  have plain : parseIostat wholeDoubles lang (render plainLines) = ⟨3, 2⟩ := by
    rw [parseIostat, plain_tokens]
    decide +kernel
  have swapped : parseIostat wholeDoubles lang (render swappedLines) = ⟨97, 2⟩ := by
    rw [parseIostat, swapped_tokens]
    decide +kernel
  refine ⟨plain_tokens lang, swapped_tokens lang, plain, swapped, ?_⟩
  rw [plain, swapped]
  decide

end LinuxSys.Loadmix
