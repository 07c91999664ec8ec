import Mathlib.Data.List.DropRight
import LinuxSys.Language
import LinuxSys.Lib.Utf8

/-! # The end of a log through a passed descriptor

`pmctl logfd` gets the supervisor's log descriptor and prints the last lines of the log. It reads
from the front in chunks of 4 KiB until it has a mebibyte or the log ends, takes one newline off the
end, splits at the others and keeps the last lines. Rust makes a text of what it read.
-/

namespace LinuxSys.Pmon.LogFd

open Lib

def newline : UInt8 := 0x0A

def kMaxLogRead : ℕ := 2 ^ 20

def kBuf : ℕ := 4096

/-- `pread` of a regular file. -/
def pread (log : Bytes) (off : ℕ) : Bytes := (log.drop off).take kBuf

/-- The offset is the length of what has been read. -/
def readLog (log data : Bytes) : Bytes :=
  if data.length < kMaxLogRead then
    if pread log data.length = [] then data else readLog log (data ++ pread log data.length)
  else data
termination_by kMaxLogRead - data.length
decreasing_by
  next room some =>
    have positive := List.length_pos_of_ne_nil some
    rw [List.length_append]
    omega

def stripNewline (text : Bytes) : Bytes :=
  if text.getLast? = some newline then text.dropLast else text

/-- `find` in a loop, `split` and `Split`. -/
def split (text : Bytes) : List Bytes := (cutLines newline text).1 ++ [(cutLines newline text).2]

/-- What is printed of the text without its newline. -/
def printed (text : Bytes) (count : ℕ) : List Bytes :=
  if text = [] then []
  else if count < (split text).length then (split text).drop ((split text).length - count)
  else split text

def logTail (lang : Language) (log : Bytes) (count : ℕ) : List Bytes :=
  match lang with
  | .rust => printed (stripNewline (Utf8.lossy (readLog log []))) count
  | .cpp | .go => printed (stripNewline (readLog log [])) count

/-! What the command is for. -/

def lastLines (log : Bytes) (count : ℕ) : List Bytes := (lines newline log).rtake count

structure Right (log : Bytes) (count : ℕ) : Prop where
  last : ∀ lang, logTail lang log count = lastLines log count
  same : ∀ one other, logTail one log count = logTail other log count

/-- The log has lines other than an empty one, its first mebibyte is all of it or happens to end in
the same lines, and these are text. -/
structure Plain (log : Bytes) (count : ℕ) : Prop where
  other : log ≠ [newline]
  seen : log.length ≤ kMaxLogRead ∨
    lastLines (log.take kMaxLogRead) count = lastLines log count
  valid : ∀ line ∈ lastLines log count, Utf8.Valid line

/-! What is read. -/

theorem readLog_take (log : Bytes) {n : ℕ} (within : n * kBuf ≤ kMaxLogRead) :
    readLog log (log.take (n * kBuf)) = log.take kMaxLogRead := by
  induction size : kMaxLogRead / kBuf - n generalizing n with
  | zero =>
    have full : n * kBuf = kMaxLogRead := by
      change n * 4096 ≤ 1048576 at within
      change 1048576 / 4096 - n = 0 at size
      change n * 4096 = 1048576
      omega
    rw [full, readLog, List.length_take]
    split
    · next short =>
      have none : pread log (min kMaxLogRead log.length) = [] := by
        rw [pread, List.drop_eq_nil_of_le (by omega), List.take_nil]
      rw [if_pos none]
    · rfl
  | succ left ih =>
    have room : n * kBuf < kMaxLogRead := by
      change 1048576 / 4096 - n = left + 1 at size
      change n * 4096 < 1048576
      omega
    have next : (n + 1) * kBuf ≤ kMaxLogRead := by
      change 1048576 / 4096 - n = left + 1 at size
      change (n + 1) * 4096 ≤ 1048576
      omega
    rw [readLog, List.length_take, if_pos (by omega)]
    split
    · next none =>
      have ended : log.length ≤ n * kBuf := by
        by_contra more
        rw [min_eq_left (by omega), pread, List.take_eq_nil_iff, List.drop_eq_nil_iff] at none
        rcases none with zero | beyond
        · cases zero
        · omega
      rw [List.take_of_length_le ended, List.take_of_length_le (by omega)]
    · next some =>
      have more : n * kBuf ≤ log.length := by
        by_contra short
        rw [min_eq_right (by omega), pread, List.drop_length, List.take_nil] at some
        exact some rfl
      rw [min_eq_left more, pread, ← List.take_add, ← Nat.succ_mul]
      exact ih next (by omega)

theorem readLog_eq (log : Bytes) : readLog log [] = log.take kMaxLogRead := by
  have none : 0 * kBuf ≤ kMaxLogRead := by
    rw [Nat.zero_mul]
    exact Nat.zero_le kMaxLogRead
  have start := readLog_take log none
  rwa [Nat.zero_mul, List.take_zero] at start

/-! Splitting by hand gives the lines, but for a text that is one empty line. -/

theorem stripNewline_concat (text : Bytes) : stripNewline (text ++ [newline]) = text := by
  rw [stripNewline, List.getLast?_concat, if_pos rfl, List.dropLast_concat]

theorem stripNewline_of_ne {text : Bytes} (open' : text.getLast? ≠ some newline) :
    stripNewline text = text := by
  rw [stripNewline, if_neg open']

theorem split_stripNewline {data : Bytes} (some : stripNewline data ≠ []) :
    split (stripNewline data) = lines newline data := by
  rw [lines_eq_cutLines]
  by_cases ended : data.getLast? = Option.some newline
  · obtain ⟨text, rfl⟩ := List.getLast?_eq_some_iff.mp ended
    rw [stripNewline_concat, cutLines_concat, if_pos rfl, List.append_nil]
    rfl
  · rw [stripNewline_of_ne ended] at some ⊢
    rw [if_neg (cutLines_ne_nil some ended)]
    rfl

theorem stripNewline_eq_nil_iff (data : Bytes) :
    stripNewline data = [] ↔ data = [] ∨ data = [newline] := by
  by_cases ended : data.getLast? = some newline
  · obtain ⟨text, rfl⟩ := List.getLast?_eq_some_iff.mp ended
    rw [stripNewline_concat]
    constructor
    · rintro rfl
      exact Or.inr rfl
    · rintro (none | alone)
      · cases List.append_ne_nil_of_right_ne_nil text (List.cons_ne_nil newline []) none
      · exact List.append_cancel_right (alone.trans (List.nil_append [newline]).symm)
  · rw [stripNewline_of_ne ended, or_iff_left]
    rintro rfl
    exact ended rfl

theorem rtake_of_length_le {α : Type*} {items : List α} {count : ℕ} (few : items.length ≤ count) :
    items.rtake count = items := by
  rw [List.rtake, Nat.sub_eq_zero_of_le few, List.drop_zero]

theorem lossy_eq_newline_iff (data : Bytes) : Utf8.lossy data = [newline] ↔ data = [newline] := by
  constructor
  · intro same
    have member : newline ∈ data := by
      rw [← Utf8.mem_lossy_iff (by decide), same]
      exact List.mem_singleton_self newline
    have short := Utf8.length_le_lossy data
    rw [same] at short
    obtain ⟨front, back, rfl⟩ := List.append_of_mem member
    rw [List.length_append, List.length_cons, List.length_singleton] at short
    rw [List.length_eq_zero_iff.mp (show front.length = 0 by omega),
      List.length_eq_zero_iff.mp (show back.length = 0 by omega)]
    rfl
  · rintro rfl
    exact Utf8.lossy_of_valid (Utf8.valid_of_ascii (by decide))

theorem lines_lossy (data : Bytes) :
    lines newline (Utf8.lossy data) = (lines newline data).map Utf8.lossy := by
  rw [lines_eq_cutLines, lines_eq_cutLines, Utf8.cutLines_lossy (by decide), List.map_append]
  by_cases none : (cutLines newline data).2 = []
  · rw [if_pos none, if_pos ((Utf8.lossy_eq_nil_iff _).mpr none)]
    rfl
  · rw [if_neg none, if_neg ((Utf8.lossy_eq_nil_iff _).not.mpr none)]
    rfl

theorem rtake_map {α β : Type*} (f : α → β) (items : List α) (count : ℕ) :
    (items.map f).rtake count = (items.rtake count).map f := by
  rw [List.rtake, List.rtake, List.length_map, List.map_drop]

theorem printed_zero (text : Bytes) : printed text 0 = [] := by
  unfold printed
  split
  · rfl
  · rw [Nat.sub_zero, List.drop_length, ite_eq_left_iff]
    intro none
    exact List.length_eq_zero_iff.mp (Nat.eq_zero_of_not_pos none)

theorem printed_stripNewline {data : Bytes} (other : data ≠ [newline]) (count : ℕ) :
    printed (stripNewline data) count = lastLines data count := by
  unfold printed
  split
  · next none =>
    have empty := ((stripNewline_eq_nil_iff data).mp none).resolve_right other
    rw [lastLines, empty, lines_nil, List.rtake_nil]
  · next full =>
    rw [split_stripNewline full, lastLines]
    split
    · rfl
    · next few => rw [rtake_of_length_le (Nat.not_lt.mp few)]

/-- The programs print the last lines of the first mebibyte; in Rust these are texts. -/
theorem logTail_eq (lang : Language) {log : Bytes} (other : log ≠ [newline]) (count : ℕ) :
    logTail lang log count = match lang with
      | .rust => (lastLines (log.take kMaxLogRead) count).map Utf8.lossy
      | .cpp | .go => lastLines (log.take kMaxLogRead) count := by
  have part : log.take kMaxLogRead ≠ [newline] := by
    intro alone
    have length := congrArg List.length alone
    rw [List.length_take, List.length_singleton] at length
    change min 1048576 log.length = 1 at length
    have short : log.length ≤ 1048576 := by omega
    exact other ((List.take_of_length_le short).symm.trans alone)
  cases lang with
  | cpp | go =>
    rw [logTail, readLog_eq]
    exact printed_stripNewline part count
  | rust =>
    rw [logTail, readLog_eq, printed_stripNewline ((lossy_eq_newline_iff _).not.mpr part),
      lastLines, lines_lossy, rtake_map]
    rfl

theorem logTail_zero (lang : Language) (log : Bytes) : logTail lang log 0 = [] := by
  cases lang <;> exact printed_zero _

/-- The one line of such a log is empty, and no line is left once its end is taken off. -/
theorem logTail_newline (count : ℕ) : logTail .cpp [newline] count = [] := by
  have read : readLog [newline] [] = [newline] := readLog_eq [newline]
  rw [logTail, read]
  rfl

theorem lastLines_newline {count : ℕ} (asked : count ≠ 0) : lastLines [newline] count = [[]] := by
  have cut : lines newline ([] ++ [newline]) = [[]] := by
    rw [lines_cons List.not_mem_nil, lines_nil]
  rw [List.nil_append] at cut
  rw [lastLines, cut]
  exact rtake_of_length_le (Nat.one_le_iff_ne_zero.mpr asked)

theorem not_right_newline : ¬ Right [newline] 3 := by
  rintro ⟨last, -⟩
  have one := last .cpp
  rw [logTail_newline, lastLines_newline (by decide)] at one
  cases one

/-- The command prints the last lines exactly of such a log. -/
theorem logTail_right_iff (log : Bytes) (count : ℕ) :
    Right log count ↔ count = 0 ∨ Plain log count := by
  constructor
  · rintro ⟨last, -⟩
    refine or_iff_not_imp_left.mpr fun asked => ?_
    have other : log ≠ [newline] := by
      rintro rfl
      have one := last .cpp
      rw [logTail_newline, lastLines_newline asked] at one
      cases one
    have seen : lastLines (log.take kMaxLogRead) count = lastLines log count :=
      (logTail_eq .cpp other count).symm.trans (last .cpp)
    have text : (lastLines (log.take kMaxLogRead) count).map Utf8.lossy = lastLines log count :=
      (logTail_eq .rust other count).symm.trans (last .rust)
    rw [seen, Utf8.map_lossy_eq_iff] at text
    exact ⟨other, Or.inr seen, text⟩
  · rintro (rfl | ⟨other, seen, valid⟩)
    · have none : lastLines log 0 = [] := List.rtake_zero _
      refine ⟨fun lang => ?_, fun one another => ?_⟩
      · rw [logTail_zero, none]
      · rw [logTail_zero, logTail_zero]
    · have part : lastLines (log.take kMaxLogRead) count = lastLines log count := by
        rcases seen with whole | same
        · rw [List.take_of_length_le whole]
        · exact same
      have text : (lastLines log count).map Utf8.lossy = lastLines log count :=
        (Utf8.map_lossy_eq_iff _).mpr valid
      have last (lang : Language) : logTail lang log count = lastLines log count := by
        rw [logTail_eq lang other, part]
        cases lang with
        | cpp | go => rfl
        | rust => exact text
      exact ⟨last, fun one another => (last one).trans (last another).symm⟩

end LinuxSys.Pmon.LogFd
