import LinuxSys.App.Serve

/-! # The log capture of pmon ch18

What a child writes to one of its streams goes to the log, one record for each line. The C++ and
Rust programs append what a read gave to the unfinished line, emit every line that has its end, and
emit the rest too when it is longer than 64 KiB. The Go program scans the pipe with a
`bufio.Scanner` over a buffer of 64 KiB.
-/

namespace LinuxSys.Pmon

open Lib App

def kChunk : ℕ := 64 * 1024

/-- What the reads of a pipe return, up to its end. -/
structure Chunks where
  reads : List Bytes
  nonempty : ∀ chunk ∈ reads, chunk ≠ []
  short : ∀ chunk ∈ reads, chunk.length ≤ kChunk

namespace Chunks

def bytes (chunks : Chunks) : Bytes := chunks.reads.flatten

def source (chunks : Chunks) : Source UInt8 := ⟨chunks.reads, chunks.nonempty⟩

end Chunks

/-- A record of the log: `[pfx] line`. -/
def emit (pfx line : Bytes) : Bytes := ascii "[" ++ pfx ++ ascii "] " ++ line ++ [newline]

/-- `LineRelay::feed`: the lines emitted, and what stays in the buffer. -/
def feed (buf chunk : Bytes) : List Bytes × Bytes :=
  let (finished, rest) := cutLines newline (buf ++ chunk)
  if kChunk < rest.length then (finished ++ [rest], []) else (finished, rest)

def flush (buf : Bytes) : List Bytes := if buf = [] then [] else [buf]

/-- The relay from a buffer on: a feed for each read, and a flush at the end. -/
def relay (buf : Bytes) : List Bytes → List Bytes
  | [] => flush buf
  | chunk :: rest => (feed buf chunk).1 ++ relay (feed buf chunk).2 rest

/-- The scanner of `scanInto`, with the buffer it is given. -/
def scanner (source : Source UInt8) : GoReader := ⟨kChunk, 0, [], false, source⟩

/-- The texts of the records. -/
def captured (lang : Language) (chunks : Chunks) : List Bytes :=
  match lang with
  | .go => goLines.collect (scanner chunks.source)
  | _ => relay [] chunks.reads

/-- The records that the stream leaves in the log. -/
def logged (lang : Language) (pfx : Bytes) (chunks : Chunks) : List Bytes :=
  (captured lang chunks).map (emit pfx)

/-- In C++ and Rust no read but the last ends in an unfinished line longer than 64 KiB; in Go every
line is shorter than 64 KiB and none ends in a carriage return. -/
def Loggable (lang : Language) (chunks : Chunks) : Prop :=
  match lang with
  | .go => ∀ line ∈ lines newline chunks.bytes,
      line.length < kChunk ∧ line.getLast? ≠ some 0x0D
  | _ => ∀ front back, chunks.reads = front ++ back → back ≠ [] →
      (cutLines newline front.flatten).2.length ≤ kChunk

theorem emit_injective (pfx : Bytes) : Function.Injective (emit pfx) := by
  intro one other same
  simpa [emit] using same

theorem flush_eq {buf : Bytes} (fresh : newline ∉ buf) : flush buf = lines newline buf := by
  rw [flush]
  split
  · next empty => rw [empty, lines_nil]
  · next some => rw [lines_of_not_mem fresh some]

theorem feed_of_short {buf chunk : Bytes}
    (short : (cutLines newline (buf ++ chunk)).2.length ≤ kChunk) :
    feed buf chunk = cutLines newline (buf ++ chunk) := by
  simp only [feed, if_neg (not_lt.mpr short)]

theorem feed_of_long {buf chunk : Bytes}
    (long : kChunk < (cutLines newline (buf ++ chunk)).2.length) :
    feed buf chunk = ((cutLines newline (buf ++ chunk)).1 ++
      [(cutLines newline (buf ++ chunk)).2], []) := by
  simp only [feed, if_pos long]

/-- The relay never makes fewer records than there are lines. -/
theorem length_lines_le_relay {buf : Bytes} (fresh : newline ∉ buf) (reads : List Bytes) :
    (lines newline (buf ++ reads.flatten)).length ≤ (relay buf reads).length := by
  induction reads generalizing buf with
  | nil => rw [List.flatten_nil, List.append_nil, relay, flush_eq fresh]
  | cons chunk rest ih =>
    have apart := @not_mem_cutLines _ _ newline (buf ++ chunk)
    rw [List.flatten_cons, ← List.append_assoc, lines_append, relay, List.length_append,
      List.length_append]
    rcases le_or_gt (cutLines newline (buf ++ chunk)).2.length kChunk with short | long
    · rw [feed_of_short short]
      exact Nat.add_le_add_left (ih apart) _
    · have more := length_lines_append_le _ apart rest.flatten
      have later := @ih [] List.not_mem_nil
      rw [List.nil_append] at later
      simp only [feed_of_long long, List.length_append, List.length_singleton]
      omega

/-- A long line that is emitted before its end makes a difference. -/
theorem relay_ne_of_long {front : Bytes} (fresh : newline ∉ front) {reads : List Bytes}
    (more : reads.flatten ≠ []) :
    front :: relay [] reads ≠ lines newline (front ++ reads.flatten) := by
  intro same
  have enough := @length_lines_le_relay [] List.not_mem_nil reads
  rw [List.nil_append] at enough
  cases found : splitFirst? newline reads.flatten with
  | none =>
    have absent := splitFirst?_eq_none_iff.mp found
    rw [lines_of_not_mem (by simp [fresh, absent]) (by simp [more])] at same
    have first := (List.cons.inj same).1
    exact more (List.append_cancel_left ((List.append_nil front).trans first)).symm
  | some pair =>
    obtain ⟨line, rest⟩ := pair
    obtain ⟨split, absent⟩ := splitFirst?_eq_some_iff.mp found
    have whole : newline ∉ front ++ line := by simp [fresh, absent]
    rw [split, ← List.append_assoc, lines_cons whole] at same
    obtain ⟨first, later⟩ := List.cons.inj same
    rw [split, lines_cons absent, later, List.length_cons] at enough
    omega

theorem relay_eq_lines_iff {buf : Bytes} (fresh : newline ∉ buf) (small : buf.length ≤ kChunk)
    {reads : List Bytes} (nonempty : ∀ chunk ∈ reads, chunk ≠ []) :
    relay buf reads = lines newline (buf ++ reads.flatten) ↔
      ∀ front back, reads = front ++ back → back ≠ [] →
        (cutLines newline (buf ++ front.flatten)).2.length ≤ kChunk := by
  induction reads generalizing buf with
  | nil =>
    rw [List.flatten_nil, List.append_nil, relay, flush_eq fresh]
    refine iff_of_true rfl fun front back split some => ?_
    exact absurd (List.append_eq_nil_iff.mp split.symm).2 some
  | cons chunk rest ih =>
    have apart := @not_mem_cutLines _ _ newline (buf ++ chunk)
    rw [List.flatten_cons, ← List.append_assoc, lines_append, relay]
    rcases le_or_gt (cutLines newline (buf ++ chunk)).2.length kChunk with short | long
    · have later := ih apart short fun other member =>
        nonempty other (List.mem_cons_of_mem _ member)
      rw [feed_of_short short, List.append_cancel_left_eq, later]
      constructor
      · intro within front back split some
        rcases List.cons_eq_append_iff.mp split with ⟨rfl, -⟩ | ⟨tail, rfl, behind⟩
        · rw [List.flatten_nil, List.append_nil, cutLines_of_not_mem fresh]
          exact small
        · have bound := within tail back behind some
          rw [List.flatten_cons, ← List.append_assoc, cutLines_append]
          exact bound
      · intro within front back split some
        have bound := within (chunk :: front) back (by rw [split]; rfl) some
        rw [List.flatten_cons, ← List.append_assoc, cutLines_append] at bound
        exact bound
    · rw [feed_of_long long, List.append_assoc, List.append_cancel_left_eq, List.singleton_append]
      cases rest with
      | nil =>
        have some : (cutLines newline (buf ++ chunk)).2 ≠ [] := by
          rintro none
          rw [none] at long
          exact absurd long (Nat.not_lt_zero _)
        refine iff_of_true ?_ fun front back split some => ?_
        · rw [List.flatten_nil, List.append_nil, lines_of_not_mem apart some]
          rfl
        · rcases List.cons_eq_append_iff.mp split with ⟨rfl, -⟩ | ⟨tail, -, behind⟩
          · rw [List.flatten_nil, List.append_nil, cutLines_of_not_mem fresh]
            exact small
          · exact absurd (List.append_eq_nil_iff.mp behind.symm).2 some
      | cons second rest =>
        refine iff_of_false (relay_ne_of_long apart ?_) fun within => ?_
        · have some := nonempty second (by simp)
          simp [some]
        · have bound := within [chunk] (second :: rest) rfl (List.cons_ne_nil _ _)
          rw [List.flatten_singleton] at bound
          omega

/-! The scanner. -/

theorem dropCR_eq_iff (line : Bytes) : GoReader.dropCR line = line ↔ line.getLast? ≠ some 0x0D := by
  rw [GoReader.dropCR]
  split
  · next last =>
    refine iff_of_false (fun same => ?_) fun other => other last
    have length := congrArg List.length same
    have some : line ≠ [] := by
      rintro rfl
      cases last
    have positive := List.length_pos_of_ne_nil some
    rw [List.length_dropLast] at length
    omega
  · next other => exact iff_of_true rfl other

theorem scanned (chunks : Chunks) : goLines.collect (scanner chunks.source) =
    ((lines newline chunks.bytes).takeWhile fun line => line.length < kChunk).map
      GoReader.dropCR := by
  have inv : (scanner chunks.source).Inv :=
    ⟨Nat.zero_le _, le_rfl, fun spent => by cases spent⟩
  have all := @LineReader.map_collect_of _ _ goLines _ _ newline GoReader.Inv
    (fun line => line.length < kChunk) id GoReader.dropCR (fun r inv handed => ?_)
    (fun r line next inv handed => ?_) _ inv
  · rw [List.map_id] at all
    exact all
  · have spec := GoReader.scan_spec inv
    change r.scan = none at handed
    rw [handed] at spec
    rcases spec with spent | ⟨line, rest, first, long⟩
    · exact .inl spent
    · exact .inr ⟨line, _, first.lines, decide_eq_false (not_lt.mpr long)⟩
  · have spec := GoReader.scan_spec inv
    change r.scan = some (line, next) at handed
    rw [handed] at spec
    obtain ⟨kept, text, first, short, same⟩ := spec
    exact ⟨kept, text, first.lines, decide_eq_true short, same⟩

/-- A list that is cut at the first refused element and changed is the same exactly when nothing
is refused or changed. -/
theorem map_takeWhile_eq_iff {α : Type*} {take : α → Bool} {f : α → α} {all : List α} :
    (all.takeWhile take).map f = all ↔ ∀ a ∈ all, take a = true ∧ f a = a := by
  induction all with
  | nil => simp
  | cons a rest ih =>
    rcases Bool.eq_false_or_eq_true (take a) with taken | refused
    · rw [List.takeWhile_cons_of_pos taken, List.map_cons, List.cons_eq_cons, ih,
        List.forall_mem_cons, taken]
      simp
    · rw [List.takeWhile_cons_of_neg (by simp [refused])]
      simp [refused]

/-- The log of a stream is one record for each line, with its bytes, exactly when the stream and
its reads are loggable. -/
theorem logged_iff (lang : Language) (pfx : Bytes) (chunks : Chunks) :
    logged lang pfx chunks = (lines newline chunks.bytes).map (emit pfx) ↔
      Loggable lang chunks := by
  rw [logged, (List.map_injective_iff.mpr (emit_injective pfx)).eq_iff]
  have relayed : relay [] chunks.reads = lines newline chunks.bytes ↔
      ∀ front back, chunks.reads = front ++ back → back ≠ [] →
        (cutLines newline front.flatten).2.length ≤ kChunk :=
    relay_eq_lines_iff List.not_mem_nil (Nat.zero_le _) chunks.nonempty
  cases lang with
  | cpp => exact relayed
  | rust => exact relayed
  | go =>
    rw [captured, scanned, map_takeWhile_eq_iff, Loggable]
    simp only [decide_eq_true_eq, dropCR_eq_iff]

/-- A line of 65537 bytes in three reads. -/
def longLine : Chunks where
  reads := [List.replicate kChunk 0x61, [0x61], [newline]]
  nonempty := by
    refine List.forall_mem_cons.mpr ⟨fun none => ?_, by decide⟩
    have length := congrArg List.length none
    rw [List.length_replicate] at length
    cases length
  short := List.forall_mem_cons.mpr ⟨List.length_replicate.le, by decide⟩

/-- A line that ends in a carriage return. -/
def crLine : Chunks where
  reads := [[0x61, 0x0D, newline]]
  nonempty := by decide
  short := by decide

theorem relay_longLine : relay [] longLine.reads ≠ lines newline longLine.bytes := by
  intro same
  have within := (relay_eq_lines_iff List.not_mem_nil (Nat.zero_le _) longLine.nonempty).mp same
    [List.replicate kChunk 0x61, [0x61]] [[newline]] rfl (List.cons_ne_nil _ _)
  have fresh : newline ∉ [List.replicate kChunk 0x61, [0x61]].flatten := by
    simp [newline, List.mem_replicate]
  rw [List.nil_append, cutLines_of_not_mem fresh] at within
  simp only [List.flatten_cons, List.flatten_nil, List.length_append, List.length_replicate,
    List.length_singleton, List.length_nil] at within
  omega

theorem scanned_crLine : goLines.collect (scanner crLine.source) ≠ lines newline crLine.bytes := by
  intro same
  have fresh : newline ∉ [0x61, 0x0D] := by decide
  have one : lines newline crLine.bytes = [[0x61, 0x0D]] := by
    rw [← lines_nil newline]
    exact lines_cons fresh []
  rw [scanned, map_takeWhile_eq_iff, one] at same
  have ends := (same [0x61, 0x0D] List.mem_cons_self).2
  rw [dropCR_eq_iff] at ends
  exact ends rfl

/-- C++ and Rust cut a long line in two; Go drops a carriage return. -/
theorem not_logged :
    logged .cpp (ascii "out") longLine ≠ (lines newline longLine.bytes).map (emit (ascii "out")) ∧
    logged .rust (ascii "out") longLine ≠
      (lines newline longLine.bytes).map (emit (ascii "out")) ∧
    logged .go (ascii "out") crLine ≠ (lines newline crLine.bytes).map (emit (ascii "out")) := by
  have injective := List.map_injective_iff.mpr (emit_injective (ascii "out"))
  exact ⟨fun same => relay_longLine (injective same), fun same => relay_longLine (injective same),
    fun same => scanned_crLine (injective same)⟩

end LinuxSys.Pmon
