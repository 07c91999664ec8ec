import LinuxSys.Sysagent.Procfs

/-! # When a source can be read

What a text has to hold for a reader of sysagent to take it. C++ wants little more than the first
word of a line and tells two numbers of `/proc/loadavg` from other words by an exception; Rust and
Go want the same words, of a text that is UTF-8 and of lines that are not too long.
-/

namespace LinuxSys.Sysagent.Procfs

open Lib InStream

/-- The lines that a version sees. -/
def Lines (lang : Language) (source : Source) (all : List Bytes) : Prop :=
  match lang with
  | .cpp => ∃ f, source = some f ∧ getlines f = all
  | .rust => ∃ text, readToString source = some text ∧ strLines text = all
  | .go => ∃ f, source = some f ∧ scanLines f = all

def TickLine (lang : Language) (line : Bytes) : Prop :=
  match lang with
  | .cpp => firstWord line = cpu
  | .rust | .go => ∃ numbers more, words line = cpu :: (numbers ++ more) ∧ numbers.length = 8 ∧
      ∀ w ∈ numbers, (parseInt w).isSome

def HasTicks (lang : Language) (source : Source) : Prop :=
  ∃ line rest, Lines lang source (line :: rest) ∧ TickLine lang line

section Load

variable {F : Type} (num : Doubles F)

/-- The stream does not fail short of its end, and the field after the doubles has a slash. -/
def LoadField (f : File) (run total : Bytes) : Prop :=
  let (input, s) := (loadInput num).run ⟨f.text, f.broken, false, false⟩
  (s.failed → s.ended) ∧ splitFirst? slash input.running = some (run, total)

def LoadWords (parse : Bytes → Option F) (text : Bytes) : Prop :=
  ∃ load1 load5 load15 run total more,
    words text = load1 :: load5 :: load15 :: (run ++ slash :: total) :: more ∧ slash ∉ run ∧
      (parse load1).isSome ∧ (parse load5).isSome ∧ (parse load15).isSome ∧
        (parseInt run).isSome ∧ (parseInt total).isSome

def HasLoads (lang : Language) (source : Source) : Prop :=
  match lang with
  | .cpp => ∃ f run total, source = some f ∧ LoadField num f run total ∧ (stoll run).isSome ∧
      (stoll total).isSome
  | .rust => ∃ text, readToString source = some text ∧ LoadWords num.rust text
  | .go => ∃ text, readFile source = some text ∧ LoadWords num.go text

/-- A half of the field in front of the last is no number, or too large. -/
def Throws (source : Source) : Prop :=
  ∃ f run total, source = some f ∧ LoadField num f run total ∧
    (stoll run = none ∨ stoll total = none)

end Load

/-- The line gives the key a value. -/
def Gives (lang : Language) (line key : Bytes) : Prop :=
  match lang with
  | .cpp => firstWord line = key
  | .rust | .go => ∃ kb more, words line = key :: kb :: more ∧ (parseInt kb).isSome

def HasKeys (lang : Language) (source : Source) : Prop :=
  ∃ all, Lines lang source all ∧
    (∃ line ∈ all, Gives lang line memTotal) ∧ ∃ line ∈ all, Gives lang line memAvailable

/-- A list of devices needs no particular line. -/
def Lists (lang : Language) (source : Source) : Prop :=
  match lang with
  | .cpp => source.isSome
  | .rust => (readToString source).isSome
  | .go => ∃ f, source = some f ∧ f.broken = false ∧
      ∀ line ∈ lines newline f.text, line.length < maxScanTokenSize

@[simp] theorem toOption_orFault {α : Type} (file : ProcFile) (complaint : Complaint)
    (a : Option α) : (orFault file complaint a).toOption = a := by
  cases a with
  | _ => rfl

/-! `/proc/stat`. -/

theorem ticksOfLine_iff {line : Bytes} :
    (ticksOfLine line).toOption.isSome ↔ firstWord line = cpu := by
  have label : (ticksInput.run (ofText line)).1.1 = firstWord line := word_ofText line
  unfold ticksOfLine
  simp only [label]
  split
  · next other => exact iff_of_false nofun other
  · next same => exact iff_of_true rfl (not_not.mp same)

theorem ticksOfWords_iff {all : List Bytes} : (ticksOfWords all).toOption.isSome ↔
    ∃ numbers more, all = cpu :: (numbers ++ more) ∧ numbers.length = 8 ∧
      ∀ w ∈ numbers, (parseInt w).isSome := by
  unfold ticksOfWords
  split
  · next label user nice system idle iowait irq softirq steal more =>
    split
    · next other =>
      refine iff_of_false nofun ?_
      rintro ⟨numbers, more, same, -⟩
      exact other (List.cons.inj same).1
    · next same =>
      rw [not_not] at same
      subst same
      have each : (do
          return ⟨← parseInt user, ← parseInt nice, ← parseInt system, ← parseInt idle,
            ← parseInt iowait, ← parseInt irq, ← parseInt softirq, ← parseInt steal⟩ :
          Option CpuTicks).isSome ↔
          ∀ w ∈ [user, nice, system, idle, iowait, irq, softirq, steal], (parseInt w).isSome := by
        simp [Option.isSome_iff_exists, Option.bind_eq_some_iff]
      rw [toOption_orFault, each]
      constructor
      · intro all
        exact ⟨[user, nice, system, idle, iowait, irq, softirq, steal], more, rfl, rfl, all⟩
      · rintro ⟨numbers, others, same, eight, all⟩ w member
        have both : [user, nice, system, idle, iowait, irq, softirq, steal] ++ more =
            numbers ++ others := (List.cons.inj same).2
        obtain ⟨rfl, -⟩ := List.append_inj both eight.symm
        exact all w member
  · next short =>
    refine iff_of_false nofun ?_
    rintro ⟨numbers, more, rfl, eight, -⟩
    match numbers, eight with
    | [user, nice, system, idle, iowait, irq, softirq, steal], _ =>
      exact short cpu user nice system idle iowait irq softirq steal more rfl

/-- The readers take the first line of what they see. -/
theorem readCpuTicks_iff {lang : Language} {source : Source} :
    (readCpuTicks lang source).toOption.isSome ↔ HasTicks lang source := by
  cases lang with
  | cpp =>
    cases source with
    | none => exact iff_of_false (by rintro ⟨⟩) (by rintro ⟨_, _, ⟨f, ⟨⟩, -⟩, -⟩)
    | some f =>
      simp only [readCpuTicks, HasTicks, Lines, TickLine, Option.some.injEq, exists_eq_left']
      cases getlines f with
      | nil => exact iff_of_false (by rintro ⟨⟩) (by rintro ⟨_, _, ⟨⟩, -⟩)
      | cons line rest => simp [ticksOfLine_iff]
  | rust =>
    simp only [readCpuTicks, HasTicks, Lines, TickLine]
    cases readToString source with
    | none => exact iff_of_false (by rintro ⟨⟩) (by rintro ⟨_, _, ⟨f, ⟨⟩, -⟩, -⟩)
    | some text =>
      simp only [Option.some.injEq, exists_eq_left']
      cases strLines text with
      | nil => exact iff_of_false (by rintro ⟨⟩) (by rintro ⟨_, _, ⟨⟩, -⟩)
      | cons line rest => simp [ticksOfWords_iff]
  | go =>
    cases source with
    | none => exact iff_of_false (by rintro ⟨⟩) (by rintro ⟨_, _, ⟨f, ⟨⟩, -⟩, -⟩)
    | some f =>
      simp only [readCpuTicks, HasTicks, Lines, TickLine, Option.some.injEq, exists_eq_left']
      cases scanLines f with
      | nil => exact iff_of_false (by rintro ⟨⟩) (by rintro ⟨_, _, ⟨⟩, -⟩)
      | cons line rest => simp [ticksOfWords_iff]

/-! `/proc/loadavg`. -/

section Load

variable {F : Type} {num : Doubles F}

/-- The field decides between a value and an exception. -/
theorem loadOfStream_of_field {f : File} {run total : Bytes} (field : LoadField num f run total) :
    ∃ load1 load5 load15, loadOfStream num f =
      match stoll run, stoll total with
      | some runnable, some totalThreads =>
        .done (.ok ⟨load1, load5, load15, runnable, totalThreads⟩)
      | _, _ => .thrown := by
  unfold LoadField at field
  unfold loadOfStream
  generalize (loadInput num).run _ = read at field ⊢
  obtain ⟨input, s⟩ := read
  obtain ⟨ends, found⟩ := field
  dsimp only at ends found ⊢
  rw [if_neg (fun fails => fails.2 (ends fails.1)), found]
  exact ⟨_, _, _, rfl⟩

theorem loadOfStream_of_no_field {f : File} (none : ∀ run total, ¬ LoadField num f run total) :
    ∃ fault, loadOfStream num f = .done (.error fault) := by
  unfold LoadField at none
  unfold loadOfStream
  generalize (loadInput num).run _ = read at none ⊢
  obtain ⟨input, s⟩ := read
  dsimp only at none ⊢
  split
  · exact ⟨_, rfl⟩
  · next ends =>
    rw [not_and, not_not] at ends
    split
    · exact ⟨_, rfl⟩
    · next run total found => exact absurd ⟨ends, found⟩ (none run total)

theorem loadField_unique {f : File} {run total run' total' : Bytes}
    (field : LoadField num f run total) (other : LoadField num f run' total') :
    run = run' ∧ total = total' := by
  unfold LoadField at field other
  generalize (loadInput num).run _ = read at field other
  have same := field.2.symm.trans other.2
  exact Prod.mk.inj (Option.some.inj same)

theorem loadOfStream_toOption_iff {f : File} : (loadOfStream num f).toOption.isSome ↔
    ∃ run total, LoadField num f run total ∧ (stoll run).isSome ∧ (stoll total).isSome := by
  by_cases some : ∃ run total, LoadField num f run total
  · obtain ⟨run, total, field⟩ := some
    obtain ⟨load1, load5, load15, read⟩ := loadOfStream_of_field field
    have half : (loadOfStream num f).toOption.isSome ↔ (stoll run).isSome ∧ (stoll total).isSome := by
      rw [read]
      cases stoll run with
      | none => exact iff_of_false nofun fun both => nomatch both.1
      | some runnable =>
        cases stoll total with
        | none => exact iff_of_false nofun fun both => nomatch both.2
        | some totalThreads => exact iff_of_true rfl ⟨rfl, rfl⟩
    rw [half]
    constructor
    · exact fun both => ⟨run, total, field, both⟩
    · rintro ⟨run', total', other, both⟩
      obtain ⟨rfl, rfl⟩ := loadField_unique field other
      exact both
  · obtain ⟨fault, read⟩ :=
      loadOfStream_of_no_field (fun run total field => some ⟨run, total, field⟩)
    rw [read]
    exact iff_of_false nofun fun ⟨run, total, field, _⟩ => some ⟨run, total, field⟩

theorem loadOfStream_thrown_iff {f : File} : loadOfStream num f = .thrown ↔
    ∃ run total, LoadField num f run total ∧ (stoll run = none ∨ stoll total = none) := by
  by_cases some : ∃ run total, LoadField num f run total
  · obtain ⟨run, total, field⟩ := some
    obtain ⟨load1, load5, load15, read⟩ := loadOfStream_of_field field
    have half : loadOfStream num f = .thrown ↔ stoll run = none ∨ stoll total = none := by
      rw [read]
      cases stoll run with
      | none => exact iff_of_true rfl (.inl rfl)
      | some runnable =>
        cases stoll total with
        | none => exact iff_of_true rfl (.inr rfl)
        | some totalThreads => exact iff_of_false nofun (Or.rec nofun nofun)
    rw [half]
    constructor
    · exact fun either => ⟨run, total, field, either⟩
    · rintro ⟨run', total', other, either⟩
      obtain ⟨rfl, rfl⟩ := loadField_unique field other
      exact either
  · obtain ⟨fault, read⟩ :=
      loadOfStream_of_no_field (fun run total field => some ⟨run, total, field⟩)
    rw [read]
    exact iff_of_false nofun fun ⟨run, total, field, _⟩ => some ⟨run, total, field⟩

theorem isSome_loads_iff {a b c : Option F} {run total : Bytes} :
    (match a, b, c with
      | some load1, some load5, some load15 => orFault .loadavg .number do
        return ⟨load1, load5, load15, ← parseInt run, ← parseInt total⟩
      | _, _, _ => .error ⟨.loadavg, .number⟩ : Except Fault (LoadAvg F)).toOption.isSome ↔
      a.isSome ∧ b.isSome ∧ c.isSome ∧ (parseInt run).isSome ∧ (parseInt total).isSome := by
  cases a with
  | none => simp [Except.toOption]
  | some a =>
    cases b with
    | none => simp [Except.toOption]
    | some b =>
      cases c with
      | none => simp [Except.toOption]
      | some c => simp [Option.isSome_iff_exists, Option.bind_eq_some_iff]

theorem loadOfWords_toOption_iff {parse : Bytes → Option F} {text : Bytes} :
    (loadOfWords parse (words text)).toOption.isSome ↔ LoadWords parse text := by
  unfold LoadWords loadOfWords
  split
  · next load1 load5 load15 running more shape =>
    rw [shape]
    cases found : splitFirst? slash running with
    | none =>
      have fresh := splitFirst?_eq_none_iff.mp found
      refine iff_of_false ?_ ?_
      · simp only
        split
        · nofun
        · nofun
      · rintro ⟨_, _, _, run, total, _, same, -⟩
        simp only [List.cons.injEq] at same
        exact fresh (by simp [same.2.2.2.1])
    | some parts =>
      obtain ⟨run, total⟩ := parts
      refine isSome_loads_iff.trans ?_
      obtain ⟨rfl, fresh⟩ := splitFirst?_eq_some_iff.mp found
      constructor
      · exact fun all => ⟨load1, load5, load15, run, total, more, rfl, fresh, all⟩
      · rintro ⟨_, _, _, run', total', _, same, fresh', all⟩
        simp only [List.cons.injEq] at same
        obtain ⟨rfl, rfl, rfl, field, rfl⟩ := same
        rw [field, splitFirst?_append fresh'] at found
        obtain ⟨rfl, rfl⟩ := Prod.mk.inj (Option.some.inj found)
        exact all
  · next short =>
    refine iff_of_false nofun ?_
    rintro ⟨load1, load5, load15, run, total, more, same, -⟩
    exact short _ _ _ _ _ same

theorem readLoadavg_iff {lang : Language} {source : Source} :
    (readLoadavg num lang source).toOption.isSome ↔ HasLoads num lang source := by
  cases lang with
  | cpp =>
    cases source with
    | none => exact iff_of_false nofun (by rintro ⟨_, _, _, ⟨⟩, -⟩)
    | some f =>
      refine loadOfStream_toOption_iff.trans ?_
      simp [HasLoads]
  | rust =>
    unfold readLoadavg HasLoads
    dsimp only
    cases readToString source with
    | none => exact iff_of_false nofun (by rintro ⟨_, ⟨⟩, -⟩)
    | some text => simp [Read.toOption, loadOfWords_toOption_iff]
  | go =>
    unfold readLoadavg HasLoads
    dsimp only
    cases readFile source with
    | none => exact iff_of_false nofun (by rintro ⟨_, ⟨⟩, -⟩)
    | some text => simp [Read.toOption, loadOfWords_toOption_iff]

theorem readLoadavg_ne_thrown {lang : Language} {source : Source} (other : lang ≠ .cpp) :
    readLoadavg num lang source ≠ .thrown := by
  unfold readLoadavg
  split
  · exact absurd rfl other
  · split
    · nofun
    · nofun
  · split
    · nofun
    · nofun

theorem readLoadavg_cpp_thrown_iff {source : Source} :
    readLoadavg num .cpp source = .thrown ↔ Throws num source := by
  cases source with
  | none => exact iff_of_false nofun (by rintro ⟨_, _, _, ⟨⟩, -⟩)
  | some f =>
    refine loadOfStream_thrown_iff.trans ?_
    simp [Throws]

end Load

/-! `/proc/meminfo`. -/

section Keys

variable {entry : Bytes → Option (Bytes × ℤ)} {known : Option ℤ × Option ℤ} {all : List Bytes}

/-- What a line adds. -/
def learn (known : Option ℤ × Option ℤ) : Option (Bytes × ℤ) → Option ℤ × Option ℤ
  | none => known
  | some (key, kb) =>
    if key = memTotal then (some kb, known.2)
    else if key = memAvailable then (known.1, some kb)
    else known

theorem memKeys_cons {line : Bytes} {rest : List Bytes} :
    memKeys entry known (line :: rest) =
      if (learn known (entry line)).1.isSome ∧ (learn known (entry line)).2.isSome then
        learn known (entry line)
      else memKeys entry (learn known (entry line)) rest := by
  rw [memKeys]
  cases entry line with
  | none => rfl
  | some pair => rfl

theorem isSome_learn_iff (known : Option ℤ × Option ℤ) (said : Option (Bytes × ℤ)) :
    ((learn known said).1.isSome ↔ known.1.isSome ∨ ∃ kb, said = some (memTotal, kb)) ∧
      ((learn known said).2.isSome ↔ known.2.isSome ∨ ∃ kb, said = some (memAvailable, kb)) := by
  have different : memAvailable ≠ memTotal := by decide
  cases said with
  | none => simp [learn]
  | some pair =>
    obtain ⟨key, kb⟩ := pair
    unfold learn
    dsimp only
    split
    · next total =>
      subst total
      simp [different.symm]
    · next other =>
      split
      · next available =>
        subst available
        simp [different]
      · next strange => simp [other, strange]

/-- A value is known in the end if it was or if a line gives it. -/
theorem isSome_memKeys_iff :
    ((memKeys entry known all).1.isSome ∧ (memKeys entry known all).2.isSome) ↔
      (known.1.isSome ∨ ∃ line ∈ all, ∃ kb, entry line = some (memTotal, kb)) ∧
        (known.2.isSome ∨ ∃ line ∈ all, ∃ kb, entry line = some (memAvailable, kb)) := by
  induction all generalizing known with
  | nil => simp [memKeys]
  | cons line rest ih =>
    obtain ⟨total, available⟩ := isSome_learn_iff known (entry line)
    rw [memKeys_cons]
    split
    · next both =>
      refine iff_of_true both ⟨?_, ?_⟩
      · rcases total.mp both.1 with before | here
        · exact .inl before
        · exact .inr ⟨line, List.mem_cons_self, here⟩
      · rcases available.mp both.2 with before | here
        · exact .inl before
        · exact .inr ⟨line, List.mem_cons_self, here⟩
    · rw [ih, total, available, List.exists_mem_cons_iff, List.exists_mem_cons_iff, or_assoc,
        or_assoc]

theorem memOfKeys_toOption_iff {keys : Option ℤ × Option ℤ} :
    (memOfKeys keys).toOption.isSome ↔ keys.1.isSome ∧ keys.2.isSome := by
  obtain ⟨total, available⟩ := keys
  cases total with
  | none => exact iff_of_false nofun fun both => nomatch both.1
  | some total =>
    cases available with
    | none => exact iff_of_false nofun fun both => nomatch both.2
    | some available => exact iff_of_true rfl ⟨rfl, rfl⟩

theorem keyOfLine_iff {line key : Bytes} :
    (∃ kb, keyOfLine line = some (key, kb)) ↔ firstWord line = key := by
  have label : (keyInput.run (ofText line)).1.1 = firstWord line := word_ofText line
  unfold keyOfLine
  constructor
  · rintro ⟨kb, same⟩
    rw [← label, Option.some.inj same]
  · intro same
    exact ⟨_, congrArg some (Prod.ext (label.trans same) rfl)⟩

theorem keyOfWords_iff {line key : Bytes} : (∃ kb, keyOfWords line = some (key, kb)) ↔
    ∃ kb more, words line = key :: kb :: more ∧ (parseInt kb).isSome := by
  unfold keyOfWords
  split
  · next name text more shape =>
    rw [shape]
    simp only [Option.map_eq_some_iff, Prod.mk.injEq, List.cons.injEq, Option.isSome_iff_exists]
    constructor
    · rintro ⟨kb, v, read, rfl, -⟩
      exact ⟨text, more, ⟨rfl, rfl, rfl⟩, v, read⟩
    · rintro ⟨_, _, ⟨rfl, rfl, rfl⟩, v, read⟩
      exact ⟨v, v, read, rfl, rfl⟩
  · next short =>
    refine iff_of_false (by rintro ⟨_, ⟨⟩⟩) ?_
    rintro ⟨kb, more, same, -⟩
    exact short _ _ _ same

theorem memOfLines_iff : (memOfKeys (memKeys entry (none, none) all)).toOption.isSome ↔
    (∃ line ∈ all, ∃ kb, entry line = some (memTotal, kb)) ∧
      ∃ line ∈ all, ∃ kb, entry line = some (memAvailable, kb) := by
  rw [memOfKeys_toOption_iff, isSome_memKeys_iff]
  simp

theorem readMeminfo_iff {lang : Language} {source : Source} :
    (readMeminfo lang source).toOption.isSome ↔ HasKeys lang source := by
  cases lang with
  | cpp =>
    cases source with
    | none => exact iff_of_false nofun (by rintro ⟨_, ⟨_, ⟨⟩, -⟩, -⟩)
    | some f =>
      refine memOfLines_iff.trans ?_
      simp [HasKeys, Lines, Gives, keyOfLine_iff]
  | rust =>
    unfold readMeminfo HasKeys Lines Gives
    dsimp only
    cases readToString source with
    | none => exact iff_of_false nofun (by rintro ⟨_, ⟨_, ⟨⟩, -⟩, -⟩)
    | some text =>
      refine memOfLines_iff.trans ?_
      simp [keyOfWords_iff]
  | go =>
    cases source with
    | none => exact iff_of_false nofun (by rintro ⟨_, ⟨_, ⟨⟩, -⟩, -⟩)
    | some f =>
      refine memOfLines_iff.trans ?_
      simp [HasKeys, Lines, Gives, keyOfWords_iff]

end Keys

/-! The lists of devices. -/

section Lists

variable {lang : Language} {source : Source}

theorem scanOk_iff {f : File} : scanOk f ↔
    f.broken = false ∧ ∀ line ∈ lines newline f.text, line.length < maxScanTokenSize := by
  simp [scanOk]

theorem readDiskstats_iff : (readDiskstats lang source).toOption.isSome ↔ Lists lang source := by
  cases lang with
  | cpp =>
    cases source with
    | _ => simp [readDiskstats, Lists, Except.toOption]
  | rust =>
    unfold readDiskstats Lists
    dsimp only
    cases readToString source with
    | _ => simp [Except.toOption]
  | go =>
    cases source with
    | none => exact iff_of_false (by rintro ⟨⟩) (by rintro ⟨_, ⟨⟩, -⟩)
    | some f =>
      unfold readDiskstats Lists
      simp only [Option.some.injEq, exists_eq_left', ← scanOk_iff]
      split
      · next ok => exact iff_of_true rfl ok
      · next bad => exact iff_of_false (by rintro ⟨⟩) bad

theorem readNetdev_iff : (readNetdev lang source).toOption.isSome ↔ Lists lang source := by
  cases lang with
  | cpp =>
    cases source with
    | _ => simp [readNetdev, Lists, Except.toOption]
  | rust =>
    unfold readNetdev Lists
    dsimp only
    cases readToString source with
    | _ => simp [Except.toOption]
  | go =>
    cases source with
    | none => exact iff_of_false (by rintro ⟨⟩) (by rintro ⟨_, ⟨⟩, -⟩)
    | some f =>
      unfold readNetdev Lists
      simp only [Option.some.injEq, exists_eq_left', ← scanOk_iff]
      split
      · next ok => exact iff_of_true rfl ok
      · next bad => exact iff_of_false (by rintro ⟨⟩) bad

end Lists

end LinuxSys.Sysagent.Procfs
