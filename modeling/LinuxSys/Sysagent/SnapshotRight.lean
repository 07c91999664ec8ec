import LinuxSys.Sysagent.TakeSnapshot

/-! # When a snapshot of sysagent is right

The order in which the readers finish does not matter. C++ is wrong where a single required source
is missing and where a number makes it throw, Rust and Go where only the system has pressure files;
all are where an integer is too large.
-/

namespace LinuxSys.Sysagent.Procfs

open Lib InStream

section Snapshot

variable {F : Type} {num : Doubles F} {lang : Language} {src : Sources} {order : List Worker}

theorem toOption_eq_some_iff {α : Type} {result : Except Fault α} {a : α} :
    result.toOption = some a ↔ result = .ok a := by
  cases result with
  | ok b => simp [Except.toOption]
  | error e => exact iff_of_false (by rintro ⟨⟩) (by rintro ⟨⟩)

theorem exists_ok_of_isSome {α : Type} {result : Except Fault α} (isSome : result.toOption.isSome) :
    ∃ a, result = .ok a := by
  obtain ⟨a, same⟩ := Option.isSome_iff_exists.mp isSome
  exact ⟨a, toOption_eq_some_iff.mp same⟩

theorem exists_error_of_not_isSome {α : Type} {result : Except Fault α}
    (none : ¬ result.toOption.isSome) : ∃ fault, result = .error fault := by
  cases result with
  | ok a => exact absurd rfl none
  | error fault => exact ⟨fault, rfl⟩

/-- There is a snapshot to take if all sources can be read. -/
theorem sampleOf_isSome_iff : (sampleOf num lang src).isSome ↔ Reads num lang src := by
  have all : (sampleOf num lang src).isSome ↔ (readCpuTicks lang src.stat).toOption.isSome ∧
      (readLoadavg num lang src.loadavg).toOption.isSome ∧
      (readMeminfo lang src.meminfo).toOption.isSome ∧
      (readDiskstats lang src.diskstats).toOption.isSome ∧
      (readNetdev lang src.netDev).toOption.isSome ∧
      (readCpuTicks lang src.statAgain).toOption.isSome := by
    simp [sampleOf, Option.isSome_iff_exists, Option.bind_eq_some_iff]
  rw [all, readCpuTicks_iff, readLoadavg_iff, readMeminfo_iff, readDiskstats_iff, readNetdev_iff,
    readCpuTicks_iff]
  constructor
  · rintro ⟨stat, load, mem, disk, net, again⟩
    refine ⟨stat, fun w => ?_, again⟩
    cases w with
    | load => exact load
    | mem => exact mem
    | disk => exact disk
    | net => exact net
    | psi => trivial
  · intro reads
    exact ⟨reads.stat, reads.readers .load, reads.readers .mem, reads.readers .disk,
      reads.readers .net, reads.statAgain⟩

theorem right_error_iff {fault : Option Fault} :
    Right num lang src (.error fault) ↔ ¬ Reads num lang src := by
  rw [← sampleOf_isSome_iff, Option.not_isSome_iff_eq_none]
  exact Iff.rfl

theorem takeSnapshot_of_no_ticks (none : ¬ HasTicks lang src.stat) :
    ∃ fault, takeSnapshot num lang order src = .error fault := by
  obtain ⟨fault, failed⟩ := exists_error_of_not_isSome (mt readCpuTicks_iff.mp none)
  unfold takeSnapshot
  rw [failed]
  exact ⟨_, rfl⟩

theorem takeSnapshot_of_dies (perm : order.Perm Worker.all) (stat : HasTicks lang src.stat)
    {w : Worker} (dies : Dies num lang src w) : takeSnapshot num lang order src = .died := by
  obtain ⟨t0, first⟩ := exists_ok_of_isSome (readCpuTicks_iff.mpr stat)
  unfold takeSnapshot
  rw [first, foldlM_work_of_dies (mem_of_perm (joined_perm perm) w) dies]

/-- What the readers leave behind. -/
def gathered (num : Doubles F) (lang : Language) (src : Sources) (order : List Worker) : Gather F where
  snap := Worker.all.foldl (fill num lang src) (start num).snap
  okCount := Worker.all.countP fun w => (fault num lang src w).isNone
  firstError := (joined lang order).findSome? (fault num lang src)

theorem foldlM_work_start (perm : order.Perm Worker.all) (lives : ∀ w, ¬ Dies num lang src w) :
    (joined lang order).foldlM (work num lang src) (start num) =
      some (gathered num lang src order) := by
  rw [foldlM_work (fun w _ => lives w), foldl_fill_perm (joined_perm perm),
    (joined_perm perm).countP_eq]
  simp [gathered, start]

theorem enough_cpp_iff (lives : ∀ w, ¬ Dies num .cpp src w) :
    enough .cpp (gathered num .cpp src order) ↔
      (∀ w, Readable num .cpp src w) ∨ ∃! w, ¬ Readable num .cpp src w := by
  have same : ∀ w, ((fault num .cpp src w).isNone = true) = Readable num .cpp src w := by
    intro w
    rw [Option.isNone_iff_eq_none, fault_eq_none_iff (lives w)]
  unfold enough gathered
  simp only [decide_eq_true_eq, four_le_countP_iff, same]

theorem enough_other_iff (other : lang ≠ .cpp) (perm : order.Perm Worker.all)
    (lives : ∀ w, ¬ Dies num lang src w) :
    enough lang (gathered num lang src order) ↔ ∀ w, Readable num lang src w := by
  have none : enough lang (gathered num lang src order) ↔
      (gathered num lang src order).firstError = none := by
    cases lang with
    | cpp => exact absurd rfl other
    | rust | go => exact Option.isNone_iff_eq_none
  rw [none, gathered, List.findSome?_eq_none_iff]
  constructor
  · exact fun all w => (fault_eq_none_iff (lives w)).mp (all w (mem_of_perm (joined_perm perm) w))
  · exact fun all w _ => (fault_eq_none_iff (lives w)).mpr (all w)

theorem takeSnapshot_of_lives (perm : order.Perm Worker.all) (lives : ∀ w, ¬ Dies num lang src w)
    {t0 : CpuTicks} (first : readCpuTicks lang src.stat = .ok t0) :
    takeSnapshot num lang order src =
      if enough lang (gathered num lang src order) then
        match readCpuTicks lang src.statAgain with
        | .ok t1 =>
          match shares lang t0 t1 with
          | some cpu => .snapshot { (gathered num lang src order).snap with cpu := cpu }
          | none => .died
        | .error fault => .error (some fault)
      else .error (gathered num lang src order).firstError := by
  unfold takeSnapshot
  rw [first, foldlM_work_start perm lives] <;> rfl

theorem takeSnapshot_of_no_ticks_again (perm : order.Perm Worker.all)
    (lives : ∀ w, ¬ Dies num lang src w) (stat : HasTicks lang src.stat)
    (none : ¬ HasTicks lang src.statAgain) :
    ∃ fault, takeSnapshot num lang order src = .error fault := by
  obtain ⟨t0, first⟩ := exists_ok_of_isSome (readCpuTicks_iff.mpr stat)
  obtain ⟨fault, failed⟩ := exists_error_of_not_isSome (mt readCpuTicks_iff.mp none)
  rw [takeSnapshot_of_lives perm lives first, failed]
  split
  · exact ⟨_, rfl⟩
  · exact ⟨_, rfl⟩

/-- With all sources read, the snapshot is right if the arithmetic is and pressure is found. -/
theorem right_snapshot_iff (reads : Reads num lang src) (lives : ∀ w, ¬ Dies num lang src w)
    {t0 t1 : CpuTicks} {cpu : Option Shares} (first : readCpuTicks lang src.stat = .ok t0)
    (second : readCpuTicks lang src.statAgain = .ok t1) :
    Right num lang src (.snapshot { (gathered num lang src order).snap with cpu := cpu }) ↔
      sharesOf t0 t1 = cpu ∧ MemFits lang src ∧ psiOf num lang src = readPsi num lang src := by
  obtain ⟨load, loads⟩ := Option.isSome_iff_exists.mp (readLoadavg_iff.mpr (reads.readers .load))
  obtain ⟨mi, mem⟩ := exists_ok_of_isSome (readMeminfo_iff.mpr (reads.readers .mem))
  obtain ⟨disks, disk⟩ := exists_ok_of_isSome (readDiskstats_iff.mpr (reads.readers .disk))
  obtain ⟨net, nets⟩ := exists_ok_of_isSome (readNetdev_iff.mpr (reads.readers .net))
  obtain ⟨used, computed⟩ : ∃ used, arith lang (mi.totalKb - mi.availableKb) = some used :=
    Option.ne_none_iff_exists'.mp fun none => lives .mem ⟨mi, mem, none⟩
  have fits : MemFits lang src ↔ mi.totalKb - mi.availableKb = used := by
    unfold MemFits
    rw [mem]
    constructor
    · intro fits
      have same : arith lang _ = some _ := arith_eq_self_iff.mpr (fits mi rfl)
      exact Option.some.inj (same.symm.trans computed)
    · rintro same _ ⟨⟩
      exact arith_eq_self_iff.mp (computed.trans (congrArg some same.symm))
  have sample : sampleOf num lang src = some ⟨sharesOf t0 t1, load,
      ⟨mi.totalKb, mi.availableKb, mi.totalKb - mi.availableKb⟩, disks, net, psiOf num lang src⟩ := by
    simp [sampleOf, first, second, loads, mem, disk, nets, Except.toOption]
  have snap : (gathered num lang src order).snap = ⟨none, load,
      ⟨mi.totalKb, mi.availableKb, used⟩, disks, net, readPsi num lang src⟩ := by
    simp [gathered, Worker.all, fill, start, loads, mem, disk, nets, computed, Except.toOption]
  rw [Right, sample, snap, fits]
  simp

theorem readPsiFrom_eq_none_iff {file : Resource → Source} :
    readPsiFrom num lang file = none ↔ ∀ r, readPressure num lang (file r) = none := by
  unfold readPsiFrom
  dsimp only
  rw [ite_eq_left_iff]
  simp only [Option.isNone_iff_eq_none, reduceCtorEq, imp_false, not_not]
  constructor
  · rintro ⟨cpu, memory, io⟩ r
    cases r with
    | cpu => exact cpu
    | memory => exact memory
    | io => exact io
  · exact fun none => ⟨none .cpu, none .memory, none .io⟩

/-- Rust and Go find no pressure but the own group's. -/
theorem psiOf_eq_iff (other : lang ≠ .cpp) :
    psiOf num lang src = readPsi num lang src ↔ PsiFound num lang src := by
  have missing : systemPressure lang src = fun _ => none := by
    cases lang with
    | cpp => exact absurd rfl other
    | rust | go => rfl
  have none : readPsiFrom num lang (fun _ => none) = none := by
    rw [readPsiFrom_eq_none_iff]
    intro r
    cases lang with
    | _ => rfl
  unfold psiOf readPsi PsiFound
  rw [missing, none, ← readPsiFrom_eq_none_iff]
  cases readPsiOfGroup num lang src with
  | none => simp
  | some psi => simp

/-- A reader in C++ ends the process over a number or over the used memory. -/
theorem lives_cpp_iff :
    (∀ w, ¬ Dies num .cpp src w) ↔ ¬ Throws num src.loadavg ∧ MemFits .cpp src := by
  have narrow : ∀ x, arith .cpp x ≠ none ↔ Fits x := by simp [arith]
  constructor
  · intro lives
    refine ⟨fun throws => lives .load (readLoadavg_cpp_thrown_iff.mpr throws), fun mi read => ?_⟩
    exact (narrow _).mp fun wide => lives .mem ⟨mi, read, wide⟩
  · rintro ⟨numbers, fits⟩ w dies
    cases w with
    | load => exact numbers (readLoadavg_cpp_thrown_iff.mp dies)
    | mem =>
      obtain ⟨mi, read, wide⟩ := dies
      exact (narrow _).mpr (fits mi read) wide
    | disk | net | psi => cases dies

theorem lives_other (other : lang ≠ .cpp) (w : Worker) : ¬ Dies num lang src w := by
  cases w with
  | load => exact readLoadavg_ne_thrown other
  | mem =>
    rintro ⟨mi, -, wide⟩
    rw [arith_of_ne other] at wide
    cases wide
  | disk | net | psi => exact id

/-- Once every source was read, C++ is right if its arithmetic is. -/
theorem right_cpp_of_reads (perm : order.Perm Worker.all) (lives : ∀ w, ¬ Dies num .cpp src w)
    (reads : Reads num .cpp src) {t0 t1 : CpuTicks} (first : readCpuTicks .cpp src.stat = .ok t0)
    (second : readCpuTicks .cpp src.statAgain = .ok t1) :
    Right num .cpp src (takeSnapshot num .cpp order src) ↔ TicksFit .cpp t0 t1 := by
  have mem : MemFits .cpp src := (lives_cpp_iff.mp lives).2
  rw [takeSnapshot_of_lives perm lives first, if_pos ((enough_cpp_iff lives).mpr (.inl reads.readers)),
    second]
  by_cases fit : TicksFit .cpp t0 t1
  · have computed : shares .cpp t0 t1 = some (sharesOf t0 t1) := shares_cpp_iff.mpr ⟨fit, rfl⟩
    simp only [computed]
    rw [right_snapshot_iff reads lives first second]
    exact iff_of_true ⟨rfl, mem, rfl⟩ fit
  · have overflows : shares .cpp t0 t1 = none :=
      Option.eq_none_iff_forall_ne_some.mpr fun cpu same => fit (shares_cpp_iff.mp same).1
    simp only [overflows]
    exact iff_of_false id fit

/-- With a source missing, C++ is right if it is not the only one. -/
theorem right_cpp_of_missing (perm : order.Perm Worker.all) (lives : ∀ w, ¬ Dies num .cpp src w)
    (stat : HasTicks .cpp src.stat) (again : HasTicks .cpp src.statAgain)
    (missing : ¬ ∀ w, Readable num .cpp src w) :
    Right num .cpp src (takeSnapshot num .cpp order src) ↔
      ¬ ∃! w, ¬ Readable num .cpp src w := by
  obtain ⟨t0, first⟩ := exists_ok_of_isSome (readCpuTicks_iff.mpr stat)
  obtain ⟨t1, second⟩ := exists_ok_of_isSome (readCpuTicks_iff.mpr again)
  have none : sampleOf num .cpp src = none :=
    Option.not_isSome_iff_eq_none.mp fun some => missing (sampleOf_isSome_iff.mp some).readers
  rw [takeSnapshot_of_lives perm lives first, second]
  by_cases alone : ∃! w, ¬ Readable num .cpp src w
  · rw [if_pos ((enough_cpp_iff lives).mpr (.inr alone))]
    refine iff_of_false ?_ (not_not.mpr alone)
    simp only
    cases shares .cpp t0 t1 with
    | none => exact id
    | some cpu =>
      intro same
      rw [Right, none] at same
      cases same
  · have few : ¬ enough .cpp (gathered num .cpp src order) :=
      mt (enough_cpp_iff lives).mp (not_or.mpr ⟨missing, alone⟩)
    rw [if_neg few]
    exact iff_of_true none alone

theorem right_cpp_iff (perm : order.Perm Worker.all) :
    Right num .cpp src (takeSnapshot num .cpp order src) ↔
      (HasTicks .cpp src.stat → FineCpp num src) := by
  by_cases stat : HasTicks .cpp src.stat
  · rw [imp_iff_right stat]
    by_cases lives : ∀ w, ¬ Dies num .cpp src w
    · obtain ⟨numbers, mem⟩ := lives_cpp_iff.mp lives
      by_cases again : HasTicks .cpp src.statAgain
      · by_cases readers : ∀ w, Readable num .cpp src w
        · obtain ⟨t0, first⟩ := exists_ok_of_isSome (readCpuTicks_iff.mpr stat)
          obtain ⟨t1, second⟩ := exists_ok_of_isSome (readCpuTicks_iff.mpr again)
          rw [right_cpp_of_reads perm lives ⟨stat, readers, again⟩ first second]
          constructor
          · intro fit
            refine ⟨numbers, mem, fun _ ⟨w, broken, _⟩ => broken (readers w), ?_⟩
            intro _ s0 s1 one two
            rw [first] at one
            rw [second] at two
            cases one
            cases two
            exact fit
          · exact fun fine => fine.ticks readers t0 t1 first second
        · rw [right_cpp_of_missing perm lives stat again readers]
          constructor
          · exact fun alone => ⟨numbers, mem, fun _ => alone, fun all => absurd all readers⟩
          · exact fun fine => fine.notAlone again
      · obtain ⟨fault, failed⟩ := takeSnapshot_of_no_ticks_again perm lives stat again
        rw [failed, right_error_iff]
        refine iff_of_true (fun reads => again reads.statAgain) ?_
        refine ⟨numbers, mem, fun here => absurd here again, fun _ s0 s1 _ two => ?_⟩
        exact absurd (readCpuTicks_iff.mp (by rw [two]; rfl)) again
    · obtain ⟨w, dies⟩ := not_forall_not.mp lives
      rw [takeSnapshot_of_dies perm stat dies]
      exact iff_of_false id fun fine => lives (lives_cpp_iff.mpr ⟨fine.numbers, fine.mem⟩)
  · obtain ⟨fault, failed⟩ : ∃ fault, takeSnapshot num .cpp order src = .error fault :=
      takeSnapshot_of_no_ticks stat
    rw [failed, right_error_iff]
    exact iff_of_true (fun reads => stat reads.stat) fun here => absurd here stat

theorem right_other_iff (other : lang ≠ .cpp) (perm : order.Perm Worker.all) :
    Right num lang src (takeSnapshot num lang order src) ↔
      (Reads num lang src → FineOther num lang src) := by
  by_cases stat : HasTicks lang src.stat
  · have lives : ∀ w, ¬ Dies num lang src w := lives_other other
    obtain ⟨t0, first⟩ := exists_ok_of_isSome (readCpuTicks_iff.mpr stat)
    rw [takeSnapshot_of_lives perm lives first]
    by_cases readers : ∀ w, Readable num lang src w
    · rw [if_pos ((enough_other_iff other perm lives).mpr readers)]
      by_cases again : HasTicks lang src.statAgain
      · obtain ⟨t1, second⟩ := exists_ok_of_isSome (readCpuTicks_iff.mpr again)
        have reads : Reads num lang src := ⟨stat, readers, again⟩
        rw [second, imp_iff_right reads]
        simp only [shares_wrapping other]
        rw [right_snapshot_iff reads lives first second, eq_comm, sharesWrapped_iff other,
          psiOf_eq_iff other]
        constructor
        · rintro ⟨ticks, mem, psi⟩
          refine ⟨mem, fun s0 s1 one two => ?_, psi⟩
          rw [first] at one
          rw [second] at two
          cases one
          cases two
          exact ticks
        · intro fine
          exact ⟨fine.ticks t0 t1 first second, fine.mem, fine.psi⟩
      · obtain ⟨fault, failed⟩ := exists_error_of_not_isSome (mt readCpuTicks_iff.mp again)
        rw [failed]
        refine iff_of_true (right_error_iff.mpr fun reads => again reads.statAgain) fun reads => ?_
        exact absurd reads.statAgain again
    · rw [if_neg (mt (enough_other_iff other perm lives).mp readers), right_error_iff]
      refine iff_of_true (fun reads => readers reads.readers) fun reads => ?_
      exact absurd reads.readers readers
  · obtain ⟨fault, failed⟩ := takeSnapshot_of_no_ticks stat
    rw [failed, right_error_iff]
    exact iff_of_true (fun reads => stat reads.stat) fun reads => absurd reads.stat stat

theorem right_succeeds_iff {out : Outcome F} (right : Right num lang src out) :
    out.succeeds ↔ Reads num lang src := by
  rw [← sampleOf_isSome_iff]
  cases out with
  | snapshot s =>
    rw [Right] at right
    rw [right]
    exact iff_of_true trivial rfl
  | error fault =>
    rw [Right] at right
    rw [right]
    exact iff_of_false id nofun
  | died => cases right

end Snapshot

/-- Every version takes the snapshot that there is, and they succeed alike, exactly if the sources
are fine and all of them can read theirs or none can. -/
theorem takeSnapshot_right_iff {F : Type} (num : Doubles F) (order : Language → List Worker)
    (perm : ∀ lang, (order lang).Perm Worker.all) (src : Sources) :
    ((∀ lang, Right num lang src (takeSnapshot num lang (order lang) src)) ∧
      ∀ lang other, (takeSnapshot num lang (order lang) src).succeeds ↔
        (takeSnapshot num other (order other) src).succeeds) ↔
    Fine num src ∧ ((∀ lang, Reads num lang src) ∨ ∀ lang, ¬ Reads num lang src) := by
  have rustOther : Language.rust ≠ .cpp := nofun
  have goOther : Language.go ≠ .cpp := nofun
  have fine : (∀ lang, Right num lang src (takeSnapshot num lang (order lang) src)) ↔
      Fine num src := by
    constructor
    · intro right
      exact ⟨(right_cpp_iff (perm .cpp)).mp (right .cpp),
        (right_other_iff rustOther (perm .rust)).mp (right .rust),
        (right_other_iff goOther (perm .go)).mp (right .go)⟩
    · rintro ⟨cpp, rust, go⟩ lang
      cases lang with
      | cpp => exact (right_cpp_iff (perm .cpp)).mpr cpp
      | rust => exact (right_other_iff rustOther (perm .rust)).mpr rust
      | go => exact (right_other_iff goOther (perm .go)).mpr go
  rw [← fine]
  refine and_congr_right fun right => ?_
  have succeeds := fun lang => right_succeeds_iff (right lang)
  simp only [succeeds]
  constructor
  · intro alike
    by_cases here : Reads num .cpp src
    · exact .inl fun lang => (alike .cpp lang).mp here
    · exact .inr fun lang reads => here ((alike lang .cpp).mp reads)
  · rintro (all | none) lang other
    · exact iff_of_true (all lang) (all other)
    · exact iff_of_false (none lang) (none other)

/-- A double with two digits behind the point, in hundredths. -/
def hundredths (text : Bytes) : Option ℕ := some (digitsValue (text.filter isDigit))

def hundredthsOnly : Doubles ℕ where
  zero := 0
  strtod := hundredths
  scan := fun text => hundredths (text.takeWhile fun b => b ≠ 0x20)
  rust := hundredths
  go := hundredths

def file (text : String) : Source := some ⟨ascii text, false⟩

/-- Sources that can all be read. -/
def healthy : Sources where
  stat := file "cpu  1 0 1 8 0 0 0 0 0 0\nintr 5\n"
  statAgain := file "cpu  3 0 2 15 0 0 0 0 0 0\nintr 6\n"
  loadavg := file "0.10 0.20 0.30 1/25 77\n"
  meminfo := file "MemTotal:    100 kB\nMemFree:    10 kB\nMemAvailable:    40 kB\n"
  diskstats := file "   8       0 sda 1 2 3 4 5 6 7 8\n   7       0 loop0 1 2 3 4 5 6 7 8\n"
  netDev := file "Inter-|   Receive\n face |bytes\n    lo: 10 0 0 0 0 0 0 0 20 0\n"
  selfCgroup := file "0::/user.slice\n"
  groupPressure := fun rel r =>
    if rel = ascii "/user.slice" ∧ r = .cpu then file "some avg10=1.50 avg60=0.00\n" else none
  pressure := fun _ => none

def healthySample : Sample ℕ where
  cpu := some ⟨3, 2, 1, 10⟩
  load := ⟨10, 20, 30, 1, 25⟩
  mem := ⟨100, 40, 60⟩
  disks := [⟨ascii "sda", 1, 5, 3, 7⟩]
  net := [⟨ascii "lo", 10, 20⟩]
  psi := some ⟨150, 0, 0⟩

def lastFirst : List Worker := [.psi, .net, .disk, .mem, .load]

theorem takeSnapshot_healthy (lang : Language) :
    takeSnapshot hundredthsOnly lang lastFirst healthy = .snapshot healthySample := by
  cases lang with
  | _ => decide +kernel

theorem sampleOf_healthy (lang : Language) :
    sampleOf hundredthsOnly lang healthy = some healthySample := by
  cases lang with
  | _ => decide +kernel

theorem takeSnapshot_right_iff_healthy : Fine hundredthsOnly healthy ∧
    ((∀ lang, Reads hundredthsOnly lang healthy) ∨ ∀ lang, ¬ Reads hundredthsOnly lang healthy) := by
  refine (takeSnapshot_right_iff hundredthsOnly (fun _ => lastFirst) (fun _ => by decide)
    healthy).mp ⟨fun lang => ?_, fun lang other => ?_⟩
  · rw [takeSnapshot_healthy]
    exact sampleOf_healthy lang
  · rw [takeSnapshot_healthy, takeSnapshot_healthy]

/-- `/proc/net/dev` cannot be opened, and C++ takes a snapshot without interfaces. -/
theorem not_always_right : ¬ ∀ (src : Sources) (lang : Language) (order : List Worker),
    order.Perm Worker.all →
      Right hundredthsOnly lang src (takeSnapshot hundredthsOnly lang order src) := by
  intro right
  have here := right { healthy with netDev := none } .cpp lastFirst (by decide)
  have taken : takeSnapshot hundredthsOnly .cpp lastFirst { healthy with netDev := none } =
      .snapshot { healthySample with net := [] } := by decide +kernel
  have missing : sampleOf hundredthsOnly .cpp { healthy with netDev := none } = none := by
    decide +kernel
  rw [taken, Right, missing] at here
  cases here

end LinuxSys.Sysagent.Procfs
