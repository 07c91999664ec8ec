import LinuxSys.Lib.Extract
import LinuxSys.Lib.Fields
import LinuxSys.Lib.Lines
import LinuxSys.Sysagent.Json

/-! # What sysagent reads

The readers of `/proc/stat`, `/proc/loadavg`, `/proc/meminfo`, `/proc/diskstats`, `/proc/net/dev`
and of the pressure files. C++ reads line by line and takes a number that it cannot read for zero,
Rust reads a whole file and wants UTF-8, Go scans lines of less than 64 KiB; what they make of the
text of a double is a parameter.
-/

namespace LinuxSys.Sysagent.Procfs

open Lib InStream

def newline : UInt8 := 0x0A

def slash : UInt8 := 0x2F

def colon : UInt8 := 0x3A

/-- What a file that was opened gives: a text, and whether a read behind it fails. -/
structure File where
  text : Bytes
  broken : Bool := false
deriving DecidableEq, Repr

/-- `none` if it cannot be opened. -/
abbrev Source := Option File

inductive Resource where
  | cpu
  | memory
  | io
deriving DecidableEq, Repr

/-- The two readings of `/proc/stat` and all that is read between them. The pressure files are those
of a group, `/sys/fs/cgroup<path>/<resource>.pressure`, and the system's,
`/proc/pressure/<resource>`. -/
structure Sources where
  stat : Source
  statAgain : Source
  loadavg : Source
  meminfo : Source
  diskstats : Source
  netDev : Source
  selfCgroup : Source
  groupPressure : Bytes → Resource → Source
  pressure : Resource → Source

/-- What `strtod` makes of the characters that a stream collects, `sscanf` of a text that `%lf`
stands for, `parse` and `ParseFloat` of a word. -/
structure Doubles (F : Type) where
  zero : F
  strtod : Bytes → Option F
  scan : Bytes → Option F
  rust : Bytes → Option F
  go : Bytes → Option F

inductive ProcFile where
  | stat
  | loadavg
  | meminfo
  | diskstats
  | netDev
deriving DecidableEq, Repr

/-- What a reader has to complain about. -/
inductive Complaint where
  | cannotOpen
  | cannotRead
  | empty
  | firstLine
  | number
  | shape
  | runningTotal
  | missingKeys
deriving DecidableEq, Repr

structure Fault where
  file : ProcFile
  complaint : Complaint
deriving DecidableEq, Repr

def orFault {α : Type} (file : ProcFile) (complaint : Complaint) (a : Option α) : Except Fault α :=
  a.elim (.error ⟨file, complaint⟩) .ok

/-- What the C++ reader of `/proc/loadavg` may do: nobody catches what it throws. -/
inductive Read (α : Type) where
  | done (result : Except Fault α)
  | thrown

def Read.toOption {α : Type} : Read α → Option α
  | .done result => result.toOption
  | .thrown => none

/-! Files and lines. -/

/-- The lines that `getline` gives: one that a read fails in is lost. -/
def getlines (f : File) : List Bytes :=
  if f.broken then (cutLines newline f.text).1 else lines newline f.text

def readFile (source : Source) : Option Bytes :=
  source.bind fun f => if f.broken then none else some f.text

def readToString (source : Source) : Option Bytes :=
  (readFile source).bind fun text => if Utf8.lossy text = text then some text else none

def dropCR (line : Bytes) : Bytes := if line.getLast? = some 0x0D then line.dropLast else line

/-- `str::lines`: a line that has no end keeps its carriage return. -/
def strLines (text : Bytes) : List Bytes :=
  let (whole, last) := cutLines newline text
  whole.map dropCR ++ if last = [] then [] else [last]

/-- `bufio.MaxScanTokenSize`. -/
def maxScanTokenSize : ℕ := 64 * 1024

/-- The lines of a `Scanner`: those in front of one that is too long; one that a read fails in is
given as far as it was read. -/
def scanLines (f : File) : List Bytes :=
  ((lines newline f.text).takeWhile fun line => line.length < maxScanTokenSize).map dropCR

/-- `Err() == nil` after the last line. -/
def scanOk (f : File) : Bool :=
  !f.broken && (lines newline f.text).all fun line => line.length < maxScanTokenSize

def words (text : Bytes) : List Bytes := fields Utf8.spaces text

def parseInt (text : Bytes) : Option ℤ := IntParser.parse64.parse text

/-- The value that `ParseInt` gives beside an error: the nearest one if digits alone exceed a word.
-/
def parseIntNear (text : Bytes) : ℤ :=
  let (negative, body) := IntParser.parse64.sign text
  let digits := body.takeWhile isDigit
  if 2 ^ 64 ≤ digitsValue digits ∨ digits = body then
    max (-2 ^ 63) (min (2 ^ 63 - 1) (IntParser.value negative digits))
  else 0

/-! `/proc/stat`. -/

structure CpuTicks where
  user : ℤ := 0
  nice : ℤ := 0
  system : ℤ := 0
  idle : ℤ := 0
  iowait : ℤ := 0
  irq : ℤ := 0
  softirq : ℤ := 0
  steal : ℤ := 0
deriving DecidableEq, Repr

def cpu : Bytes := ascii "cpu"

def ticksInput : StateM InStream (Bytes × CpuTicks) := do
  let label ← word
  let user ← int
  let nice ← int
  let system ← int
  let idle ← int
  let iowait ← int
  let irq ← int
  let softirq ← int
  let steal ← int
  return (label, ⟨user, nice, system, idle, iowait, irq, softirq, steal⟩)

def ticksOfLine (line : Bytes) : Except Fault CpuTicks :=
  let (label, ticks) := (ticksInput.run (ofText line)).1
  if label ≠ cpu then .error ⟨.stat, .firstLine⟩ else .ok ticks

def ticksOfWords : List Bytes → Except Fault CpuTicks
  | label :: user :: nice :: system :: idle :: iowait :: irq :: softirq :: steal :: _ =>
    if label ≠ cpu then .error ⟨.stat, .firstLine⟩
    else orFault .stat .number do
      return ⟨← parseInt user, ← parseInt nice, ← parseInt system, ← parseInt idle,
        ← parseInt iowait, ← parseInt irq, ← parseInt softirq, ← parseInt steal⟩
  | _ => .error ⟨.stat, .firstLine⟩

def readCpuTicks (lang : Language) (source : Source) : Except Fault CpuTicks :=
  match lang with
  | .cpp =>
    match source with
    | none => .error ⟨.stat, .cannotOpen⟩
    | some f =>
      match getlines f with
      | [] => .error ⟨.stat, .empty⟩
      | line :: _ => ticksOfLine line
  | .rust =>
    match readToString source with
    | none => .error ⟨.stat, .cannotRead⟩
    | some text =>
      match strLines text with
      | [] => .error ⟨.stat, .empty⟩
      | line :: _ => ticksOfWords (words line)
  | .go =>
    match source with
    | none => .error ⟨.stat, .cannotOpen⟩
    | some f =>
      match scanLines f with
      | [] => .error ⟨.stat, .cannotRead⟩
      | line :: _ => ticksOfWords (words line)

/-! `/proc/loadavg`. -/

section LoadAvg

variable {F : Type} (num : Doubles F)

structure LoadAvg (F : Type) where
  load1 : F
  load5 : F
  load15 : F
  runnable : ℤ
  totalThreads : ℤ
deriving DecidableEq, Repr

/-- The three doubles and the field `running/total`. -/
structure LoadInput (F : Type) where
  load1 : F
  load5 : F
  load15 : F
  running : Bytes
deriving DecidableEq, Repr

def loadInput : StateM InStream (LoadInput F) := do
  let load1 ← double num.zero num.strtod
  let load5 ← double num.zero num.strtod
  let load15 ← double num.zero num.strtod
  let running ← word
  let _lastPid ← int
  return ⟨load1, load5, load15, running⟩

def loadOfStream (f : File) : Read (LoadAvg F) :=
  let (input, s) := (loadInput num).run ⟨f.text, f.broken, false, false⟩
  if s.failed ∧ ¬ s.ended then .done (.error ⟨.loadavg, .shape⟩)
  else
    match splitFirst? slash input.running with
    | none => .done (.error ⟨.loadavg, .runningTotal⟩)
    | some (run, total) =>
      match stoll run, stoll total with
      | some runnable, some totalThreads =>
        .done (.ok ⟨input.load1, input.load5, input.load15, runnable, totalThreads⟩)
      | _, _ => .thrown

def loadOfWords (parse : Bytes → Option F) : List Bytes → Except Fault (LoadAvg F)
  | load1 :: load5 :: load15 :: running :: _ =>
    match parse load1, parse load5, parse load15 with
    | some load1, some load5, some load15 =>
      match splitFirst? slash running with
      | none => .error ⟨.loadavg, .runningTotal⟩
      | some (run, total) => orFault .loadavg .number do
        return ⟨load1, load5, load15, ← parseInt run, ← parseInt total⟩
    | _, _, _ => .error ⟨.loadavg, .number⟩
  | _ => .error ⟨.loadavg, .shape⟩

def readLoadavg (lang : Language) (source : Source) : Read (LoadAvg F) :=
  match lang with
  | .cpp =>
    match source with
    | none => .done (.error ⟨.loadavg, .cannotOpen⟩)
    | some f => loadOfStream num f
  | .rust =>
    match readToString source with
    | none => .done (.error ⟨.loadavg, .cannotRead⟩)
    | some text => .done (loadOfWords num.rust (words text))
  | .go =>
    match readFile source with
    | none => .done (.error ⟨.loadavg, .cannotRead⟩)
    | some text => .done (loadOfWords num.go (words text))

end LoadAvg

/-! `/proc/meminfo`. -/

structure MemInfo where
  totalKb : ℤ
  availableKb : ℤ
deriving DecidableEq, Repr

def memTotal : Bytes := ascii "MemTotal:"

def memAvailable : Bytes := ascii "MemAvailable:"

def keyInput : StateM InStream (Bytes × ℤ) := do
  let key ← word
  let kb ← int
  return (key, kb)

def keyOfLine (line : Bytes) : Option (Bytes × ℤ) := some (keyInput.run (ofText line)).1

def keyOfWords (line : Bytes) : Option (Bytes × ℤ) :=
  match words line with
  | key :: kb :: _ => (parseInt kb).map fun v => (key, v)
  | _ => none

/-- The lines up to the one that both values are known after. -/
def memKeys (entry : Bytes → Option (Bytes × ℤ)) (known : Option ℤ × Option ℤ) :
    List Bytes → Option ℤ × Option ℤ
  | [] => known
  | line :: rest =>
    let known :=
      match entry line with
      | none => known
      | some (key, kb) =>
        if key = memTotal then (some kb, known.2)
        else if key = memAvailable then (known.1, some kb)
        else known
    if known.1.isSome ∧ known.2.isSome then known else memKeys entry known rest

def memOfKeys : Option ℤ × Option ℤ → Except Fault MemInfo
  | (some totalKb, some availableKb) => .ok ⟨totalKb, availableKb⟩
  | _ => .error ⟨.meminfo, .missingKeys⟩

def readMeminfo (lang : Language) (source : Source) : Except Fault MemInfo :=
  match lang with
  | .cpp =>
    match source with
    | none => .error ⟨.meminfo, .cannotOpen⟩
    | some f => memOfKeys (memKeys keyOfLine (none, none) (getlines f))
  | .rust =>
    match readToString source with
    | none => .error ⟨.meminfo, .cannotRead⟩
    | some text => memOfKeys (memKeys keyOfWords (none, none) (strLines text))
  | .go =>
    match source with
    | none => .error ⟨.meminfo, .cannotOpen⟩
    | some f => memOfKeys (memKeys keyOfWords (none, none) (scanLines f))

/-! `/proc/diskstats`. -/

def skipped (name : Bytes) : Bool :=
  (ascii "loop").isPrefixOf name || (ascii "ram").isPrefixOf name

def diskInput : StateM InStream DiskStat := do
  let _major ← int
  let _minor ← int
  let name ← word
  let reads ← int
  let _readsMerged ← int
  let readSectors ← int
  let _msReading ← int
  let writes ← int
  let _writesMerged ← int
  let writeSectors ← int
  return ⟨name, reads, writes, readSectors, writeSectors⟩

def diskOfLine (line : Bytes) : Option DiskStat :=
  let disk := (diskInput.run (ofText line)).1
  if disk.name = [] ∨ skipped disk.name then none else some disk

def diskOfWords (number : Bytes → ℤ) : List Bytes → Option DiskStat
  | _ :: _ :: name :: reads :: _ :: readSectors :: _ :: writes :: _ :: writeSectors :: _ =>
    if skipped name then none
    else some ⟨name, number reads, number writes, number readSectors, number writeSectors⟩
  | _ => none

def numberOrZero (text : Bytes) : ℤ := (parseInt text).getD 0

def readDiskstats (lang : Language) (source : Source) : Except Fault (List DiskStat) :=
  match lang with
  | .cpp =>
    match source with
    | none => .error ⟨.diskstats, .cannotOpen⟩
    | some f => .ok ((getlines f).filterMap diskOfLine)
  | .rust =>
    match readToString source with
    | none => .error ⟨.diskstats, .cannotRead⟩
    | some text =>
      .ok ((strLines text).filterMap fun line => diskOfWords numberOrZero (words line))
  | .go =>
    match source with
    | none => .error ⟨.diskstats, .cannotOpen⟩
    | some f =>
      if scanOk f then
        .ok ((scanLines f).filterMap fun line => diskOfWords parseIntNear (words line))
      else .error ⟨.diskstats, .cannotRead⟩

/-! `/proc/net/dev`. -/

/-- The received bytes, seven numbers that are not kept, the transmitted bytes. -/
def netInput : StateM InStream (ℤ × ℤ) := do
  let rx ← int
  let _packets ← int
  let _errs ← int
  let _drop ← int
  let _fifo ← int
  let _frame ← int
  let _compressed ← int
  let _multicast ← int
  let tx ← int
  return (rx, tx)

def netOfLine (line : Bytes) : Option NetStat :=
  (splitFirst? colon line).map fun (iface, rest) =>
    let (rx, tx) := (netInput.run (ofText rest)).1
    ⟨iface.filter fun b => b ≠ 0x20, rx, tx⟩

def netOfWords (number : Bytes → ℤ) (line : Bytes) : Option NetStat :=
  (splitFirst? colon line).bind fun (iface, rest) =>
    match words rest with
    | rx :: _ :: _ :: _ :: _ :: _ :: _ :: _ :: tx :: _ =>
      some ⟨trimWords Utf8.spaces iface, number rx, number tx⟩
    | _ => none

def readNetdev (lang : Language) (source : Source) : Except Fault (List NetStat) :=
  match lang with
  | .cpp =>
    match source with
    | none => .error ⟨.netDev, .cannotOpen⟩
    | some f => .ok (((getlines f).drop 2).filterMap netOfLine)
  | .rust =>
    match readToString source with
    | none => .error ⟨.netDev, .cannotRead⟩
    | some text => .ok (((strLines text).drop 2).filterMap (netOfWords numberOrZero))
  | .go =>
    match source with
    | none => .error ⟨.netDev, .cannotOpen⟩
    | some f =>
      if scanOk f then .ok (((scanLines f).drop 2).filterMap (netOfWords parseIntNear))
      else .error ⟨.netDev, .cannotRead⟩

/-! Pressure. -/

section Psi

variable {F : Type} (num : Doubles F)

structure Psi (F : Type) where
  cpuSomeAvg10 : F
  memSomeAvg10 : F
  ioSomeAvg10 : F
deriving DecidableEq, Repr

def avg10 : Bytes := ascii "avg10="

/-- `sscanf` with `%*s avg10=%lf`; the text ends at its first zero. -/
def scanAvg10 (line : Bytes) : F :=
  let first := (before 0 line).dropWhile isSpace
  let second := (first.dropWhile fun b => !isSpace b).dropWhile isSpace
  if first ≠ [] ∧ avg10.isPrefixOf second then
    (num.scan (second.drop avg10.length)).getD num.zero
  else num.zero

/-- The first word with an `avg10=` and a double. -/
def findAvg10 (parse : Bytes → Option F) (line : Bytes) : F :=
  ((words line).findSome? fun word =>
    if avg10.isPrefixOf word then parse (word.drop avg10.length) else none).getD num.zero

/-- One pressure file. An empty one counts for Go. -/
def readPressure (lang : Language) (source : Source) : Option F :=
  match lang with
  | .cpp => (source.bind fun f => (getlines f).head?).map (scanAvg10 num)
  | .rust => ((readToString source).bind fun text => (strLines text).head?).map
      (findAvg10 num num.rust)
  | .go => (readFile source).map fun text => findAvg10 num num.go (before newline text)

def readPsiFrom (lang : Language) (file : Resource → Source) : Option (Psi F) :=
  let cpu := readPressure num lang (file .cpu)
  let mem := readPressure num lang (file .memory)
  let io := readPressure num lang (file .io)
  if cpu.isNone ∧ mem.isNone ∧ io.isNone then none
  else some ⟨cpu.getD num.zero, mem.getD num.zero, io.getD num.zero⟩

def cgroupLines (lang : Language) (source : Source) : List Bytes :=
  match lang with
  | .cpp => source.elim [] getlines
  | .rust => (readToString source).elim [] strLines
  | .go => (readFile source).elim [] fun text =>
      (cutLines newline text).1 ++ [(cutLines newline text).2]

def unified : Bytes := ascii "0::"

/-- The path of the own group. -/
def ownGroup (lang : Language) (source : Source) : Option Bytes :=
  ((cgroupLines lang source).find? fun line => unified.isPrefixOf line).map
    fun line => line.drop unified.length

def readPsiOfGroup (lang : Language) (src : Sources) : Option (Psi F) :=
  (ownGroup lang src.selfCgroup).bind fun rel => readPsiFrom num lang (src.groupPressure rel)

/-- The files that are tried last. Rust and Go look for `/proc/pressure/cpu.pressure` and its like,
which there are none of. -/
def systemPressure (lang : Language) (src : Sources) : Resource → Source :=
  match lang with
  | .cpp => src.pressure
  | .rust | .go => fun _ => none

def readPsi (lang : Language) (src : Sources) : Option (Psi F) :=
  (readPsiOfGroup num lang src).or (readPsiFrom num lang (systemPressure lang src))

end Psi

end LinuxSys.Sysagent.Procfs
