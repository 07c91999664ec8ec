import LinuxSys.Language
import LinuxSys.Lib.Machine
import LinuxSys.Lib.Numeral
import LinuxSys.Lib.Wrap

/-! # Reconnecting in chatterd ch24

`connect` dials, talks for as long as the session lasts, waits and dials again. It waits for half of
its backoff and a random part of the other half; then it doubles the backoff, up to the option
`--max-backoff-ms`. A connection sets the backoff back to `--backoff-ms`. The options are any
positive 64-bit numbers.
-/

namespace LinuxSys.Chatterd.Reconnect

open Lib

structure Opts where
  name : Bytes := []
  listenAddr : Bytes := []
  peerName : Bytes := []
  peerAddr : Bytes := []
  heartbeatMs : ℤ := 1000
  timeoutMs : ℤ := 3000
  backoffMs : ℤ := 200
  maxBackoffMs : ℤ := 5000
  message : Option Bytes := none
  seed : Option ℤ := none
deriving DecidableEq, Repr

inductive Flag where
  | name
  | addr
  | peer
  | heartbeatMs
  | timeoutMs
  | backoffMs
  | maxBackoffMs
  | message
  | seed
deriving DecidableEq, Repr

def Flag.text : Flag → Bytes
  | name => ascii "--name"
  | addr => ascii "--addr"
  | peer => ascii "--peer"
  | heartbeatMs => ascii "--heartbeat-ms"
  | timeoutMs => ascii "--timeout-ms"
  | backoffMs => ascii "--backoff-ms"
  | maxBackoffMs => ascii "--max-backoff-ms"
  | message => ascii "--message"
  | seed => ascii "--seed"

def flags : List Flag :=
  [.name, .addr, .peer, .heartbeatMs, .timeoutMs, .backoffMs, .maxBackoffMs, .message, .seed]

/-- The white space that `strtol` skips. -/
def isSpace (b : UInt8) : Bool := b = 0x20 || (0x09 ≤ b && b ≤ 0x0D)

def parseLong (lang : Language) (text : Bytes) (min : ℤ) : Option ℤ :=
  let read := match lang with
    | .cpp => IntParser.parse64.parse (text.dropWhile isSpace)
    | .rust | .go => IntParser.parse64.parse text
  read.filter fun v => min ≤ v

def badNumber (lang : Language) (flag : Flag) (text : Bytes) : Bytes :=
  match lang with
  | .cpp => ascii "bad numeric value: " ++ text
  | .rust | .go => ascii "bad value for " ++ flag.text ++ ascii ": " ++ text

def number (lang : Language) (flag : Flag) (text : Bytes) (min : ℤ) : Except Bytes ℤ :=
  match parseLong lang text min with
  | some v => .ok v
  | none => .error (badNumber lang flag text)

/-- C++ keeps 32 bits of a seed. -/
def seedOf (lang : Language) (v : ℤ) : ℤ :=
  match lang with
  | .cpp => toUnsigned 32 v
  | .rust | .go => v

def setFlag (lang : Language) (o : Opts) (flag : Flag) (v : Bytes) : Except Bytes Opts :=
  match flag with
  | .name => .ok { o with name := v }
  | .addr => .ok { o with listenAddr := v }
  | .peer =>
    match splitFirst? 0x40 v with
    | some (name, addr) => .ok { o with peerName := name, peerAddr := addr }
    | none => .error (ascii "--peer wants NAME@HOST:PORT")
  | .heartbeatMs => (number lang flag v 1).map fun n => { o with heartbeatMs := n }
  | .timeoutMs => (number lang flag v 1).map fun n => { o with timeoutMs := n }
  | .backoffMs => (number lang flag v 1).map fun n => { o with backoffMs := n }
  | .maxBackoffMs => (number lang flag v 1).map fun n => { o with maxBackoffMs := n }
  | .message => .ok { o with message := some v }
  | .seed => (number lang flag v 0).map fun n => { o with seed := some (seedOf lang n) }

def parseFrom (lang : Language) : Opts → List Bytes → Except Bytes Opts
  | o, [] => if o.name = [] then .error (ascii "--name is required") else .ok o
  | o, a :: rest =>
    match flags.find? fun flag => flag.text = a with
    | none => .error (ascii "unknown flag " ++ a)
    | some flag =>
      match rest with
      | [] => .error (a ++ ascii " needs a value")
      | v :: rest =>
        match setFlag lang o flag v with
        | .ok next => parseFrom lang next rest
        | .error text => .error text

def parseCommon (lang : Language) (args : List Bytes) : Except Bytes Opts := parseFrom lang {} args

/-! `run_connect`. -/

/-- One attempt, whether it led to a session, and the jitter drawn after it. -/
structure Turn where
  connected : Bool
  draw : ℤ
deriving DecidableEq, Repr

/-- Besides the backoff, what the one of the attempt before was if that failed. -/
structure State where
  backoff : ℤ
  failed : Option ℤ := none
deriving DecidableEq, Repr

def base (o : Opts) (s : State) (t : Turn) : ℤ := if t.connected then o.backoffMs else s.backoff

def half (backoff : ℤ) : ℤ := backoff.tdiv 2

def delayOf (backoff draw : ℤ) : ℤ := toSigned 64 (half backoff + draw)

def doubled (backoff : ℤ) : ℤ := toSigned 64 (backoff * 2)

/-- The nanoseconds of a wait: `poll` takes an `int` of milliseconds, Rust holds them within 16
bits, Go multiplies them into a `Duration`. -/
def waited (lang : Language) (delay : ℤ) : ℤ :=
  match lang with
  | .cpp => toSigned 32 delay * 1000000
  | .rust => max 0 (min delay 65535) * 1000000
  | .go => toSigned 64 (delay * 1000000)

def step (o : Opts) (s : State) (t : Turn) : Option State :=
  let backoff := base o s t
  if 0 ≤ t.draw ∧ t.draw ≤ max (half backoff) 0 then
    some
      { backoff := min (doubled backoff) o.maxBackoffMs
        failed := if t.connected then none else some backoff }
  else none

def program (o : Opts) : Machine State Turn := ⟨{ backoff := o.backoffMs }, step o⟩

/-! What the options promise. -/

structure Fine (lang : Language) (o : Opts) (s : State) (t : Turn) : Prop where
  least : 0 ≤ delayOf (base o s t) t.draw
  most : delayOf (base o s t) t.draw ≤ o.maxBackoffMs
  grows : t.connected = false → ∀ before, s.failed = some before → before ≤ base o s t
  adds : delayOf (base o s t) t.draw = half (base o s t) + t.draw
  waits : waited lang (delayOf (base o s t) t.draw) = delayOf (base o s t) t.draw * 1000000
  doubles : doubled (base o s t) = base o s t * 2

/-- Every turn of every run is fine. -/
def Right (lang : Language) (o : Opts) : Prop :=
  ∀ turns s, (program o).run? turns = some s →
    (program o).Meets (Fine lang o) (program o).init turns

/-- The longest backoff, in milliseconds, whose every delay is waited for. -/
def longest : Language → ℤ
  | .cpp => 2147483647
  | .rust => 65535
  | .go => 9223372036855

/-! The options that are accepted. -/

structure Opts.Valid (o : Opts) : Prop where
  backoff : 1 ≤ o.backoffMs ∧ o.backoffMs < 2 ^ 63
  maxBackoff : 1 ≤ o.maxBackoffMs ∧ o.maxBackoffMs < 2 ^ 63

theorem within_of_number {lang : Language} {flag : Flag} {text : Bytes} {min n : ℤ}
    (read : number lang flag text min = .ok n) : min ≤ n ∧ n < 2 ^ 63 := by
  have parsed : parseLong lang text min = some n := by
    rw [number] at read
    split at read
    · next v found => rw [found, Except.ok.inj read]
    · cases read
  obtain ⟨inside, least⟩ := Option.filter_eq_some_iff.mp parsed
  have range : n ≤ IntParser.parse64.most := by
    cases lang with
    | cpp => exact (IntParser.within_of_parse inside).2
    | rust => exact (IntParser.within_of_parse inside).2
    | go => exact (IntParser.within_of_parse inside).2
  rw [decide_eq_true_eq] at least
  exact ⟨least, Int.lt_of_le_sub_one range⟩

theorem Opts.Valid.setFlag {lang : Language} {o next : Opts} {flag : Flag} {v : Bytes}
    (valid : o.Valid) (set : setFlag lang o flag v = .ok next) : next.Valid := by
  have numeric {n : ℤ} {min : ℤ} {change : ℤ → Opts}
      (set : (number lang flag v min).map change = .ok next) :
      ∃ n, number lang flag v min = .ok n ∧ change n = next := by
    cases read : number lang flag v min with
    | error text =>
      rw [read] at set
      cases set
    | ok n =>
      rw [read] at set
      exact ⟨n, rfl, Except.ok.inj set⟩
  cases flag with
  | name | addr | message =>
    obtain rfl := Except.ok.inj set
    exact ⟨valid.backoff, valid.maxBackoff⟩
  | peer =>
    rw [Reconnect.setFlag] at set
    split at set
    · obtain rfl := Except.ok.inj set
      exact ⟨valid.backoff, valid.maxBackoff⟩
    · cases set
  | heartbeatMs | timeoutMs | seed =>
    obtain ⟨n, _, rfl⟩ := numeric (n := 0) set
    exact ⟨valid.backoff, valid.maxBackoff⟩
  | backoffMs =>
    obtain ⟨n, read, rfl⟩ := numeric (n := 0) set
    exact ⟨within_of_number read, valid.maxBackoff⟩
  | maxBackoffMs =>
    obtain ⟨n, read, rfl⟩ := numeric (n := 0) set
    exact ⟨valid.backoff, within_of_number read⟩

theorem Opts.Valid.parseFrom {lang : Language} {o last : Opts} {args : List Bytes} (valid : o.Valid)
    (parsed : parseFrom lang o args = .ok last) : last.Valid := by
  induction o, args using parseFrom.induct lang with
  | case1 o unnamed =>
    rw [Reconnect.parseFrom, if_pos unnamed] at parsed
    cases parsed
  | case2 o named =>
    rw [Reconnect.parseFrom, if_neg named] at parsed
    exact Except.ok.inj parsed ▸ valid
  | case3 o a rest unknown =>
    rw [Reconnect.parseFrom, unknown] at parsed
    cases parsed
  | case4 o a flag known =>
    rw [Reconnect.parseFrom, known] at parsed
    cases parsed
  | case5 o a flag known v rest next set ih =>
    rw [Reconnect.parseFrom, known] at parsed
    simp only [set] at parsed
    exact ih (valid.setFlag set) parsed
  | case6 o a flag known v rest text set =>
    rw [Reconnect.parseFrom, known] at parsed
    simp only [set] at parsed
    cases parsed

theorem valid_of_parseCommon {lang : Language} {args : List Bytes} {o : Opts}
    (accepted : parseCommon lang args = .ok o) : o.Valid :=
  Opts.Valid.parseFrom ⟨by decide, by decide⟩ accepted

/-! One turn. -/

section

variable {lang : Language} {o : Opts} {s next : State} {t : Turn}

theorem half_eq {backoff : ℤ} (least : 0 ≤ backoff) : half backoff = backoff / 2 :=
  Int.tdiv_eq_ediv_of_nonneg least

theorem step_eq_some : step o s t = some next ↔
    (0 ≤ t.draw ∧ t.draw ≤ max (half (base o s t)) 0) ∧
      next = ⟨min (doubled (base o s t)) o.maxBackoffMs,
        if t.connected then none else some (base o s t)⟩ := by
  rw [step]
  split
  · next drawn =>
    rw [Option.some.injEq]
    exact ⟨fun same => ⟨drawn, same.symm⟩, fun both => both.2.symm⟩
  · next wild =>
    constructor
    · intro none
      cases none
    · rintro ⟨drawn, -⟩
      exact absurd drawn wild

/-- A delay is waited for if no larger one of the backoff would fail to be. -/
theorem waited_eq {delay most : ℤ} (least : 0 ≤ delay) (within : delay ≤ 2 * (most / 2))
    (short : most ≤ longest lang) : waited lang delay = delay * 1000000 := by
  cases lang with
  | cpp =>
    change most ≤ 2147483647 at short
    rw [waited, toSigned_of_lt (by omega) (by omega)]
  | rust =>
    change most ≤ 65535 at short
    rw [waited, min_eq_left (by omega), max_eq_right least]
  | go =>
    change most ≤ 9223372036855 at short
    rw [waited, toSigned_of_lt (by omega) (by omega)]

/-- The largest delay of a backoff shows whether it is too long. -/
theorem le_longest {most : ℤ} (waits : waited lang (2 * (most / 2)) = 2 * (most / 2) * 1000000) :
    most ≤ longest lang := by
  cases lang with
  | cpp =>
    have below := Int.bmod_lt (x := 2 * (most / 2)) (m := 2 ^ 32) (by decide)
    rw [waited, toSigned] at waits
    change most ≤ 2147483647
    omega
  | rust =>
    rw [waited] at waits
    change most ≤ 65535
    omega
  | go =>
    have below := Int.bmod_lt (x := 2 * (most / 2) * 1000000) (m := 2 ^ 64) (by decide)
    rw [waited, toSigned] at waits
    change most ≤ 9223372036855
    omega

theorem longest_lt (lang : Language) : longest lang < 2 ^ 62 := by
  cases lang <;> decide

/-! Options that keep the promise. -/

/-- What the backoff is between two attempts. -/
structure Inv (o : Opts) (s : State) : Prop where
  least : 1 ≤ s.backoff
  most : s.backoff ≤ o.maxBackoffMs
  grown : ∀ before, s.failed = some before → before ≤ s.backoff

theorem Inv.keeps (valid : o.Valid) (ordered : o.backoffMs ≤ o.maxBackoffMs)
    (short : o.maxBackoffMs ≤ longest lang) (inv : Inv o s) (taken : step o s t = some next) :
    Fine lang o s t ∧ Inv o next := by
  obtain ⟨⟨drawn, limit⟩, rfl⟩ := step_eq_some.mp taken
  have bound := longest_lt lang
  have positive : 1 ≤ base o s t := by
    rw [base]
    split
    · exact valid.backoff.1
    · exact inv.least
  have capped : base o s t ≤ o.maxBackoffMs := by
    rw [base]
    split
    · exact ordered
    · exact inv.most
  have halved : half (base o s t) = base o s t / 2 := half_eq (by omega)
  have adds : delayOf (base o s t) t.draw = half (base o s t) + t.draw := by
    rw [delayOf, toSigned_of_lt (by omega) (by omega)]
  have doubles : doubled (base o s t) = base o s t * 2 := by
    rw [doubled, toSigned_of_lt (by omega) (by omega)]
  constructor
  · refine ⟨by omega, by omega, ?_, adds, ?_, doubles⟩
    · intro again before failed
      rw [base, if_neg (by simp [again])]
      exact inv.grown before failed
    · exact waited_eq (by omega) (by omega) short
  · refine ⟨?_, min_le_right _ _, ?_⟩
    · rw [doubles]
      exact le_min (by omega) valid.maxBackoff.1
    · intro before failed
      dsimp only at failed ⊢
      split at failed
      · cases failed
      · obtain rfl := Option.some.inj failed
        rw [doubles]
        exact le_min (by omega) capped

/-! Options that break it. -/

/-- A failed attempt with the least jitter. -/
def fails : Turn := ⟨false, 0⟩

theorem step_fails (o : Opts) (s : State) : step o s fails =
    some ⟨min (doubled s.backoff) o.maxBackoffMs, some s.backoff⟩ :=
  step_eq_some.mpr ⟨⟨le_rfl, le_max_right _ _⟩, rfl⟩

theorem Right.fine {turns : List Turn} (right : Right lang o)
    (run : (program o).run? turns = some s) (taken : step o s t = some next) :
    Fine lang o s t := by
  have longer : (program o).run? (turns ++ [t]) = some next := by
    rw [Machine.run?, Machine.runFrom?_append_of run, Machine.runFrom?_cons_eq_some]
    exact ⟨next, taken, rfl⟩
  exact Machine.guard_of_meets (right _ _ longer) run

/-- Two failed attempts show that the base does not exceed its limit. -/
theorem Right.ordered (right : Right lang o) : o.backoffMs ≤ o.maxBackoffMs := by
  have once : (program o).run? [fails] =
      some ⟨min (doubled o.backoffMs) o.maxBackoffMs, some o.backoffMs⟩ := by
    rw [Machine.run?, Machine.runFrom?_cons (step_fails o (program o).init)]
    rfl
  have fine := right.fine once (step_fails o _)
  exact (fine.grows rfl _ rfl).trans (min_le_right _ _)

/-- So many failed attempts double the base as often, up to the limit. -/
theorem Right.run_fails (valid : o.Valid) (right : Right lang o) (n : ℕ) :
    ∃ failed, (program o).run? (List.replicate n fails) =
      some ⟨min (o.backoffMs * 2 ^ n) o.maxBackoffMs, failed⟩ := by
  induction n with
  | zero =>
    refine ⟨none, ?_⟩
    rw [pow_zero, mul_one, min_eq_left right.ordered]
    rfl
  | succ n ih =>
    obtain ⟨failed, run⟩ := ih
    have taken := step_fails o ⟨min (o.backoffMs * 2 ^ n) o.maxBackoffMs, failed⟩
    have doubles := (right.fine run taken).doubles
    change doubled (min (o.backoffMs * 2 ^ n) o.maxBackoffMs) =
      min (o.backoffMs * 2 ^ n) o.maxBackoffMs * 2 at doubles
    have grown : min (min (o.backoffMs * 2 ^ n) o.maxBackoffMs * 2) o.maxBackoffMs =
        min (o.backoffMs * 2 ^ (n + 1)) o.maxBackoffMs := by
      have least := valid.maxBackoff.1
      rw [pow_succ, ← mul_assoc]
      omega
    refine ⟨some (min (o.backoffMs * 2 ^ n) o.maxBackoffMs), ?_⟩
    rw [List.replicate_succ', Machine.run?, Machine.runFrom?_append_of run,
      Machine.runFrom?_cons taken, Machine.runFrom?_nil, doubles, grown]

/-- Once the base has reached its limit, the largest jitter shows whether that is too long. -/
theorem Right.short (valid : o.Valid) (right : Right lang o) : o.maxBackoffMs ≤ longest lang := by
  obtain ⟨failed, run⟩ := right.run_fails valid 63
  have reached : min (o.backoffMs * 2 ^ 63) o.maxBackoffMs = o.maxBackoffMs := by
    have least := valid.backoff.1
    have most := valid.maxBackoff.2
    omega
  rw [reached] at run
  have positive := valid.maxBackoff.1
  have halved : half o.maxBackoffMs = o.maxBackoffMs / 2 := half_eq (by omega)
  have taken : step o ⟨o.maxBackoffMs, failed⟩ ⟨false, o.maxBackoffMs / 2⟩ = some _ :=
    step_eq_some.mpr ⟨⟨by dsimp only; omega, by
      change o.maxBackoffMs / 2 ≤ max (half o.maxBackoffMs) 0
      rw [halved]
      exact le_max_left _ _⟩, rfl⟩
  have fine := right.fine run taken
  have adds : delayOf o.maxBackoffMs (o.maxBackoffMs / 2) = 2 * (o.maxBackoffMs / 2) := by
    refine fine.adds.trans ?_
    change half o.maxBackoffMs + o.maxBackoffMs / 2 = _
    omega
  have waits : waited lang (delayOf o.maxBackoffMs (o.maxBackoffMs / 2)) =
    delayOf o.maxBackoffMs (o.maxBackoffMs / 2) * 1000000 := fine.waits
  rw [adds] at waits
  exact le_longest waits

end

/-- All turns of all runs are fine exactly if the backoff starts within its limit and the limit is
not too long for the program's clock. -/
theorem reconnect_right_iff {lang : Language} {args : List Bytes} {o : Opts}
    (accepted : parseCommon lang args = .ok o) :
    Right lang o ↔ o.backoffMs ≤ o.maxBackoffMs ∧ o.maxBackoffMs ≤ longest lang := by
  have valid := valid_of_parseCommon accepted
  constructor
  · intro right
    exact ⟨right.ordered, right.short valid⟩
  · rintro ⟨ordered, short⟩ turns s run
    have start : Inv o (program o).init :=
      ⟨valid.backoff.1, ordered, fun before failed => by cases failed⟩
    refine Machine.meets_of_keeps (fun s t next inv taken => ?_) start run
    exact inv.keeps valid ordered short taken

theorem reconnect_right_iff_default : Right .cpp { name := ascii "a" } ↔
    (200 : ℤ) ≤ 5000 ∧ (5000 : ℤ) ≤ longest .cpp := by
  have accepted : parseCommon .cpp [ascii "--name", ascii "a"] = .ok { name := ascii "a" } := by
    decide +kernel
  exact reconnect_right_iff accepted

/-- The first delay may be twice the limit. -/
theorem not_right_backoff : ∃ o, parseCommon .cpp [ascii "--name", ascii "a",
    ascii "--backoff-ms", ascii "10000"] = .ok o ∧ ¬ Right .cpp o := by
  refine ⟨{ name := ascii "a", backoffMs := 10000 }, by decide +kernel, fun right => ?_⟩
  have ordered := right.ordered
  revert ordered
  decide

end LinuxSys.Chatterd.Reconnect
