import LinuxSys.Language
import LinuxSys.Lib.Address
import LinuxSys.Lib.Fields
import LinuxSys.Lib.Numeral

/-! # The arguments of chatterd ch23

`parse_args` reads the flags of `chatterd discover` into a configuration, or prints what is wrong.
The programs take numbers and addresses as the libraries of their languages do, and the name is any
text. A configuration announces its name, its TCP port and its interface.
-/

namespace LinuxSys.Chatterd.Discovery

open Lib

/-- An argument is a C string. -/
structure Arg where
  bytes : Bytes
  ended : 0 ∉ bytes

inductive Flag where
  | group
  | port
  | name
  | tcpPort
  | iface
  | announceMs
  | rounds
deriving DecidableEq, Repr

def Flag.text : Flag → Bytes
  | group => ascii "--group"
  | port => ascii "--port"
  | name => ascii "--name"
  | tcpPort => ascii "--tcp-port"
  | iface => ascii "--iface"
  | announceMs => ascii "--announce-ms"
  | rounds => ascii "--rounds"

def flags : List Flag := [.group, .port, .name, .tcpPort, .iface, .announceMs, .rounds]

/-- An address is kept as its text, in Rust as its octets. -/
def Host : Language → Type
  | .cpp => Bytes
  | .rust => Ipv4
  | .go => Bytes

def parseHost : (lang : Language) → Bytes → Option (Host lang)
  | .cpp, v => if (Ipv4.parse v).isSome then some v else none
  | .rust, v => Ipv4.parse v
  | .go, v => if (parseIp4 v).isSome then some v else none

def Host.text : (lang : Language) → Host lang → Bytes
  | .cpp, host => host
  | .rust, host => Ipv4.text host
  | .go, host => host

def localhost : Ipv4 := ⟨127, 0, 0, 1⟩

def defaultHost : (lang : Language) → Host lang
  | .cpp => localhost.text
  | .rust => localhost
  | .go => localhost.text

/-- `int` in C++, an unsigned type of Rust, `strconv.Atoi` in Go. -/
def intParser (lang : Language) (width : ℕ) : IntParser :=
  match lang with
  | .cpp => ⟨false, true, -2 ^ 31, 2 ^ 31 - 1⟩
  | .rust => ⟨true, false, 0, 2 ^ width - 1⟩
  | .go => .parse64

def positive (parser : IntParser) (v : Bytes) : Option ℕ :=
  ((parser.parse v).filter fun n => 0 < n).map Int.toNat

def parsePort (lang : Language) (v : Bytes) : Option ℕ :=
  (positive (intParser lang 16) v).filter fun n => n ≤ 65535

/-- What the flags have set: C++ and Go keep an empty text or 0 for what is not given. -/
structure Draft (lang : Language) where
  group : Option (Host lang) := none
  port : Option ℕ := none
  name : Option Bytes := none
  tcpPort : ℕ := 9101
  iface : Host lang := defaultHost lang
  announceMs : ℕ := 200
  rounds : ℕ := 10

structure Config (lang : Language) where
  group : Host lang
  port : ℕ
  name : Bytes
  tcpPort : ℕ
  iface : Host lang
  announceMs : ℕ
  rounds : ℕ

/-- What is printed before the exit with status 2; `std::env::args` panics instead. -/
inductive Refusal where
  | printed (lines : List Bytes)
  | panicked
deriving DecidableEq, Repr

def usage : Bytes :=
  ascii "usage: chatterd discover --group <ip> --port <n> --name <s> " ++
    ascii "[--tcp-port <n>] [--iface <ip>] [--announce-ms <n>] [--rounds <n>]"

/-- The lines for a flag without a value. -/
def needsValue (lang : Language) (flag : Flag) : List Bytes :=
  let line := ascii "chatterd: " ++ flag.text ++ ascii " needs a value"
  match lang, flag with
  | .rust, _ | _, .group | _, .name | _, .iface => [line]
  | _, _ => [line, usage]

def setFlag {lang : Language} (c : Draft lang) (flag : Flag) (v : Bytes) : Option (Draft lang) :=
  match flag with
  | .group => (parseHost lang v).map fun host => { c with group := some host }
  | .port => (parsePort lang v).map fun n => { c with port := some n }
  | .name => some { c with name := some v }
  | .tcpPort => (parsePort lang v).map fun n => { c with tcpPort := n }
  | .iface => (parseHost lang v).map fun host => { c with iface := host }
  | .announceMs => (positive (intParser lang 64) v).map fun n => { c with announceMs := n }
  | .rounds => (positive (intParser lang 32) v).map fun n => { c with rounds := n }

def parseFrom {lang : Language} : Draft lang → List Arg → Except Refusal (Draft lang)
  | c, [] => .ok c
  | c, a :: rest =>
    match flags.find? fun flag => flag.text = a.bytes with
    | none => .error (.printed [ascii "chatterd: unknown argument: " ++ a.bytes, usage])
    | some flag =>
      match rest with
      | [] => .error (.printed (needsValue lang flag))
      | v :: rest =>
        match setFlag c flag v.bytes with
        | some next => parseFrom next rest
        | none => .error (.printed [usage])

/-- Only Rust takes an empty name. -/
def finish {lang : Language} (c : Draft lang) : Except Refusal (Config lang) :=
  match c.group, c.port, c.name with
  | some group, some port, some name =>
    if lang ≠ .rust ∧ name = [] then .error (.printed [usage])
    else .ok ⟨group, port, name, c.tcpPort, c.iface, c.announceMs, c.rounds⟩
  | _, _, _ => .error (.printed [usage])

/-- The arguments behind the name of the program. -/
def parseArgs (lang : Language) (argv : List Arg) : Except Refusal (Config lang) :=
  if lang = .rust ∧ ∃ a ∈ argv, ¬ Utf8.Valid a.bytes then .error .panicked
  else
    match argv with
    | [] => .error (.printed [usage])
    | command :: args =>
      if command.bytes ≠ ascii "discover" then .error (.printed [usage])
      else (parseFrom {} args).bind finish

/-! What a configuration announces. -/

def beaconMagic : Bytes := ascii "CHATTERD1"

structure Peer where
  name : Bytes
  port : ℕ
  host : Bytes
deriving DecidableEq, Repr

/-- The datagram of a peer. -/
def Peer.beacon (peer : Peer) : Bytes :=
  beaconMagic ++ 0x20 :: (peer.name ++ 0x20 :: (decimal peer.port ++ 0x20 :: peer.host))

def Config.self {lang : Language} (c : Config lang) : Peer :=
  ⟨c.name, c.tcpPort, Host.text lang c.iface⟩

/-- The peer that a program with these arguments announces. -/
def announced (lang : Language) (argv : List Arg) : Option Peer :=
  (parseArgs lang argv).toOption.map Config.self

/-! What is known of a configuration that is accepted. -/

section Accepted

variable {lang : Language}

/-- The text of an address: a dotted quad, but in Go perhaps one of version 6. -/
def HostText (lang : Language) (text : Bytes) : Prop :=
  (lang ≠ .go → ∃ q : Ipv4, text = q.text) ∧ text ≠ [] ∧ ∀ b ∈ text, Ipv6.plain b

/-- Every step of the loop keeps these of what is announced. -/
structure Draft.Sound (c : Draft lang) : Prop where
  name : ∀ name ∈ c.name, 0 ∉ name ∧ (lang = .rust → Utf8.Valid name)
  positive : 0 < c.tcpPort
  port : c.tcpPort ≤ 65535
  host : HostText lang (Host.text lang c.iface)

end Accepted

end LinuxSys.Chatterd.Discovery
