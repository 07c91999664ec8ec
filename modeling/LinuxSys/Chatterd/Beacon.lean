import LinuxSys.Chatterd.Discover

/-! # Beacons of chatterd ch23

A beacon is `CHATTERD1`, the name, the TCP port and the interface between single spaces. C++ takes
the first four texts between spaces, Rust and Go ask for four fields in white space, and each reads
the number and the address in its own way. `parse_args` takes any name, so a name may have white
space in it, and a beacon may be longer than the buffer of its receiver.
-/

namespace LinuxSys.Chatterd.Discovery

open Lib

/-- The texts between spaces, as many as there is room for. -/
def tokens : ℕ → Bytes → List Bytes
  | 0, _ => []
  | room + 1, msg =>
    if msg = [] then []
    else
      match splitFirst? 0x20 msg with
      | some (token, rest) => token :: tokens room rest
      | none => [msg]

/-- The bytes of a datagram that are received. -/
def room : Language → ℕ
  | .cpp => 2047
  | .rust => 2048
  | .go => 2048

def split : Language → Bytes → List Bytes
  | .cpp, msg => tokens 4 msg
  | .rust, msg => fields Utf8.spaces (Utf8.lossy msg)
  | .go, msg => fields Utf8.spaces msg

/-- C++ hands on a C string, and Go dials the text as it is. -/
def peerHost : Language → Bytes → Option Bytes
  | .cpp, text => if (Ipv4.parse (before 0 text)).isSome then some text else none
  | .rust, text => (Ipv4.parse text).map Ipv4.text
  | .go, text => some text

def peerOf (lang : Language) : List Bytes → Option Peer
  | [magic, name, port, host] =>
    if magic ≠ beaconMagic then none
    else
      (parsePort lang port).bind fun port => (peerHost lang host).map fun host => ⟨name, port, host⟩
  | _ => none

/-- The peer that a receiver takes a datagram for, before it looks whether it knows it. -/
def receive (lang : Language) (datagram : Bytes) : Option Peer :=
  peerOf lang (split lang (datagram.take (room lang)))

/-- All take it or none, and what is taken is a beacon that somebody announces. -/
def Handled (datagram : Bytes) : Prop :=
  (∀ one other, (receive one datagram).isSome = (receive other datagram).isSome) ∧
    ∀ lang, (receive lang datagram).isSome →
      ∃ sender argv peer, announced sender argv = some peer ∧ peer.beacon = datagram

/-! The conditions. -/

structure Readable (peer : Peer) : Prop where
  named : peer.name ≠ []
  wordless : Wordless Utf8.spaces peer.name
  valid : Utf8.Valid peer.name
  fits : peer.beacon.length ≤ 2047
  host : ∃ q : Ipv4, peer.host = q.text

/-- A beacon with one field for a name, which may have white space around it but no space. -/
def Clean (datagram : Bytes) : Prop :=
  ∃ name port, ∃ q : Ipv4, datagram = Peer.beacon ⟨name, port, q.text⟩ ∧ 0x20 ∉ name ∧ 0 ∉ name ∧
    (fields Utf8.spaces name).length = 1 ∧ 0 < port ∧ port ≤ 65535

section Ports

variable {lang : Language} {v : Bytes} {n : ℕ}

theorem positive_eq_some_iff {parser : IntParser} :
    positive parser v = some n ↔ parser.parse v = some (n : ℤ) ∧ 0 < n := by
  simp only [positive, Option.map_eq_some_iff, Option.filter_eq_some_iff, decide_eq_true_eq]
  constructor
  · rintro ⟨z, ⟨read, above⟩, rfl⟩
    rw [Int.toNat_of_nonneg above.le]
    exact ⟨read, by omega⟩
  · rintro ⟨read, above⟩
    exact ⟨n, ⟨read, by omega⟩, Int.toNat_natCast n⟩

theorem parsePort_eq_some_iff : parsePort lang v = some n ↔
    (intParser lang 16).parse v = some (n : ℤ) ∧ 0 < n ∧ n ≤ 65535 := by
  rw [parsePort, Option.filter_eq_some_iff, positive_eq_some_iff, decide_eq_true_eq, and_assoc]

theorem within_intParser (lang : Language) (below : n ≤ 65535) :
    (intParser lang 16).least ≤ n ∧ (n : ℤ) ≤ (intParser lang 16).most := by
  cases lang with
  | cpp =>
    change -2 ^ 31 ≤ (n : ℤ) ∧ (n : ℤ) ≤ 2 ^ 31 - 1
    omega
  | rust =>
    change 0 ≤ (n : ℤ) ∧ (n : ℤ) ≤ 2 ^ 16 - 1
    omega
  | go =>
    change -2 ^ 63 ≤ (n : ℤ) ∧ (n : ℤ) ≤ 2 ^ 63 - 1
    omega

theorem parsePort_decimal (above : 0 < n) (below : n ≤ 65535) :
    parsePort lang (decimal n) = some n := by
  obtain ⟨least, most⟩ := within_intParser lang below
  exact parsePort_eq_some_iff.mpr ⟨IntParser.parse_decimal least most, above, below⟩

end Ports

section Forms

variable {lang : Language} {datagram : Bytes}

end Forms

section Beacon

variable {lang : Language} {peer : Peer}

end Beacon

section Datagram

variable {lang : Language} {datagram : Bytes}

end Datagram

end LinuxSys.Chatterd.Discovery
