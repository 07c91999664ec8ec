import Mathlib.Order.Basic
import LinuxSys.Lib.Columns
import LinuxSys.Lib.Extract
import LinuxSys.Lib.Fields
import LinuxSys.Lib.Lines

/-! # The tables that `loadmix analyze` reads

`parse_vmstat`, `parse_mpstat`, `parse_free_used_pct`, `parse_iostat` and `parse_sar_pkts`, one
model of the three languages, which cut a text into the same lines and differ in their white space.
What the text of a double stands for is a parameter, and so is arithmetic; the order of the doubles
is the one that the `max` of the language goes by, in which NaN is least (C++, Rust) or greatest
(Go).
-/

namespace LinuxSys.Loadmix

open Lib

inductive Lang where
  | cpp
  | rust
  | go
deriving DecidableEq, Repr

/-- The tokens of a line. -/
abbrev Line := List Bytes

/-- The white space of the C locale. -/
def blanks : List Bytes := [[0x20], [0x09], [0x0A], [0x0B], [0x0C], [0x0D]]

/-- `split_ws` -/
def Lang.splitWs : Lang → Bytes → Line
  | .cpp, line => fields blanks line
  | .rust, line => fields Utf8.spaces line
  | .go, line => fields Utf8.spaces line

/-- `split_ws` of what `split_lines` gives. -/
def Lang.tokens (lang : Lang) (text : Bytes) : List Line := (lines 0x0A text).map lang.splitWs

/-- What the languages make of doubles. -/
structure Doubles (F : Type) where
  parse : Bytes → Option F
  zero : F
  hundred : F
  add : F → F → F
  sub : F → F → F
  mul : F → F → F
  div : F → F → F
  /-- `x <= 0.0` -/
  nonpositive : F → Bool

structure Row where
  names : Line
  values : Line
deriving DecidableEq, Repr

def makeRow (header : Line) (headerSkip : ℕ) (data : Line) (dataSkip : ℕ) : Row :=
  ⟨header.drop headerSkip, data.drop dataSkip⟩

section Row

variable {F : Type} (d : Doubles F)

def Row.get (r : Row) (name : Bytes) : Option F := (cell r.names r.values name).bind d.parse

def Row.getOr (r : Row) (name : Bytes) (default : F) : F := (r.get d name).getD default

end Row

/-! `vmstat` -/

def swpd : Bytes := ascii "swpd"

structure VmstatScan where
  header : Line := []
  dataRows : List Line := []
deriving DecidableEq, Repr

/-- The header is the first line with `swpd`. -/
def VmstatScan.step (s : VmstatScan) (toks : Line) : VmstatScan :=
  if toks = [] then s
  else if s.header = [] then if swpd ∈ toks then { s with header := toks } else s
  else if s.header.length ≤ toks.length + 2 then { s with dataRows := s.dataRows ++ [toks] }
  else s

structure VmstatResult (F : Type) where
  runQueueMax : F
  swapIoMax : F
deriving DecidableEq, Repr

section Parsers

variable {F : Type} [LinearOrder F] (d : Doubles F) (lang : Lang)

def VmstatResult.follow (header : Line) (res : VmstatResult F) (toks : Line) : VmstatResult F :=
  let r := makeRow header 0 toks 0
  { runQueueMax := max res.runQueueMax (r.getOr d (ascii "r") d.zero)
    swapIoMax := max res.swapIoMax
      (d.add (r.getOr d (ascii "si") d.zero) (r.getOr d (ascii "so") d.zero)) }

/-- The first row is an average since the start of the system. -/
def VmstatScan.result (s : VmstatScan) : VmstatResult F :=
  (s.dataRows.drop 1).foldl (VmstatResult.follow d s.header) ⟨d.zero, d.zero⟩

def parseVmstat (text : Bytes) : VmstatResult F :=
  ((lang.tokens text).foldl VmstatScan.step {}).result d

end Parsers

/-! `mpstat` and `sar`: the rows that begin with `Average:` -/

def average : Bytes := ascii "Average:"

structure Found where
  header : Line := []
  data : Line := []
deriving DecidableEq, Repr

/-- The last header and the last row with this label. -/
def Found.averages (title label : Bytes) (s : Found) : Line → Found
  | first :: second :: rest =>
    if first = average ∧ second = title then { s with header := first :: second :: rest }
    else if first = average ∧ second = label then { s with data := first :: second :: rest }
    else s
  | _ => s

structure MpstatResult (F : Type) where
  busyPct : F
  iowaitPct : F
deriving DecidableEq, Repr

section Parsers

variable {F : Type} (d : Doubles F) (lang : Lang)

def parseMpstat (text : Bytes) : MpstatResult F :=
  let s := (lang.tokens text).foldl (Found.averages (ascii "CPU") (ascii "all")) {}
  if s.header = [] ∨ s.data = [] then ⟨d.zero, d.zero⟩
  else
    let r := makeRow s.header 2 s.data 2
    { busyPct := d.sub d.hundred (r.getOr d (ascii "%idle") d.hundred)
      iowaitPct := r.getOr d (ascii "%iowait") d.zero }

def parseSarPkts (text iface : Bytes) : F :=
  let s := (lang.tokens text).foldl (Found.averages (ascii "IFACE") iface) {}
  if s.header = [] ∨ s.data = [] then d.zero
  else
    let r := makeRow s.header 2 s.data 2
    d.add (r.getOr d (ascii "rxpck/s") d.zero) (r.getOr d (ascii "txpck/s") d.zero)

end Parsers

/-! `free` -/

def available : Bytes := ascii "available"

def mem : Bytes := ascii "Mem:"

def Found.free (s : Found) (toks : Line) : Found :=
  if available ∈ toks then { s with header := toks }
  else if toks.head? = some mem then { s with data := toks }
  else s

section Parsers

variable {F : Type} (d : Doubles F) (lang : Lang)

def parseFreeUsedPct (text : Bytes) : F :=
  let s := (lang.tokens text).foldl Found.free {}
  if s.header = [] ∨ s.data = [] then d.zero
  else
    let r := makeRow s.header 0 s.data 1
    let total := r.getOr d (ascii "total") d.zero
    let avail := r.getOr d (ascii "available") d.zero
    if d.nonpositive total then d.zero else d.mul (d.div (d.sub total avail) total) d.hundred

end Parsers

/-! `iostat` -/

def avgCpu : Bytes := ascii "avg-cpu:"

def device : Bytes := ascii "Device"

def util : Bytes := ascii "%util"

def wAwait : Bytes := ascii "w_await"

def excl : List Bytes := [ascii "zram", ascii "sr", ascii "loop", ascii "dm-"]

def excluded (dev : Bytes) : Bool := excl.any fun p => p.isPrefixOf dev

structure IostatResult (F : Type) where
  utilMax : F
  awaitMax : F
deriving DecidableEq, Repr

structure IostatScan where
  blockIdx : ℤ := -1
  header : Line := []
deriving DecidableEq, Repr

def IostatScan.step (s : IostatScan) : Line → IostatScan
  | [] => s
  | dev :: rest =>
    if dev = avgCpu then { s with blockIdx := s.blockIdx + 1 }
    else if dev = device then { s with header := dev :: rest }
    else s

/-- The row that is made of a line, if one is. -/
def IostatScan.row? (s : IostatScan) : Line → Option Row
  | [] => none
  | dev :: rest =>
    if dev = avgCpu then none
    else if dev = device then none
    else if s.header = [] ∨ s.blockIdx < 1 then none
    else if excluded dev then none
    else some (makeRow s.header 1 (dev :: rest) 1)

section Parsers

variable {F : Type} [LinearOrder F] (d : Doubles F) (lang : Lang)

def IostatResult.follow (res : IostatResult F) : Option Row → IostatResult F
  | none => res
  | some r =>
    { utilMax := max res.utilMax (r.getOr d util d.zero)
      awaitMax := max res.awaitMax (r.getOr d wAwait d.zero) }

def iostatRun (toks : List Line) : IostatScan × IostatResult F :=
  toks.foldl (fun s line => (s.1.step line, s.2.follow d (s.1.row? line)))
    ({}, ⟨d.zero, d.zero⟩)

def parseIostat (text : Bytes) : IostatResult F := (iostatRun d (lang.tokens text)).2

end Parsers

end LinuxSys.Loadmix
