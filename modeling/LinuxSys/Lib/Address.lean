import LinuxSys.Lib.Json

/-! # Internet addresses as text

A dotted quad is four decimals up to 255 without leading zeros, so an address has one text. The
texts of version 6 are eight groups of hexadecimal digits with one gap for zeros and perhaps a
dotted quad at the end; of these only the addresses that stand for one of version 4 matter here.
-/

namespace LinuxSys.Lib

structure Ipv4 where
  a : UInt8
  b : UInt8
  c : UInt8
  d : UInt8
deriving DecidableEq, Repr

namespace Ipv4

def text (q : Ipv4) : Bytes :=
  decimal q.a.toNat ++ 0x2E :: (decimal q.b.toNat ++ 0x2E ::
    (decimal q.c.toNat ++ 0x2E :: decimal q.d.toNat))

def octet (text : Bytes) : Option UInt8 :=
  if text = [] ∨ ¬ text.all isDigit ∨ (text.head? = some 0x30 ∧ text ≠ [0x30]) then none
  else if digitsValue text ≤ 255 then some (UInt8.ofNat (digitsValue text))
  else none

def parse (text : Bytes) : Option Ipv4 := do
  let (a, text) ← splitFirst? 0x2E text
  let (b, text) ← splitFirst? 0x2E text
  let (c, d) ← splitFirst? 0x2E text
  return ⟨← octet a, ← octet b, ← octet c, ← octet d⟩

theorem octet_eq_some_iff {text : Bytes} {n : UInt8} :
    octet text = some n ↔ text = decimal n.toNat := by
  rw [octet]
  constructor
  · intro read
    split_ifs at read with bad small
    rw [not_or, not_or, not_not, List.all_eq_true, not_and, not_not] at bad
    rw [← Option.some.inj read, UInt8.toNat_ofNat_of_lt' (Nat.lt_succ_of_le small),
      decimal_digitsValue bad.1 bad.2.1 bad.2.2]
  · rintro rfl
    have small := n.toNat_lt
    have good : ¬ (decimal n.toNat = [] ∨ ¬ (decimal n.toNat).all isDigit ∨
        ((decimal n.toNat).head? = some 0x30 ∧ decimal n.toNat ≠ [0x30])) := by
      rw [not_or, not_or, not_not, List.all_eq_true, not_and, not_not]
      exact ⟨decimal_ne_nil _, fun b member => isDigit_of_mem_decimal member, decimal_of_head⟩
    rw [if_neg good, digitsValue_decimal, if_pos (by omega), UInt8.ofNat_toNat]

theorem dot_not_mem_decimal (n : ℕ) : 0x2E ∉ decimal n :=
  fun member => absurd (isDigit_of_mem_decimal member) (by decide)

/-- An address has one text. -/
theorem parse_eq_some_iff {text : Bytes} {q : Ipv4} : parse text = some q ↔ text = q.text := by
  obtain ⟨a, b, c, d⟩ := q
  simp only [parse, Option.bind_eq_bind, Option.bind_eq_some_iff, Option.pure_def, Option.some.injEq,
    Ipv4.mk.injEq, Prod.exists, octet_eq_some_iff, splitFirst?_eq_some_iff, Ipv4.text]
  constructor
  · rintro ⟨first, later, ⟨rfl, -⟩, second, later, ⟨rfl, -⟩, third, last, ⟨rfl, -⟩, _, rfl, _, rfl,
      _, rfl, _, rfl, rfl, rfl, rfl, rfl⟩
    rfl
  · rintro rfl
    exact ⟨_, _, ⟨rfl, dot_not_mem_decimal _⟩, _, _, ⟨rfl, dot_not_mem_decimal _⟩, _, _,
      ⟨rfl, dot_not_mem_decimal _⟩, a, rfl, b, rfl, c, rfl, d, rfl, rfl, rfl, rfl, rfl⟩

end Ipv4

namespace Ipv6

def isHex (b : UInt8) : Bool := (Json.hexDigit b).isSome

def hexValue (text : Bytes) : ℕ :=
  text.foldl (fun value b => value * 16 + (Json.hexDigit b).getD 0) 0

/-- Groups of hexadecimal digits up to the end of the text, the octets so far and where the gap is.
-/
def groups : ℕ → Bytes → Bytes → Option ℕ → Option (Bytes × Option ℕ)
  | 0, text, ip, gap => if text = [] then some (ip, gap) else none
  | room + 1, text, ip, gap =>
    if text.takeWhile isHex = [] ∨ 4 < (text.takeWhile isHex).length then none
    else
      match text.dropWhile isHex with
      | [] => some (ip ++ group (text.takeWhile isHex), gap)
      | c :: more =>
        if c = 0x2E then
          -- A dotted quad is the end of the text, and without a gap its last two groups.
          if (gap = none ∧ ip.length ≠ 12) ∨ 16 < ip.length + 4 then none
          else (Ipv4.parse text).map fun q => (ip ++ [q.a, q.b, q.c, q.d], gap)
        else if c ≠ 0x3A ∨ more = [] then none
        else if more.head? = some 0x3A then
          if gap.isSome then none
          else if more.tail = [] then
            some (ip ++ group (text.takeWhile isHex), some (ip.length + 2))
          else
            groups room more.tail (ip ++ group (text.takeWhile isHex)) (some (ip.length + 2))
        else groups room more (ip ++ group (text.takeWhile isHex)) gap
where
  group (digits : Bytes) : Bytes :=
    [UInt8.ofNat (hexValue digits / 256), UInt8.ofNat (hexValue digits)]

/-- Zeros for the gap. -/
def expand (ip : Bytes) (gap : Option ℕ) : Option Bytes :=
  if ip.length < 16 then
    gap.map fun front => ip.take front ++ List.replicate (16 - ip.length) 0 ++ ip.drop front
  else if gap.isSome then none
  else some ip

/-- No zone is taken. -/
def parse (text : Bytes) : Option Bytes :=
  if 0x25 ∈ text then none
  else if text = [0x3A, 0x3A] then some (List.replicate 16 0)
  else if text.take 2 = [0x3A, 0x3A] then
    (groups 8 (text.drop 2) [] (some 0)).bind fun (ip, gap) => expand ip gap
  else (groups 8 text [] none).bind fun (ip, gap) => expand ip gap

/-- The address of version 4 that one of version 6 stands for. -/
def to4 : Bytes → Option Ipv4
  | [0, 0, 0, 0, 0, 0, 0, 0, 0, 0, 0xFF, 0xFF, a, b, c, d] => some ⟨a, b, c, d⟩
  | _ => none

/-- What the text of an address is written with. -/
def plain (b : UInt8) : Bool := isHex b || b = 0x2E || b = 0x3A

theorem ascii_of_isDigit {b : UInt8} (digit : isDigit b) : b ≤ 0x7F := by
  rw [isDigit_iff] at digit
  rw [UInt8.le_iff_toNat_le]
  exact digit.2.trans (by decide)

end Ipv6

/-- The first mark of a text says which kind of address it is. -/
def addressMark (b : UInt8) : Bool := b = 0x2E || b = 0x3A || b = 0x25

/-- An address of version 4, as a dotted quad or as the address of version 6 that stands for it. -/
def parseIp4 (text : Bytes) : Option Ipv4 :=
  match text.find? addressMark with
  | some 0x2E => Ipv4.parse text
  | some 0x3A => (Ipv6.parse text).bind Ipv6.to4
  | _ => none

end LinuxSys.Lib
