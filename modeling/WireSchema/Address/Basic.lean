import WireSchema.Bytes

/-!
# Network addresses

An address is a 32-bit or a 128-bit number; an endpoint is an address with a port.  The text of a
long address is eight groups of hexadecimal digits, the first longest run of two or more zero
groups written as `::`; an address that maps a short one is written with it in dotted form.
-/

namespace WireSchema

/-- The two families of addresses. -/
inductive Family where
  | v4
  | v6
  deriving DecidableEq

/-- A network address. -/
inductive Address where
  | v4 (n : UInt32)
  | v6 (n : BitVec 128)
  deriving DecidableEq

/-- An address with a port. -/
structure Endpoint where
  address : Address
  port : UInt16
  deriving DecidableEq

namespace Address

/-- The family an address belongs to. -/
def family : Address → Family
  | .v4 _ => .v4
  | .v6 _ => .v6

/-- The octets of an address in network order. -/
def octets : Address → Bytes
  | .v4 n => beBytes 4 n.toNat
  | .v6 n => beBytes 16 n.toNat

/-- The address of a family with the given octets. -/
def ofOctets : Family → Bytes → Address
  | .v4, bytes => .v4 (UInt32.ofNat (ofBE bytes))
  | .v6, bytes => .v6 (BitVec.ofNat 128 (ofBE bytes))

/-! ## Text -/

/-- The decimal digits of a number. -/
def decimalChars (n : Nat) : List Char := Nat.toDigits 10 n

/-- The text of a short address: four octets with points between them. -/
def v4Chars (n : Nat) : List Char :=
  decimalChars (n / 0x1000000 % 256) ++ '.' :: decimalChars (n / 0x10000 % 256) ++
    '.' :: decimalChars (n / 0x100 % 256) ++ '.' :: decimalChars (n % 256)

/-- The last `count` groups of sixteen bits of a number, most significant first. -/
def groupsOf : Nat → Nat → List Nat
  | 0, _ => []
  | count + 1, n => n / Nat.pow 65536 count % 65536 :: groupsOf count n

/-- The number with the given groups of sixteen bits, most significant first. -/
def ofGroups (groups : List Nat) : Nat := groups.foldl (fun n g => 65536 * n + g) 0

/-- A run of zero groups: where it starts and how long it is. -/
structure ZeroRun where
  start : Nat
  length : Nat
  deriving DecidableEq

/-- The first longest run of zeros in groups that start at an index, given the run that reaches
up to them and the longest run so far. -/
def longestZeroRun : List Nat → Nat → ZeroRun → ZeroRun → ZeroRun
  | [], _, _, longest => longest
  | g :: rest, index, current, longest =>
    if g = 0 then
      let current : ZeroRun :=
        if current.length = 0 then ⟨index, 1⟩ else ⟨current.start, current.length + 1⟩
      longestZeroRun rest (index + 1) current
        (if longest.length < current.length then current else longest)
    else longestZeroRun rest (index + 1) ⟨0, 0⟩ longest

/-- Groups of hexadecimal digits with colons between them. -/
def groupChars : List Nat → List Char
  | [] => []
  | [g] => Nat.toDigits 16 g
  | g :: rest => Nat.toDigits 16 g ++ ':' :: groupChars rest

/-- The text of a long address that maps no short one. -/
def plainV6Chars (groups : List Nat) : List Char :=
  let run := longestZeroRun groups 0 ⟨0, 0⟩ ⟨0, 0⟩
  if 1 < run.length then
    groupChars (groups.take run.start) ++
      ':' :: ':' :: groupChars (groups.drop (run.start + run.length))
  else groupChars groups

/-- The text of a long address. -/
def v6Chars (n : Nat) : List Char :=
  if n / 0x100000000 = 0xffff then
    [':', ':', 'f', 'f', 'f', 'f', ':'] ++ v4Chars (n % 0x100000000)
  else plainV6Chars (groupsOf 8 n)

/-- The characters of an address. -/
def chars : Address → List Char
  | .v4 n => v4Chars n.toNat
  | .v6 n => v6Chars n.toNat

/-- The text of an address. -/
def text (a : Address) : String := String.ofList a.chars

end Address

namespace Endpoint

/-- The characters of an endpoint: a long address stands in brackets. -/
def chars (e : Endpoint) : List Char :=
  let port := ':' :: Address.decimalChars e.port.toNat
  match e.address with
  | .v4 _ => e.address.chars ++ port
  | .v6 _ => '[' :: e.address.chars ++ ']' :: port

/-- The text of an endpoint. -/
def text (e : Endpoint) : String := String.ofList e.chars

end Endpoint

end WireSchema
