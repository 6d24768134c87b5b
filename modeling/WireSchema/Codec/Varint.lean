import WireSchema.Codec.Basic

/-!
# Compact integers

Naturals up to `0xfc` take one byte.  Larger ones take a marker byte and two, four or eight bytes,
least significant first.  Integers are folded onto naturals by zigzag: `0, -1, 1, -2, ...`.
-/

namespace WireSchema

namespace Varint

/-- The number of bytes of a natural of 64 bits. -/
def size (n : Nat) : Nat :=
  if n ≤ 0xfc then 1 else if n ≤ 0xffff then 3 else if n ≤ 0xffffffff then 5 else 9

/-- The pieces in which a natural of 64 bits is written. -/
def pieces (n : Nat) : List Bytes :=
  if n ≤ 0xfc then [leBytes 1 n]
  else if n ≤ 0xffff then [[0xfd], leBytes 2 n]
  else if n ≤ 0xffffffff then [[0xfe], leBytes 4 n]
  else [[0xff], leBytes 8 n]

/-- Accounts for a natural. -/
def reserve (n : Nat) : CursorM Unit := CursorM.reserve (size n)

/-- Writes a natural. -/
def write (n : Nat) : CursorM Unit := CursorM.writeAll (pieces n)

/-- Reads a number of `width` bytes, least significant first. -/
def readFixed (width : Nat) : CursorM Nat := do
  return ofLE (← CursorM.read width)

/-- Reads a natural. -/
def read : CursorM Nat := do
  let n ← CursorM.readByte
  if n = 0xfd then readFixed 2
  else if n = 0xfe then readFixed 4
  else if n = 0xff then readFixed 8
  else return n

end Varint

/-- The natural an integer is folded onto. -/
def zigzag (n : Int) : Nat := if 0 ≤ n then 2 * n.toNat else 2 * (-n).toNat - 1

/-- The integer that is folded onto a natural. -/
def unzigzag (z : Nat) : Int := if z % 2 = 0 then (z / 2 : Nat) else -((z / 2 : Nat) : Int) - 1

theorem unzigzag_zigzag (n : Int) : unzigzag (zigzag n) = n := by
  unfold unzigzag zigzag
  split <;> split <;> omega

theorem zigzag_unzigzag (z : Nat) : zigzag (unzigzag z) = z := by
  unfold unzigzag zigzag
  split <;> split <;> omega

end WireSchema
