import WireSchema.Codec.Varint

/-!
# Integers that sort by their bytes

Naturals below 251 take one byte.  Larger ones take a marker byte that grows with the width and
then one, two, three, four or eight bytes, most significant first, so that byte strings compare
like the numbers.  Signed integers are shifted up by `2 ^ 63` first.
-/

namespace WireSchema

namespace Lexint

/-- The number of bytes of a natural after its marker; none for a natural without one. -/
def width (n : Nat) : Nat :=
  if n < 251 then 0
  else if n < 0x100 then 1
  else if n < 0x10000 then 2
  else if n < 0x1000000 then 3
  else if n < 0x100000000 then 4
  else 8

/-- The marker before the given number of bytes. -/
def marker (width : Nat) : Nat := if width ≤ 4 then 250 + width else 255

/-- The number of bytes of a natural of 64 bits. -/
def size (n : Nat) : Nat := 1 + width n

/-- The pieces in which a natural of 64 bits is written. -/
def pieces (n : Nat) : List Bytes :=
  if n < 251 then [leBytes 1 n] else [leBytes 1 (marker (width n)), beBytes (width n) n]

/-- Reads a natural. -/
def read : CursorM Nat := do
  let n ← CursorM.readByte
  if n < 251 then return n
  else if n < 255 then return ofBE (← CursorM.read (n - 250))
  else return ofBE (← CursorM.read 8)

/-- A signed integer of 64 bits shifted onto a natural. -/
def shift (n : Int) : Nat := (n + 0x8000000000000000).toNat

/-- The signed integer that is shifted onto a natural. -/
def unshift (n : Nat) : Int := (n : Int) - 0x8000000000000000

end Lexint

end WireSchema
