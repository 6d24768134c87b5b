import WireSchema.Double.Format

/-!
# Double-precision numbers

A `Double` is an IEEE 754 binary64 number given by its 64 bits.  Arithmetic is exact on naturals
followed by one rounding, so nothing here depends on the machine's floating point.
-/

namespace WireSchema

/-- An IEEE 754 binary64 number, by its bits. -/
structure Double where
  bits : UInt64
  deriving DecidableEq

namespace Double

/-- The bit that holds the sign. -/
def signBit : Nat := 0x8000000000000000

/-- Whether the sign bit is set; negative zero has it. -/
def isNegative (x : Double) : Bool := decide (signBit ≤ x.bits.toNat)

/-- The bits without the sign. -/
def code (x : Double) : Nat := x.bits.toNat % signBit

/-- Neither infinite nor not a number. -/
def isFinite (x : Double) : Bool := decide (x.code < BinaryFormat.double.infinity)

/-- Not a number. -/
def isNaN (x : Double) : Bool := decide (BinaryFormat.double.infinity < x.code)

/-- Zero of either sign. -/
def isZero (x : Double) : Bool := decide (x.code = 0)

/-- The number with the given sign and the given bits below it. -/
def ofCode (negative : Bool) (code : Nat) : Double :=
  ⟨UInt64.ofNat (code % signBit + if negative then signBit else 0)⟩

/-- Positive zero. -/
def zero : Double := ⟨0⟩

/-- The same number with the sign bit flipped. -/
def neg (x : Double) : Double := ofCode (!x.isNegative) x.code

/-- The number nearest to `num / den`, negated when asked. -/
def ofQuotient (negative : Bool) (num den : Nat) : Double :=
  ofCode negative (BinaryFormat.double.nearest num den)

/-- The number nearest to a natural. -/
def ofNat (n : Nat) : Double := ofQuotient false n 1

/-- The number nearest to an integer. -/
def ofInt (n : Int) : Double := ofQuotient (decide (n < 0)) n.natAbs 1

/-- A finite magnitude as an exact quotient. -/
def quotient (x : Double) : Nat × Nat :=
  let (m, q) := BinaryFormat.double.magnitude x.code
  scaleQuotient m 1 q

/-- The product of two finite non-negative numbers, rounded once. -/
def mul (x y : Double) : Double :=
  let (a, b) := x.quotient
  let (c, d) := y.quotient
  ofQuotient false (a * c) (b * d)

/-- The quotient of a finite non-negative number by a finite positive one, rounded once. -/
def div (x y : Double) : Double :=
  let (a, b) := x.quotient
  let (c, d) := y.quotient
  ofQuotient false (a * d) (b * c)

/-! ## Single precision -/

/-- The bits of the single-precision number nearest to `x`.  Of a payload of not a number the top
bits stay, and it becomes quiet. -/
def toSingleBits (x : Double) : Nat :=
  let sign := if x.isNegative then 0x80000000 else 0
  if x.isNaN then
    sign + BinaryFormat.single.infinity + 0x400000 + x.code % 0x8000000000000 / 0x20000000
  else if x.isFinite then
    let (num, den) := x.quotient
    sign + BinaryFormat.single.nearest num den
  else sign + BinaryFormat.single.infinity

/-- The number with the given single-precision bits. -/
def ofSingleBits (bits : Nat) : Double :=
  let negative := decide (0x80000000 ≤ bits)
  let code := bits % 0x80000000
  if code < BinaryFormat.single.infinity then
    let (m, q) := BinaryFormat.single.magnitude code
    let (num, den) := scaleQuotient m 1 q
    ofQuotient negative num den
  else if code = BinaryFormat.single.infinity then ofCode negative BinaryFormat.double.infinity
  else ofCode negative
    (BinaryFormat.double.infinity + 0x8000000000000 + code % 0x400000 * 0x20000000)

end Double

end WireSchema
