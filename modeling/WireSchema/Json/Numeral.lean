import WireSchema.Json.Basic

/-!
# JSON numerals

A numeral is a number as it is written.  Its value is an integer when it is written as one and
fits, and a double otherwise.  The double is made from the leading digits that fit 64 bits: the
value of these digits is rounded, then scaled by a rounded power of ten and rounded again.
Further digits of the integer part count as powers of ten, further digits of the fraction are
dropped.  A magnitude that is too large has no value.
-/

namespace WireSchema

/-- A number as it is written: sign, digits before the point, digits after it, and the exponent
with its sign. -/
structure Numeral where
  negative : Bool
  whole : List Char
  fraction : Option (List Char)
  exponent : Option (Bool × List Char)
  deriving DecidableEq

namespace Numeral

/-- The value of a digit. -/
def digitValue (c : Char) : Nat := c.toNat - 48

/-- The value of a run of digits. -/
def digitsValue (digits : List Char) : Nat :=
  digits.foldl (fun n c => 10 * n + digitValue c) 0

/-- Appends digits to a value while it fits 64 bits; the digits that are left over follow. -/
def takeFitting : Nat → List Char → Nat × List Char
  | value, [] => (value, [])
  | value, c :: rest =>
    let next := 10 * value + digitValue c
    if next < 0x10000000000000000 then takeFitting next rest else (value, c :: rest)

/-- The double nearest to a power of ten. -/
def tenPower (k : Nat) : Double := Double.ofNat (Nat.pow 10 k)

/-- The greatest power of ten that a double can hold. -/
def maxTenPower : Nat := 308

/-- Divides by `10 ^ k`, at most by the greatest power of ten at a time. -/
def divideByTens (x : Double) (k : Nat) : Double :=
  if k ≤ maxTenPower then x.div (tenPower k)
  else if x.isZero then x
  else divideByTens (x.div (tenPower maxTenPower)) (k - maxTenPower)
termination_by k
decreasing_by simp only [maxTenPower] at *; omega

/-- `x * 10 ^ e`, unless it is too large. -/
def scaleByTens? (x : Double) (e : Int) : Option Double :=
  if e < 0 then some (divideByTens x (-e).toNat)
  else if e ≤ maxTenPower then
    let y := x.mul (tenPower e.toNat)
    if y.isFinite then some y else none
  else if x.isZero then some x
  else none

/-- The double a numeral stands for, unless it is too large. -/
def toDouble? (n : Numeral) : Option Double := do
  let (value, excess) := takeFitting 0 n.whole
  let fraction := n.fraction.getD []
  let (value, dropped) := takeFitting value fraction
  let shift : Int := (excess.length : Int) - ((fraction.length - dropped.length : Nat) : Int)
  let magnitude ← match n.exponent with
    | none => scaleByTens? (Double.ofNat value) shift
    | some (negative, digits) =>
      let e := digitsValue digits
      if e < 0x80000000 then
        scaleByTens? (Double.ofNat value) (if negative then shift - e else shift + e)
      else if value ≠ 0 ∧ !negative then none
      else some Double.zero
  return if n.negative then magnitude.neg else magnitude

/-- Whether the numeral is written without point and exponent. -/
def isInteger (n : Numeral) : Bool := n.fraction.isNone && n.exponent.isNone

/-- The number a numeral stands for, unless it is too large. -/
def toNumber? (n : Numeral) : Option JsonNumber :=
  let value := digitsValue n.whole
  if n.isInteger && !n.negative && decide (value < 0x10000000000000000) then
    some (.natural (UInt64.ofNat value))
  else if n.isInteger && n.negative && decide (0 < value ∧ value ≤ 0x8000000000000000) then
    some (.negative (Int64.ofInt (-value)))
  else n.toDouble?.map .float

end Numeral

end WireSchema
