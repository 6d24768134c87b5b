import WireSchema.Double.Basic

/-!
# Shortest decimal digits

The text of a double uses the fewest decimal digits that read back as the same number, and of
those the digits nearest to it, with an even last digit where two are equally near.  All
comparisons are between exact quotients.
-/

namespace WireSchema

/-- A positive decimal `digits * 10 ^ (exponent - (length of digits) + 1)`: the digits without
trailing zeros, and the power of ten of the first one. -/
structure Decimal where
  digits : List Char
  exponent : Int
  deriving DecidableEq

namespace Double

/-- Whether `a / b ≤ c / d`. -/
def quotientLE (a b c d : Nat) : Bool := decide (a * d ≤ c * b)

/-- The reals that round to a finite positive magnitude lie between these quotients over one
denominator; the magnitude stands between them. -/
structure Interval where
  low : Nat
  value : Nat
  high : Nat
  den : Nat
  closed : Bool

/-- The interval of the reals that round to a finite positive number.  Below a power of two the
spacing halves, so the lower end is nearer there. -/
def interval (x : Double) : Interval :=
  let (m, q) := BinaryFormat.double.magnitude x.code
  let atPower := m == 0x10000000000000 && decide (BinaryFormat.double.minExponent < q)
  let (unit, den) := scaleQuotient 1 4 q
  { low := (if atPower then 4 * m - 1 else 4 * m - 2) * unit
    value := 4 * m * unit
    high := (4 * m + 2) * unit
    den := den
    closed := m % 2 == 0 }

/-- Whether `num / den` lies in the interval. -/
def Interval.contains (i : Interval) (num den : Nat) : Bool :=
  if i.closed then quotientLE i.low i.den num den && quotientLE num den i.high i.den
  else !quotientLE num den i.low i.den && !quotientLE i.high i.den num den

/-- The number of leading zeros after the point of `num / den` below one, found by at most `fuel`
multiplications by ten. -/
def leadingZeros : Nat → Nat → Nat → Nat
  | 0, _, _ => 0
  | fuel + 1, num, den => if den ≤ num * 10 then 0 else leadingZeros fuel (num * 10) den + 1

/-- The power of ten of the first digit of `num / den`. -/
def decimalExponent (num den : Nat) : Int :=
  if den ≤ num then ((Nat.toDigits 10 (num / den)).length : Int) - 1
  else -((leadingZeros 400 num den : Int) + 1)

/-- The point with `count` digits nearest to the value, if the interval holds one of the two
neighbours of the value on that grid. -/
def Interval.onGrid (i : Interval) (exponent : Int) (count : Nat) : Option Nat :=
  let step := exponent - (count - 1)
  -- the value in units of `10 ^ step`
  let (num, den) :=
    if 0 ≤ step then (i.value, i.den * Nat.pow 10 step.toNat)
    else (i.value * Nat.pow 10 (-step).toNat, i.den)
  let point (n : Nat) : Nat × Nat :=
    if 0 ≤ step then (n * Nat.pow 10 step.toNat, 1) else (n, Nat.pow 10 (-step).toNat)
  let below := num / den
  let hit (n : Nat) : Bool := let (a, b) := point n; i.contains a b
  match hit below, hit (below + 1) with
  | true, true => some (roundQuotient num den)
  | true, false => some below
  | false, true => some (below + 1)
  | false, false => none

/-- The first digit count, from `count` on, whose grid has a point in the interval. -/
def Interval.shortest (i : Interval) (exponent : Int) : Nat → Nat → Nat × Nat
  | 0, count => (0, count)
  | fuel + 1, count =>
    match i.onGrid exponent count with
    | some n => (n, count)
    | none => i.shortest exponent fuel (count + 1)

/-- The shortest decimal that reads back as a finite positive number. -/
def shortest (x : Double) : Decimal :=
  let i := x.interval
  let exponent := decimalExponent i.value i.den
  let (n, count) := i.shortest exponent 20 1
  let digits := Nat.toDigits 10 n
  -- the upper neighbour may be the next power of ten, with one digit more
  let exponent := exponent + ((digits.length : Int) - (count : Int))
  { digits := (digits.reverse.dropWhile (· == '0')).reverse, exponent := exponent }

end Double

namespace Decimal

/-- A run of zeros. -/
def zeros (n : Nat) : List Char := List.replicate n '0'

/-- The integer digits and the fraction digits in positional notation. -/
def positional (d : Decimal) : List Char × List Char :=
  if d.exponent < 0 then (['0'], zeros ((-d.exponent).toNat - 1) ++ d.digits)
  else
    let whole := d.exponent.toNat + 1
    (d.digits.take whole ++ zeros (whole - d.digits.length), d.digits.drop whole)

end Decimal

end WireSchema
