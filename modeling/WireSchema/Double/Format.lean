/-!
# Binary floating-point formats and rounding

A binary format of the interchange kind is given by its precision, its least exponent and the
code of infinity.  A finite magnitude is `m * 2 ^ q`; its code orders magnitudes like numbers, so
rounding up past a power of two needs no case of its own.

`Format.nearest` rounds an exact quotient to the nearest magnitude of a format, a half going to
the even neighbour.
-/

namespace WireSchema

/-- A quotient rounded to the nearest integer, a half going to the even neighbour. -/
def roundQuotient (num den : Nat) : Nat :=
  let q := num / den
  let r := num % den
  if 2 * r < den then q
  else if den < 2 * r then q + 1
  else q + q % 2

/-- The quotient `num / den` times `2 ^ e`, as numerator and denominator. -/
def scaleQuotient (num den : Nat) (e : Int) : Nat × Nat :=
  if 0 ≤ e then (num * Nat.pow 2 e.toNat, den) else (num, den * Nat.pow 2 (-e).toNat)

/-- The greatest `e` with `2 ^ e ≤ num / den`, for positive numbers. -/
def binaryExponent (num den : Nat) : Int :=
  let guess := (num.log2 : Int) - (den.log2 : Int)
  let (n, d) := scaleQuotient num den (-guess)
  if d ≤ n then guess else guess - 1

/-- A binary floating-point format: digits of the significand, exponent of the least positive
magnitude, and the code of infinity. -/
structure BinaryFormat where
  precision : Nat
  minExponent : Int
  infinity : Nat

namespace BinaryFormat

/-- Double precision. -/
def double : BinaryFormat := ⟨53, -1074, 2047 * 0x10000000000000⟩

/-- Single precision. -/
def single : BinaryFormat := ⟨24, -149, 255 * 0x800000⟩

/-- The code of the magnitude nearest to `num / den`, a half going to the even neighbour; what is
too large becomes infinity. -/
def nearest (f : BinaryFormat) (num den : Nat) : Nat :=
  if num = 0 then 0
  else
    let q := max (binaryExponent num den - (f.precision - 1)) f.minExponent
    let (n, d) := scaleQuotient num den (-q)
    let m := roundQuotient n d
    let half := Nat.pow 2 (f.precision - 1)
    let code := if m < half then m else (q - f.minExponent + 1).toNat * half + (m - half)
    min code f.infinity

/-- The magnitude of a finite code as significand and exponent. -/
def magnitude (f : BinaryFormat) (code : Nat) : Nat × Int :=
  let half := Nat.pow 2 (f.precision - 1)
  let e := code / half
  if e = 0 then (code % half, f.minExponent)
  else (half + code % half, f.minExponent + (e - 1))

end BinaryFormat

end WireSchema
