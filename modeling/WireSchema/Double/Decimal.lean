import WireSchema.Double.Shortest

/-!
# Decimal texts of doubles

Reading a decimal rounds once, to the nearest double.  Writing uses the shortest digits in
positional notation, however large or small the number is.
-/

namespace WireSchema

namespace Double

/-- The infinity of a sign. -/
def infinite (negative : Bool) : Double := ofCode negative BinaryFormat.double.infinity

/-- A quiet not-a-number. -/
def nan : Double := ofCode false (BinaryFormat.double.infinity + 0x8000000000000)

/-- The number nearest to `mantissa * 10 ^ exponent`.  Far outside the range of doubles the answer
is known without the power. -/
def ofDecimal (negative : Bool) (mantissa : Nat) (exponent : Int) : Double :=
  let size := exponent + (Nat.toDigits 10 mantissa).length
  if mantissa = 0 ∨ size < -400 then ofCode negative 0
  else if 400 < size then infinite negative
  else if 0 ≤ exponent then ofQuotient negative (mantissa * Nat.pow 10 exponent.toNat) 1
  else ofQuotient negative mantissa (Nat.pow 10 (-exponent).toNat)

/-- The magnitude of a finite number in positional notation. -/
def positionalChars (x : Double) : List Char :=
  if x.isZero then ['0']
  else
    match x.shortest.positional with
    | (whole, []) => whole
    | (whole, fraction) => whole ++ '.' :: fraction

/-- The text of a number in positional notation. -/
def plainText (x : Double) : String :=
  let sign := if x.isNegative then "-" else ""
  if x.isNaN then "NaN"
  else if x.isFinite then sign ++ String.ofList x.positionalChars
  else sign ++ "inf"

/-- The value of decimal digits. -/
def digitsNat (digits : List Char) : Nat := digits.foldl (fun n c => 10 * n + (c.toNat - 48)) 0

/-- Splits off the exponent of a decimal; without one it is zero. -/
def splitExponent? (text : List Char) : Option (List Char × Int) :=
  let mantissa := text.takeWhile fun c => c != 'e' && c != 'E'
  match text.drop mantissa.length with
  | [] => some (mantissa, 0)
  | _ :: rest =>
    let (negative, digits) := match rest with
      | '-' :: r => (true, r)
      | '+' :: r => (false, r)
      | r => (false, r)
    if digits.isEmpty || !digits.all Char.isDigit then none
    else some (mantissa, if negative then -(digitsNat digits : Int) else digitsNat digits)

/-- The number that an unsigned decimal text names: digits with at most one point among or around
them, and perhaps an exponent. -/
def ofUnsigned? (negative : Bool) (text : List Char) : Option Double := do
  let (mantissa, exponent) ← splitExponent? text
  let whole := mantissa.takeWhile Char.isDigit
  let fraction ← match mantissa.drop whole.length with
    | [] => some []
    | c :: rest => if c == '.' && rest.all Char.isDigit then some rest else none
  if whole.isEmpty && fraction.isEmpty then none
  else some (ofDecimal negative (digitsNat (whole ++ fraction)) (exponent - fraction.length))

/-- The number that a text names: a decimal, or a word for what is not finite, in any case and
perhaps with a sign. -/
def ofText? (text : String) : Option Double :=
  let (negative, rest) := match text.toList with
    | '-' :: r => (true, r)
    | '+' :: r => (false, r)
    | r => (false, r)
  let word := (String.ofList rest).toLower
  if word == "inf" || word == "infinity" then some (infinite negative)
  else if word == "nan" then some nan
  else ofUnsigned? negative rest

end Double

end WireSchema
