import WireSchema.Json.Basic
import WireSchema.Double.Shortest

/-!
# Writing JSON

Compact text has no blanks; indented text puts every item and member on a line of its own, two
spaces deeper than what holds it.  A double is written with the fewest digits that read back,
positionally from `1e-5` up to below `1e16` and with an exponent outside.
-/

namespace WireSchema

/-- The digits of a natural. -/
def natChars (n : Nat) : List Char := Nat.toDigits 10 n

/-- The digits of an integer, after a minus sign when it is negative. -/
def intChars (n : Int) : List Char :=
  if n < 0 then '-' :: natChars n.natAbs else natChars n.toNat

namespace Decimal

/-- The exponents of ten that are written positionally in JSON. -/
def isPositional (d : Decimal) : Bool := decide (-5 ≤ d.exponent) && decide (d.exponent < 16)

/-- A decimal as JSON text: positional with at least one fraction digit, or one digit before the
point and a signed exponent. -/
def jsonChars (d : Decimal) : List Char :=
  if d.isPositional then
    let (whole, fraction) := d.positional
    whole ++ '.' :: (if fraction.isEmpty then ['0'] else fraction)
  else
    let lead := d.digits.take 1
    let more := d.digits.drop 1
    lead ++ (if more.isEmpty then [] else '.' :: more) ++
      'e' :: (if d.exponent < 0 then '-' else '+') :: natChars d.exponent.natAbs

end Decimal

/-- A finite double as JSON text. -/
def Double.jsonChars (x : Double) : List Char :=
  let sign := if x.isNegative then ['-'] else []
  if x.isZero then sign ++ ['0', '.', '0'] else sign ++ x.shortest.jsonChars

namespace JsonNumber

/-- The text of a number. -/
def chars : JsonNumber → List Char
  | .natural n => natChars n.toNat
  | .negative n => intChars n.toInt
  | .float x => x.jsonChars

end JsonNumber

namespace Json

/-- A character inside a string.  Quote, backslash and control characters are escaped. -/
def escape (c : Char) : List Char :=
  if c = '"' then ['\\', '"']
  else if c = '\\' then ['\\', '\\']
  else if c = '\x08' then ['\\', 'b']
  else if c = '\t' then ['\\', 't']
  else if c = '\n' then ['\\', 'n']
  else if c = '\x0c' then ['\\', 'f']
  else if c = '\r' then ['\\', 'r']
  else if c.toNat < 32 then
    ['\\', 'u', '0', '0', Nat.digitChar (c.toNat / 16), Nat.digitChar (c.toNat % 16)]
  else [c]

/-- A string in quotes. -/
def stringChars (s : String) : List Char := '"' :: (s.toList.flatMap escape ++ ['"'])

/-- Pieces with a comma between neighbours. -/
def commaSeparated : List (List Char) → List Char
  | [] => []
  | [piece] => piece
  | piece :: rest => piece ++ ',' :: commaSeparated rest

mutual

/-- The compact text of a value. -/
def chars : Json → List Char
  | .null => ['n', 'u', 'l', 'l']
  | .bool true => ['t', 'r', 'u', 'e']
  | .bool false => ['f', 'a', 'l', 's', 'e']
  | .number n => n.chars
  | .string s => stringChars s
  | .array items => '[' :: (commaSeparated (charsItems items) ++ [']'])
  | .object members => '\x7b' :: (commaSeparated (charsMembers members) ++ ['\x7d'])

/-- The compact texts of items. -/
def charsItems : List Json → List (List Char)
  | [] => []
  | j :: rest => j.chars :: charsItems rest

/-- The compact texts of members. -/
def charsMembers : List (String × Json) → List (List Char)
  | [] => []
  | (name, j) :: rest => (stringChars name ++ ':' :: j.chars) :: charsMembers rest

end

/-- The compact text of a value. -/
def compact (j : Json) : String := String.ofList j.chars

/-- A new line at the given depth. -/
def newline (depth : Nat) : List Char := '\n' :: List.replicate (2 * depth) ' '

/-- Pieces between brackets, each on a line of its own; nothing between them when there are
none. -/
def block (opening closing : Char) (depth : Nat) (pieces : List (List Char)) : List Char :=
  if pieces.isEmpty then [opening, closing]
  else opening ::
    (commaSeparated (pieces.map (newline (depth + 1) ++ ·)) ++ newline depth ++ [closing])

mutual

/-- The indented text of a value at the given depth. -/
def indentedChars (depth : Nat) : Json → List Char
  | .array items => block '[' ']' depth (indentedItems (depth + 1) items)
  | .object members => block '\x7b' '\x7d' depth (indentedMembers (depth + 1) members)
  | .null => ['n', 'u', 'l', 'l']
  | .bool true => ['t', 'r', 'u', 'e']
  | .bool false => ['f', 'a', 'l', 's', 'e']
  | .number n => n.chars
  | .string s => stringChars s

/-- The indented texts of items. -/
def indentedItems (depth : Nat) : List Json → List (List Char)
  | [] => []
  | j :: rest => indentedChars depth j :: indentedItems depth rest

/-- The indented texts of members. -/
def indentedMembers (depth : Nat) : List (String × Json) → List (List Char)
  | [] => []
  | (name, j) :: rest =>
    (stringChars name ++ ':' :: ' ' :: indentedChars depth j) :: indentedMembers depth rest

end

/-- The indented text of a value. -/
def indented (j : Json) : String := String.ofList (indentedChars 0 j)

/-- The text of a value, indented or compact. -/
def render (pretty : Bool) (j : Json) : String := if pretty then j.indented else j.compact

end Json

end WireSchema
