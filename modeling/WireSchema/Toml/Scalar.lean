import WireSchema.Bytes
import WireSchema.Double.Decimal
import WireSchema.Toml.Basic

/-!
# TOML strings and numbers

Strings stand in double quotes with escapes or in single quotes without, on one line or, in three
quotes, over several.  Digits may be grouped by single underscores.
-/

namespace WireSchema

namespace Toml

/-- A character that may stand in a comment or a string: a tab, or no control character. -/
def isTextChar (c : Char) : Bool := c == '\t' || (decide (32 ≤ c.toNat) && c.toNat != 127)

/-- The character with a code, unless the code is a surrogate or too large. -/
def charOfCode? (n : Nat) : Option Char :=
  if n.isValidChar then some (Char.ofNat n) else none

/-- The number of a run of hexadecimal digits. -/
def hexNat? (digits : List Char) : Option Nat :=
  digits.foldlM (fun n c => do return 16 * n + (← hexValue? c)) 0

/-- The character of an escape of so many hexadecimal digits, and the text after it. -/
def hexEscape? (count : Nat) (text : List Char) : Option (Char × List Char) := do
  if text.length < count then none
  let c ← charOfCode? (← hexNat? (text.take count))
  return (c, text.drop count)

/-- The character of the escape after a backslash, and the text after it. -/
def escape? : List Char → Option (Char × List Char)
  | 'b' :: rest => some ('\x08', rest)
  | 't' :: rest => some ('\t', rest)
  | 'n' :: rest => some ('\n', rest)
  | 'f' :: rest => some ('\x0c', rest)
  | 'r' :: rest => some ('\r', rest)
  | '"' :: rest => some ('"', rest)
  | '\\' :: rest => some ('\\', rest)
  | 'u' :: rest => hexEscape? 4 rest
  | 'U' :: rest => hexEscape? 8 rest
  | _ => none

/-- The rest of a string on one line after its opening quote, and the text after it.  The fuel
bounds the characters. -/
def lineString? (quote : Char) : Nat → List Char → Option (List Char × List Char)
  | 0, _ => none
  | _, [] => none
  | fuel + 1, c :: rest => do
    if c == quote then return ([], rest)
    let (c, rest) ← if c == '\\' && quote == '"' then escape? rest
      else if isTextChar c then some (c, rest) else none
    let (text, rest) ← lineString? quote fuel rest
    return (c :: text, rest)

/-- Blanks within a line. -/
def isBlank (c : Char) : Bool := c == ' ' || c == '\t'

/-- The text after a line end. -/
def lineBreak? : List Char → Option (List Char)
  | '\n' :: rest => some rest
  | '\r' :: '\n' :: rest => some rest
  | _ => none

/-- The text after blanks and line ends. -/
def skipSpace : List Char → List Char
  | '\n' :: rest => skipSpace rest
  | '\r' :: '\n' :: rest => skipSpace rest
  | c :: rest => if isBlank c then skipSpace rest else c :: rest
  | [] => []

/-- The rest of a string over lines after its opening quotes, and the text after it.  Up to two
quotes may stand before the closing three.  A backslash at the end of a line takes the line end
and the blank space after it away. -/
def blockString? (quote : Char) : Nat → List Char → Option (List Char × List Char)
  | 0, _ => none
  | _, [] => none
  | fuel + 1, c :: rest => do
    let quotes := ((c :: rest).takeWhile (· == quote)).length
    if 3 ≤ quotes then
      let inner := min quotes 5 - 3
      return (List.replicate inner quote, (c :: rest).drop (inner + 3))
    if c == '\\' && quote == '"' then
      match lineBreak? (rest.dropWhile isBlank) with
      | some after => blockString? quote fuel (skipSpace after)
      | none =>
        let (c, rest) ← escape? rest
        let (text, rest) ← blockString? quote fuel rest
        return (c :: text, rest)
    else
      let (c, rest) ← match lineBreak? (c :: rest) with
        | some after => some ('\n', after)
        | none => if isTextChar c then some (c, rest) else none
      let (text, rest) ← blockString? quote fuel rest
      return (c :: text, rest)

/-- The quotes that strings stand in. -/
def isQuote (c : Char) : Bool := c == '"' || c == '\x27'

/-- A string on one line with its quotes, and the text after it. -/
def lineText? : List Char → Option (String × List Char)
  | [] => none
  | quote :: rest => do
    if !isQuote quote then none
    let (chars, rest) ← lineString? quote (rest.length + 1) rest
    return (String.ofList chars, rest)

/-- A string of either form with its quotes, and the text after it. -/
def string? : List Char → Option (String × List Char)
  | a :: b :: c :: rest => do
    if isQuote a && a == b && b == c then
      let body := (lineBreak? rest).getD rest
      let (chars, rest) ← blockString? a (rest.length + 1) body
      return (String.ofList chars, rest)
    else lineText? (a :: b :: c :: rest)
  | text => lineText? text

/-! ## Numbers -/

/-- The parts of a text between separators; there is always at least one. -/
def splitBy (separator : Char) : List Char → List (List Char)
  | [] => [[]]
  | c :: rest =>
    match splitBy separator rest with
    | [] => [[c]]
    | part :: more => if c == separator then [] :: part :: more else (c :: part) :: more

/-- Digits without the underscores that group them; each underscore stands between two digits. -/
def grouped? (isDigit : Char → Bool) (text : List Char) : Option (List Char) :=
  let groups := splitBy '_' text
  if groups.all fun g => !g.isEmpty && g.all isDigit then some groups.flatten else none

/-- The integer digits of a number: a leading zero stands alone. -/
def wholeDigits? (text : List Char) : Option (List Char) := do
  match ← grouped? Char.isDigit text with
  | '0' :: _ :: _ => none
  | digits => return digits

/-- The value of digits in a base. -/
def inBase (base : Nat) (digits : List Char) : Nat :=
  digits.foldl (fun n c => base * n + (hexValue? c).getD 0) 0

/-- The integers that a settings file can hold. -/
def integer? (n : Int) : Option TomlValue :=
  if -0x8000000000000000 ≤ n ∧ n < 0x8000000000000000 then some (.integer n) else none

/-- An integer in the base that a letter after a zero stands for. -/
def based? (base : Nat) (text : List Char) : Option TomlValue := do
  let isDigit (c : Char) : Bool := (hexValue? c).any fun n => decide (n < base)
  integer? (inBase base (← grouped? isDigit text))

/-- The exponent that the text from its letter on gives; without any text it is zero. -/
def exponent? : List Char → Option Int
  | [] => some 0
  | _ :: '-' :: rest =>
    (grouped? Char.isDigit rest).map fun digits => -(Double.digitsNat digits : Int)
  | _ :: '+' :: rest => (grouped? Char.isDigit rest).map fun digits => Double.digitsNat digits
  | _ :: rest => (grouped? Char.isDigit rest).map fun digits => Double.digitsNat digits

/-- The float of a decimal text with a point or an exponent. -/
def decimalFloat? (negative : Bool) (text : List Char) : Option TomlValue := do
  let mantissa := text.takeWhile fun c => c != 'e' && c != 'E'
  let exponent ← exponent? (text.drop mantissa.length)
  let wholeText := mantissa.takeWhile (· != '.')
  let whole ← wholeDigits? wholeText
  let fraction ← match mantissa.drop wholeText.length with
    | [] => some []
    | _ :: r => grouped? Char.isDigit r
  let x := Double.ofDecimal negative (Double.digitsNat (whole ++ fraction))
    (exponent - fraction.length)
  if x = Double.infinite false then none else return .float x

/-- A decimal number without its sign. -/
def unsigned? (negative : Bool) (text : List Char) : Option TomlValue :=
  if text = ['i', 'n', 'f'] then some (.float (Double.infinite negative))
  else if text = ['n', 'a', 'n'] then some (.float Double.nan)
  else if text.any fun c => c == '.' || c == 'e' || c == 'E' then decimalFloat? negative text
  else do
    let n : Int := Double.digitsNat (← wholeDigits? text)
    integer? (if negative then -n else n)

/-- The value of a numeral. -/
def number? : List Char → Option TomlValue
  | '0' :: 'x' :: rest => based? 16 rest
  | '0' :: 'o' :: rest => based? 8 rest
  | '0' :: 'b' :: rest => based? 2 rest
  | '-' :: rest => unsigned? true rest
  | '+' :: rest => unsigned? false rest
  | text => unsigned? false text

/-- The characters that numerals are made of. -/
def isNumeralChar (c : Char) : Bool :=
  c.isAlphanum || c == '+' || c == '-' || c == '.' || c == '_'

end Toml

end WireSchema
