import WireSchema.Toml.Scalar
import WireSchema.Toml.Table

/-!
# Reading TOML

A document is read line by line into statements, and the statements are put together to tables.
Values may be strings, integers, floats, booleans, dates and times, arrays and tables in braces.
Keys are not longer, and arrays and tables in braces not nested deeper, than `maxDepth`.
-/

namespace WireSchema

namespace Toml

/-- The text after blanks. -/
def skipBlanks (text : List Char) : List Char := text.dropWhile isBlank

/-- The text after a comment, which goes up to the line's end. -/
def skipComment : List Char → List Char
  | '#' :: rest => rest.dropWhile isTextChar
  | text => text

/-- The text after the end of a line: blanks, perhaps a comment, and a line break or the end of
the document. -/
def lineEnd? (text : List Char) : Option (List Char) :=
  match skipComment (skipBlanks text) with
  | [] => some []
  | rest => lineBreak? rest

/-- The text after blanks, comments and line breaks. -/
def skipFiller : Nat → List Char → List Char
  | 0, text => text
  | fuel + 1, text =>
    let rest := skipComment (skipBlanks text)
    match lineBreak? rest with
    | some rest => skipFiller fuel rest
    | none => rest

/-- How many tables and arrays a key or a value may lead through. -/
def maxDepth : Nat := 79

/-! ## Keys -/

/-- A character of a bare key. -/
def isBareChar (c : Char) : Bool := c.isAlphanum || c == '_' || c == '-'

/-- One part of a key, and the text after it. -/
def keyPart? (text : List Char) : Option (String × List Char) :=
  let bare := text.takeWhile isBareChar
  if bare.isEmpty then lineText? text else some (String.ofList bare, text.drop bare.length)

/-- The parts of a dotted key, and the text after it and the blanks behind it. -/
def keyParts? : Nat → List Char → Option (List String × List Char)
  | 0, _ => none
  | fuel + 1, text => do
    let (part, rest) ← keyPart? (skipBlanks text)
    match skipBlanks rest with
    | '.' :: rest => do
      let (parts, rest) ← keyParts? fuel rest
      return (part :: parts, rest)
    | rest => return ([part], rest)

/-- A dotted key that is not too long, and the text after it. -/
def key? (fuel : Nat) (text : List Char) : Option (List String × List Char) :=
  (keyParts? fuel text).filter fun (parts, _) => decide (parts.length ≤ maxDepth)

/-! ## Values -/

mutual

/-- A value, and the text after it.  There is room for so many more levels of arrays and tables in
braces. -/
def value? : Nat → Nat → List Char → Option (TomlValue × List Char)
  | 0, _, _ => none
  | _, _, [] => none
  | fuel + 1, room, c :: rest => do
    if isQuote c then
      let (s, rest) ← string? (c :: rest)
      return (.string s, rest)
    else if c == '[' then
      if room = 0 then none
      let (items, rest) ← items? fuel (room - 1) (skipFiller fuel rest)
      return (.array items, rest)
    else if c == '\x7b' then
      if room = 0 then none
      let (bindings, rest) ← match skipBlanks rest with
        | '\x7d' :: rest => some ([], rest)
        | rest => bindings? fuel (room - 1) rest
      return (.table (← inlineTable? bindings), rest)
    else if let some (m, rest) := moment? (c :: rest) then return (.moment m, rest)
    else
      let word := (c :: rest).takeWhile isNumeralChar
      let after := (c :: rest).drop word.length
      if word = ['t', 'r', 'u', 'e'] then return (.bool true, after)
      else if word = ['f', 'a', 'l', 's', 'e'] then return (.bool false, after)
      else return (← number? word, after)

/-- The items of an array up to its closing bracket, and the text after it. -/
def items? : Nat → Nat → List Char → Option (List TomlValue × List Char)
  | 0, _, _ => none
  | _, _, ']' :: rest => some ([], rest)
  | fuel + 1, room, text => do
    let (item, rest) ← value? fuel room text
    match skipFiller fuel rest with
    | ']' :: rest => return ([item], rest)
    | ',' :: rest =>
      let (items, rest) ← items? fuel room (skipFiller fuel rest)
      return (item :: items, rest)
    | _ => none

/-- The bindings of a table in braces up to its closing brace, and the text after it. -/
def bindings? : Nat → Nat → List Char → Option (List (List String × TomlValue) × List Char)
  | 0, _, _ => none
  | fuel + 1, room, text => do
    let (path, rest) ← key? fuel text
    match rest with
    | '=' :: rest =>
      let (v, rest) ← value? fuel room (skipBlanks rest)
      match skipBlanks rest with
      | '\x7d' :: rest => return ([(path, v)], rest)
      | ',' :: rest =>
        let (more, rest) ← bindings? fuel room rest
        return ((path, v) :: more, rest)
      | _ => none
    | _ => none

end

/-! ## Documents -/

/-- One statement, and the text after its line. -/
def statement? (fuel : Nat) : List Char → Option (Statement × List Char)
  | '[' :: '[' :: rest => do
    let (path, rest) ← key? fuel rest
    match rest with
    | ']' :: ']' :: rest => return (.openItem path, ← lineEnd? rest)
    | _ => none
  | '[' :: rest => do
    let (path, rest) ← key? fuel rest
    match rest with
    | ']' :: rest => return (.openTable path, ← lineEnd? rest)
    | _ => none
  | text => do
    let (path, rest) ← key? fuel text
    match rest with
    | '=' :: rest =>
      let (v, rest) ← value? fuel maxDepth (skipBlanks rest)
      return (.binding path v, ← lineEnd? rest)
    | _ => none

/-- The statements of a document. -/
def statements? : Nat → List Char → Option (List Statement)
  | 0, _ => none
  | fuel + 1, text =>
    match skipFiller fuel text with
    | [] => some []
    | rest => do
      let (s, rest) ← statement? fuel rest
      return s :: (← statements? fuel rest)

/-- The root table of a text.  A byte order mark at its start is passed over. -/
def parse? (text : String) : Option TomlTable := do
  let chars := match text.toList with
    | '\ufeff' :: rest => rest
    | chars => chars
  assemble? (← statements? (chars.length + 2) chars)

end Toml

end WireSchema
