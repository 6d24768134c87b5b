import WireSchema.Bytes

/-!
# Writing TOML strings

A string is written in the plainest form that holds it: in double quotes when nothing has to be
escaped, else in single quotes, else in three quotes of either kind, and only then with escapes.
-/

namespace WireSchema

namespace Toml

/-- Whether a character can be written only as an escape. -/
def needsEscape (c : Char) : Bool :=
  c != '\n' && c != '\t' && (decide (c.toNat < 32) || c.toNat == 127)

/-- The longest run of a character. -/
def longestRun (c : Char) : Nat → List Char → Nat
  | run, [] => run
  | run, d :: rest => if d == c then longestRun c (run + 1) rest else max run (longestRun c 0 rest)

/-- Four digits of a code. -/
def codeDigits (n : Nat) : List Char :=
  [n / 4096 % 16, n / 256 % 16, n / 16 % 16, n % 16].map fun d => (hexDigit d).toUpper

/-- A character in double quotes, after so many quotes in a row; `room` quotes in a row may stand
as they are. -/
def escapeChar (lines : Bool) (room run : Nat) (c : Char) : List Char :=
  if c == '"' then (if run < room then ['"'] else ['\\', '"'])
  else if c == '\\' then ['\\', '\\']
  else if c == '\x08' then ['\\', 'b']
  else if c == '\t' then ['\\', 't']
  else if c == '\x0c' then ['\\', 'f']
  else if c == '\r' then ['\\', 'r']
  else if c == '\n' then (if lines then ['\n'] else ['\\', 'n'])
  else if needsEscape c then ['\\', 'u'] ++ codeDigits c.toNat
  else [c]

/-- Text in double quotes; the run counts the quotes just written as they are. -/
def escapeChars (lines : Bool) (room : Nat) : Nat → List Char → List Char
  | _, [] => []
  | run, c :: rest =>
    let next := if c == '"' && decide (run < room) then run + 1 else 0
    escapeChar lines room run c ++ escapeChars lines room next rest

/-- A string as it is written. -/
def stringText (s : String) : String :=
  let chars := s.toList
  let hasControl := chars.any needsEscape
  let hasBackslash := chars.contains '\\'
  let hasBreak := chars.contains '\n'
  let doubles := longestRun '"' 0 chars
  let singles := longestRun '\x27' 0 chars
  let opening := if hasBreak then "\n" else ""
  let basic := "\"" ++ String.ofList (escapeChars false 0 0 chars) ++ "\""
  let basicLines :=
    "\"\"\"" ++ opening ++ String.ofList (escapeChars true 2 0 chars) ++ "\"\"\""
  if !hasControl && !hasBackslash && doubles == 0 && !hasBreak then basic
  else if !hasControl && singles == 0 && !hasBreak then "'" ++ s ++ "'"
  else if !hasControl && !hasBackslash && decide (doubles ≤ 2) then basicLines
  else if !hasControl && decide (singles ≤ 2) then "'''" ++ opening ++ s ++ "'''"
  else if hasBreak then basicLines
  else basic

end Toml

end WireSchema
