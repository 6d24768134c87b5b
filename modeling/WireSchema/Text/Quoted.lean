import WireSchema.Text.Combining
import WireSchema.Text.Printable

/-!
# Quoted text

A text in double quotes on which nothing depends how it is displayed: quotes, backslashes, line
ends and tabs are escaped by a letter, and combining or unprintable characters by their code.
-/

namespace WireSchema

namespace Quoted

/-- The escape of a character by its code. -/
def codeEscape (c : Char) : List Char :=
  ['\\', 'u', '\x7b'] ++ Nat.toDigits 16 c.toNat ++ ['\x7d']

/-- A character inside quotes. -/
def escape (c : Char) : List Char :=
  if c = '\x00' then ['\\', '0']
  else if c = '\t' then ['\\', 't']
  else if c = '\r' then ['\\', 'r']
  else if c = '\n' then ['\\', 'n']
  else if c = '"' then ['\\', '"']
  else if c = '\\' then ['\\', '\\']
  else if isCombining c || !isPrintable c then codeEscape c
  else [c]

end Quoted

/-- A text in double quotes. -/
def quoted (s : String) : String :=
  String.ofList ('"' :: (s.toList.flatMap Quoted.escape ++ ['"']))

end WireSchema
