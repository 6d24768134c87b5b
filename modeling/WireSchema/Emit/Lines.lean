/-!
# Lines of emitted text

Emitted text is a list of lines.  Blocks are indented by four blanks a level, and blank lines stay
empty.
-/

namespace WireSchema

namespace Emit

/-- Lines of text, without their ends. -/
abbrev Lines := List String

/-- Lines one level deeper. -/
def indent (lines : Lines) : Lines := lines.map fun l => if l.isEmpty then l else "    " ++ l

/-- A head with an indented body in braces. -/
def block (head : String) (body : Lines) : Lines :=
  [head ++ " \x7b"] ++ indent body ++ ["\x7d"]

/-- The text of lines, each with its end. -/
def unlines (lines : Lines) : String := String.join (lines.map (· ++ "\n"))

/-- The parts between newlines; there is always at least one. -/
def splitNewlines : List Char → List (List Char)
  | [] => [[]]
  | c :: rest =>
    match splitNewlines rest with
    | [] => [[c]]
    | part :: more => if c = '\n' then [] :: part :: more else (c :: part) :: more

/-- A line without the carriage return before its end. -/
def dropReturn (line : List Char) : List Char :=
  if line.getLast? = some '\r' then line.dropLast else line

/-- The lines of a text.  A carriage return before a newline belongs to the line's end, and a text
that ends with a newline has no empty line after it. -/
def linesOf (text : String) : Lines :=
  let parts := splitNewlines text.toList
  let ended := parts.dropLast.map dropReturn
  let last := parts.getLastD []
  (ended ++ if last.isEmpty then [] else [last]).map String.ofList

end Emit

end WireSchema
