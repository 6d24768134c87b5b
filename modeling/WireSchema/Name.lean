/-!
# Names

Namespaces, types and fields have names of ASCII letters, digits, underscores, points and
hyphens that do not start with a point or a hyphen.  A type is addressed by its namespace and its
name together.
-/

namespace WireSchema

namespace Name

/-- The pattern that names match. -/
def pattern : String := "^[A-Za-z0-9_][A-Za-z0-9_.-]*$"

/-- An ASCII letter, a digit or an underscore. -/
def isWordChar (c : Char) : Bool := c.isAlphanum || c == '_'

/-- A character that may stand in a name. -/
def isNameChar (c : Char) : Bool := isWordChar c || c == '.' || c == '-'

/-- Whether a text is a name. -/
def isValid (name : String) : Bool :=
  match name.toList with
  | [] => false
  | c :: rest => isWordChar c && rest.all isNameChar

/-- The name by which a type of a namespace is addressed. -/
def qualified (ns name : String) : String := "@" ++ ns ++ "/" ++ name

end Name

end WireSchema
