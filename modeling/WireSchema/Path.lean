/-!
# Paths

A path is a text of parts with slashes between them.  An empty part and a part of one point stay
where they are; a part of two points goes one directory up.
-/

namespace WireSchema

namespace Path

/-- The parts of a path between its slashes. -/
def parts (path : String) : List String := path.splitOn "/"

/-- Whether a part stays where it is. -/
def stays (part : String) : Bool := part == "" || part == "."

/-- Whether a part stands for a directory without naming it. -/
def isDots (part : String) : Bool := part == "." || part == ".."

/-- Whether a path is a hyphen; parts after it that stay there do not count. -/
def isHyphen (path : String) : Bool :=
  match parts path with
  | "-" :: rest => rest.all stays
  | _ => false

/-- The parts of a path up to the last one that does not stay where it is. -/
def trimmed (path : String) : List String := ((parts path).reverse.dropWhile stays).reverse

/-- The name at the end of a path, if it has one. -/
def fileName? (path : String) : Option String := (trimmed path).getLast?.filter (· != "..")

/-- Whether the name at the end of a path has an extension.  A point at the start of a name begins
no extension. -/
def hasExtension (extension path : String) : Bool :=
  (fileName? path).any fun name => name.endsWith ("." ++ extension) && name != "." ++ extension

/-- A path with an extension added to the name at its end. -/
def extended? (path extension : String) : Option String :=
  (fileName? path).map fun _ => String.intercalate "/" (trimmed path) ++ "." ++ extension

end Path

end WireSchema
