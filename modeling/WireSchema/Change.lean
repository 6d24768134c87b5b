import WireSchema.Json.Printer

/-!
# Changes

What a build adds to a schema, with the version it was added in.
-/

namespace WireSchema

/-- What was added. -/
inductive ChangeKind where
  | typeAdded
  | fieldAdded
  | enumValueAdded
  | versionAdded
  deriving DecidableEq

namespace ChangeKind

/-- The words for a kind of change. -/
def words : ChangeKind → String
  | .typeAdded => "type added"
  | .fieldAdded => "field added"
  | .enumValueAdded => "enum value added"
  | .versionAdded => "version added"

/-- The word for a kind of change in JSON. -/
def tag : ChangeKind → String
  | .typeAdded => "type_added"
  | .fieldAdded => "field_added"
  | .enumValueAdded => "enum_value_added"
  | .versionAdded => "version_added"

end ChangeKind

/-- An addition to a declaration: the declaration itself, or a field, an enum value or a version
of it. -/
structure Change where
  kind : ChangeKind
  fqn : String
  member : Option String
  version : UInt32
  deriving DecidableEq

namespace Change

/-- The line of a change in a log. -/
def text (c : Change) : String :=
  let member := match c.member with
    | some m => " " ++ m
    | none => ""
  c.kind.words ++ ": " ++ c.fqn ++ member ++ " (v" ++ toString c.version.toNat ++ ")"

/-- A change as JSON. -/
def toJson (c : Change) : Json :=
  let member := match c.member with
    | some m => [("member", Json.string m)]
    | none => []
  .object ([("change_type", .string c.kind.tag), ("fqn", .string c.fqn)] ++ member ++
    [("version", Json.ofUInt32 c.version)])

end Change

end WireSchema
