import WireSchema.Description.Basic
import WireSchema.Json.Printer

/-!
# Writing descriptions

Keys stand in a fixed order.  A key without a value is left out, and so are false marks of a
declaration; the marks of a field are always written.
-/

namespace WireSchema

namespace Json

/-- A member that is left out when there is no value. -/
def optionalMember {α : Type} (name : String) (f : α → Json) : Option α → List (String × Json)
  | some a => [(name, f a)]
  | none => []

/-- A mark that is left out when it is false. -/
def markMember (name : String) (b : Bool) : List (String × Json) :=
  if b then [(name, .bool true)] else []

end Json

/-- An enum value as JSON. -/
def EnumEntry.toJson : EnumEntry → Json
  | .key k => .string k
  | .versioned k v => .object [("key", .string k), ("version", Json.ofUInt32 v)]

/-- A list of enum values as JSON. -/
def EnumEntry.listToJson (entries : List EnumEntry) : Json := .array (entries.map EnumEntry.toJson)

/-- What stands under the key for an enum, as JSON. -/
def EnumSpec.toJson : EnumSpec → Json
  | .flag b => .bool b
  | .values entries => EnumEntry.listToJson entries

/-- An entry of a versioned type as JSON. -/
def VersionEntry.toJson (e : VersionEntry) : Json :=
  .object ([("type", .string e.typeName), ("version", Json.ofUInt64 e.version)] ++
    Json.optionalMember "map" .string e.map)

/-- A field as JSON. -/
def FieldDescription.toJson (f : FieldDescription) : Json :=
  .object ([("name", .string f.name), ("required", .bool f.required), ("array", .bool f.array),
    ("type", .string f.typeName)] ++ Json.optionalMember "version" Json.ofUInt32 f.version)

/-- A description as JSON. -/
def Description.toJson (d : Description) : Json :=
  .object ([("name", .string d.name)] ++
    Json.optionalMember "namespace" .string d.ns ++
    Json.optionalMember "alias" .string d.target ++
    Json.optionalMember "enum" EnumSpec.toJson d.enum ++
    Json.optionalMember "values" EnumEntry.listToJson d.values ++
    Json.optionalMember "offset" Json.ofUInt64 d.offset ++
    Json.markMember "strings" d.strings ++
    Json.markMember "array" d.array ++
    Json.optionalMember "type" .string d.element ++
    Json.optionalMember "external" .string d.external ++
    Json.optionalMember "versions" (fun l => .array (l.map VersionEntry.toJson)) d.versions ++
    Json.optionalMember "compact" .bool d.compact ++
    Json.optionalMember "flagsPosition" Json.ofInt64 d.flagsPosition ++
    Json.optionalMember "fields" (fun l => .array (l.map FieldDescription.toJson)) d.fields ++
    Json.optionalMember "version" Json.ofUInt32 d.version)

/-- A snapshot as JSON. -/
def Snapshot.toJson (s : Snapshot) : Json :=
  .object [("version", Json.ofUInt32 s.version),
    ("schema", .array (s.declarations.map Description.toJson))]

/-- The text of a snapshot, indented or compact. -/
def Snapshot.text (pretty : Bool) (s : Snapshot) : String := s.toJson.render pretty

end WireSchema
