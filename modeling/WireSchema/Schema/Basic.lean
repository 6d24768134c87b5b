import WireSchema.Change
import WireSchema.Description.Printer
import WireSchema.Digest
import WireSchema.TypeTable.Codec

/-!
# Schemas

A schema is the result of a build: the checked type table, the version it was built at, the
namespaces that the build declared and the log of what it added.
-/

namespace WireSchema

/-- A built schema. -/
structure Schema where
  version : UInt32
  /-- Whether changes raise the version. -/
  versioned : Bool
  /-- Whether the build changed anything. -/
  changed : Bool
  types : TypeTable
  /-- The namespaces of the build, each with the module its external parts come from. -/
  namespaces : List (String × Option String)
  changes : List Change
  deriving DecidableEq

namespace Schema

/-- The module that the external parts of a namespace come from. -/
def modulePath? (s : Schema) (ns : String) : Option String := (s.namespaces.lookup ns).join

/-- The keys of an enum with the numbers they are written as; enums that are written as their keys
have none. -/
def enumValues? (s : Schema) (name : String) : Option (List (String × UInt64)) :=
  match s.types.resolve? name with
  | some (.declared d) =>
    match d.body with
    | .enum e => if e.strings then none else some e.codes
    | _ => none
  | _ => none

/-- The codec of a named type. -/
def codec? (s : Schema) (b : Bindings) (name : String) : Except CodecError Codec :=
  s.types.codec? b name

/-- The bytes of a value of a named type. -/
def encode (s : Schema) (b : Bindings) (name : String) (v : Value) : Except CodecError Bytes := do
  (← s.codec? b name).encode v

/-- The value of a named type at the start of a byte string. -/
def decode (s : Schema) (b : Bindings) (name : String) (bytes : Bytes) :
    Except CodecError Value := do
  (← s.codec? b name).decode bytes

/-- The schema as it is persisted. -/
def toSnapshot (s : Schema) : Snapshot := ⟨s.version, s.types.map (·.toDescription)⟩

/-- The persisted text. -/
def text (s : Schema) (pretty : Bool) : String := s.toSnapshot.text pretty

/-- The digest of the compact persisted text. -/
def fingerprint (s : Schema) : Digest := .ofText (s.text false)

end Schema

end WireSchema
