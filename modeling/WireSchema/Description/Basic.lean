import WireSchema.Name

/-!
# Descriptions

A description is a declaration as its author writes it.  One flat record of optional keys covers
every kind of declaration; which keys are given decides the kind.
-/

namespace WireSchema

/-- The kinds of declarations. -/
inductive Kind where
  | alias
  | enum
  | array
  | external
  | versioned
  | struct
  deriving DecidableEq

/-- The word for a kind. -/
def Kind.word : Kind → String
  | .alias => "alias"
  | .enum => "enum"
  | .array => "array"
  | .external => "external"
  | .versioned => "versioned type"
  | .struct => "struct"

/-- One value of an enum: its key, perhaps with the version it was added in. -/
inductive EnumEntry where
  | key (key : String)
  | versioned (key : String) (version : UInt32)
  deriving DecidableEq

namespace EnumEntry

/-- The key of a value. -/
def keyText : EnumEntry → String
  | .key k => k
  | .versioned k _ => k

/-- The version a value was added in, if it is given. -/
def version? : EnumEntry → Option UInt32
  | .key _ => none
  | .versioned _ v => some v

end EnumEntry

/-- What stands under the key for an enum: the list of its values, or a mark that the values stand
under a key of their own. -/
inductive EnumSpec where
  | flag (b : Bool)
  | values (entries : List EnumEntry)
  deriving DecidableEq

/-- One entry of a versioned type: the type of its payload, the tag written before it, and the
name of the migration that lifts a payload to the latest shape. -/
structure VersionEntry where
  typeName : String
  version : UInt64
  map : Option String := none
  deriving DecidableEq

/-- One field of a struct. -/
structure FieldDescription where
  name : String
  typeName : String
  required : Bool := false
  array : Bool := false
  version : Option UInt32 := none
  deriving DecidableEq

/-- A declaration as its author writes it. -/
structure Description where
  name : String
  ns : Option String := none
  /-- The target of an alias. -/
  target : Option String := none
  enum : Option EnumSpec := none
  /-- The values of an enum that is only marked as one. -/
  values : Option (List EnumEntry) := none
  /-- The number of an enum's first value. -/
  offset : Option UInt64 := none
  /-- Whether an enum is written as its keys. -/
  strings : Bool := false
  /-- Whether this is an array of the element type. -/
  array : Bool := false
  element : Option String := none
  /-- The symbol of a codec supplied from outside. -/
  external : Option String := none
  versions : Option (List VersionEntry) := none
  compact : Option Bool := none
  /-- The index of the field that the flags stand before, or -1. -/
  flagsPosition : Option Int64 := none
  fields : Option (List FieldDescription) := none
  version : Option UInt32 := none
  deriving DecidableEq

namespace Description

/-- The kind that the given keys decide. -/
def kind (d : Description) : Kind :=
  if d.target.isSome then .alias
  else if d.enum.isSome then .enum
  else if d.array then .array
  else if d.external.isSome then .external
  else if d.versions.isSome then .versioned
  else .struct

/-- The values of an enum, under whichever key they are given. -/
def enumEntries? (d : Description) : Option (List EnumEntry) :=
  match d.enum with
  | some (.values entries) => some entries
  | some (.flag _) => d.values
  | none => none

/-- The name by which the declared type is addressed. -/
def fqn (d : Description) : String := Name.qualified (d.ns.getD "") d.name

/-- The names of the fields, in order. -/
def fieldNames (d : Description) : List String := (d.fields.getD []).map (·.name)

/-! ## Making descriptions -/

/-- An alias of a type. -/
def aliasOf (name target : String) : Description := { name := name, target := some target }

/-- An enum with the given keys. -/
def enumOf (name : String) (keys : List String) : Description :=
  { name := name, enum := some (.values (keys.map .key)) }

/-- An array of a type. -/
def arrayOf (name element : String) : Description :=
  { name := name, array := true, element := some element }

/-- A type whose codec is supplied from outside. -/
def externalOf (name symbol : String) : Description := { name := name, external := some symbol }

/-- A versioned type. -/
def versionedOf (name : String) (entries : List VersionEntry) : Description :=
  { name := name, versions := some entries }

/-- A struct. -/
def structOf (name : String) (fields : List FieldDescription) : Description :=
  { name := name, fields := some fields }

end Description

/-- A persisted schema: its version and its declarations in order. -/
structure Snapshot where
  version : UInt32
  declarations : List Description := []
  deriving DecidableEq

end WireSchema
