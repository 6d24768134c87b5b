import WireSchema.Description.Basic

/-!
# Declarations

A declaration is a description that has been admitted: its kind is decided, defaults are filled
in and every part carries the version it was added in.
-/

namespace WireSchema

/-- One value of an enum. -/
structure EnumValue where
  key : String
  version : UInt32
  deriving DecidableEq

/-- The values of an enum and how they are written. -/
structure EnumBody where
  values : List EnumValue
  /-- The number of the first value. -/
  offset : UInt64
  /-- Whether values are written as their keys. -/
  strings : Bool
  deriving DecidableEq

/-- The keys of an enum. -/
def EnumBody.keys (e : EnumBody) : List String := e.values.map (·.key)

/-- The keys of an enum with the numbers they are written as.  A sum that exceeds 64 bits wraps
around, as it does where arithmetic is not checked; a build with checked arithmetic stops there
instead. -/
def EnumBody.codes (e : EnumBody) : List (String × UInt64) :=
  e.values.zipIdx.map fun (v, i) => (v.key, e.offset + UInt64.ofNat i)

/-- One field of a struct. -/
structure Field where
  name : String
  typeName : String
  required : Bool
  array : Bool
  version : UInt32
  deriving DecidableEq

/-- The fields of a struct and where its flags stand. -/
structure StructBody where
  /-- A compact struct is never framed and never grows. -/
  compact : Bool
  /-- The index of the field that the flags stand before; past the last for after it. -/
  flagsPosition : Option Nat
  fields : List Field
  deriving DecidableEq

/-- The fields that may be missing from a value. -/
def StructBody.optionals (s : StructBody) : List Field := s.fields.filter fun f => !f.required

/-- What is declared. -/
inductive Body where
  | alias (target : String)
  | enum (e : EnumBody)
  | struct (s : StructBody)
  | array (element : String)
  | versioned (entries : List VersionEntry)
  | external (symbol : String)
  deriving DecidableEq

namespace Body

/-- The kind of a declaration. -/
def kind : Body → Kind
  | .alias _ => .alias
  | .enum _ => .enum
  | .struct _ => .struct
  | .array _ => .array
  | .versioned _ => .versioned
  | .external _ => .external

/-- The target of an alias. -/
def alias? : Body → Option String
  | .alias t => some t
  | _ => none

/-- The body of an enum. -/
def enum? : Body → Option EnumBody
  | .enum e => some e
  | _ => none

/-- The body of a struct. -/
def struct? : Body → Option StructBody
  | .struct s => some s
  | _ => none

/-- The element type of an array. -/
def array? : Body → Option String
  | .array e => some e
  | _ => none

/-- The entries of a versioned type. -/
def versioned? : Body → Option (List VersionEntry)
  | .versioned entries => some entries
  | _ => none

/-- The symbol of an external type. -/
def external? : Body → Option String
  | .external s => some s
  | _ => none

end Body

/-- An admitted declaration. -/
structure Declaration where
  name : String
  ns : String
  /-- The version the declaration was last changed in. -/
  version : UInt32
  body : Body
  deriving DecidableEq

namespace Declaration

/-- The name by which the declared type is addressed. -/
def fqn (d : Declaration) : String := Name.qualified d.ns d.name

/-- The kind of a declaration. -/
def kind (d : Declaration) : Kind := d.body.kind

/-- The description of an enum value. -/
def describeValue (v : EnumValue) : EnumEntry := .versioned v.key v.version

/-- The description of a field. -/
def describeField (f : Field) : FieldDescription :=
  { name := f.name, typeName := f.typeName, required := f.required, array := f.array,
    version := some f.version }

/-- The flags position as it is written: -1 when there is none. -/
def describePosition : Option Nat → Int64
  | some p => Int64.ofInt p
  | none => -1

/-- The description that a declaration is persisted as. -/
def toDescription (d : Declaration) : Description :=
  let base : Description := { name := d.name, ns := some d.ns, version := some d.version }
  match d.body with
  | .alias t => { base with target := some t }
  | .enum e =>
    { base with
      enum := some (.values (e.values.map describeValue)), offset := some e.offset,
      strings := e.strings }
  | .struct s =>
    { base with
      compact := some s.compact, flagsPosition := some (describePosition s.flagsPosition),
      fields := some (s.fields.map describeField) }
  | .array e => { base with array := true, element := some e }
  | .versioned entries => { base with versions := some entries }
  | .external symbol => { base with external := some symbol }

end Declaration

end WireSchema
