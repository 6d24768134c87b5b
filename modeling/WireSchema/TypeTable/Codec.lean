import WireSchema.Codec.Choice
import WireSchema.Codec.Tagged
import WireSchema.TypeTable.Layout

/-!
# Codecs of declared types

The codec of a type is put together along its declaration.  Types may be recursive, so the codec is
built to a depth that no value of a checked table exceeds: between two references that go deeper
into the value, or that take a byte of the input, each declaration is passed at most once.
-/

namespace WireSchema

/-- What a table leaves open: the codecs of external types by name, and migrations by name. -/
structure Bindings where
  externals : List (String × Codec) := []
  migrations : List (String × (Value → Value)) := []

namespace Bindings

/-- Binds the codec of an external type. -/
def bindExternal (b : Bindings) (fqn : String) (c : Codec) : Bindings :=
  { b with externals := Assoc.insert fqn c b.externals }

/-- Binds a migration. -/
def bindMigration (b : Bindings) (name : String) (f : Value → Value) : Bindings :=
  { b with migrations := Assoc.insert name f b.migrations }

/-- The codec of an external type. -/
def external? (b : Bindings) (fqn : String) : Option Codec := b.externals.lookup fqn

/-- The migration of a name. -/
def migration? (b : Bindings) (name : String) : Option (Value → Value) := b.migrations.lookup name

end Bindings

namespace TypeTable

/-- The codec of a type, at most so many types deep. -/
def codecWithin (t : TypeTable) (b : Bindings) : Nat → String → Codec
  | 0, name => .fail (.tooDeep name)
  | n + 1, name =>
    match t.resolve? name with
    | none => .fail (.unknownType name)
    | some (.primitive p) => p.codec
    | some (.declared d) =>
      match d.body with
      | .alias target => codecWithin t b n target
      | .enum e => Choice.codec ⟨d.fqn, e.keys, e.offset, e.strings⟩
      | .struct s =>
        (t.layout d.fqn s).codec fun step =>
          (codecWithin t b n step.typeName).member step.framed step.array
      | .array element => (codecWithin t b n element).member (t.isFrameable element) true
      | .versioned entries =>
        .tagged d.fqn entries (fun e => codecWithin t b n e.typeName) b.migration?
      | .external _ => (b.external? d.fqn).getD (.fail (.unboundExternal d.fqn))

/-- A depth that is enough for a value that nests `levels` deep, or for that many bytes. -/
def depthFor (t : TypeTable) (levels : Nat) : Nat := (t.length + 1) * (levels + 1)

/-- The codec of a type of the table. -/
def typeCodec (t : TypeTable) (b : Bindings) (name : String) : Codec where
  reserve v := (t.codecWithin b (t.depthFor v.depth) name).reserve v
  write v := (t.codecWithin b (t.depthFor v.depth) name).write v
  read := do
    let c ← get
    (t.codecWithin b (t.depthFor c.remaining) name).read

/-- The codec of a named type, or a fault when there is none of that name. -/
def codec? (t : TypeTable) (b : Bindings) (name : String) : Except CodecError Codec :=
  if (t.resolve? name).isSome then .ok (t.typeCodec b name) else .error (.unknownType name)

end TypeTable

end WireSchema
