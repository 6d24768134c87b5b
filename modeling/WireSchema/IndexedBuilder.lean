import WireSchema.Builder
import WireSchema.TypeTable.Index

/-!
# Builders with an index

An indexed builder finds the declaration of a name by its place in the table, and keeps the index
from names to places as declarations come in.  Its schemas come with all references resolved.  It
does what the builder below it does: it accepts the same calls and builds the same schemas.
-/

namespace WireSchema

/-- A schema whose references are resolved. -/
structure LinkedSchema where
  schema : Schema
  /-- The places of the declarations. -/
  index : NameIndex
  /-- For each declaration, what the types that it names refer to, in order. -/
  targets : List (List TypeRef)
  deriving DecidableEq

namespace LinkedSchema

/-- What a name refers to. -/
def ref? (s : LinkedSchema) (name : String) : Option TypeRef := s.index.resolve? name

/-- The type that a reference leads to. -/
def get? (s : LinkedSchema) (r : TypeRef) : Option Target := s.schema.types.target? r

/-- The type that a name stands for. -/
def resolve? (s : LinkedSchema) (name : String) : Option Target := (s.ref? name).bind s.get?

/-- The places of the declarations that a declaration refers to, in order. -/
def dependencies (s : LinkedSchema) (id : Nat) : List Nat :=
  ((s.targets[id]?.getD []).filterMap TypeRef.id?).mergeSort.eraseDups

end LinkedSchema

/-- A schema under construction, with the place of each declared name. -/
structure IndexedBuilder extends Builder where
  index : NameIndex := []
  deriving DecidableEq

namespace IndexedBuilder

/-- A builder without a snapshot. -/
def fresh (versioned : Bool) : IndexedBuilder := { toBuilder := Builder.fresh versioned }

end IndexedBuilder

/-! ## Calls that change a builder -/

/-- The steps of a builder with an index. -/
abbrev IndexedBuilderM := Attempt IndexedBuilder

namespace IndexedBuilderM

/-- A step of the builder below, which leaves the index alone. -/
def below {α : Type} (x : BuilderM α) : IndexedBuilderM α := ExceptT.mk fun b =>
  let (outcome, c) := x.runFrom b.toBuilder
  (outcome, { b with toBuilder := c })

/-- Declares a namespace; each is declared once in a build. -/
def declareNamespace (name : String) : IndexedBuilderM Unit :=
  below (BuilderM.declareNamespace name)

/-- Goes back to a namespace that is declared. -/
def openNamespace (name : String) : IndexedBuilderM Unit := below (BuilderM.openNamespace name)

/-- Sets the module that the external parts of a namespace come from. -/
def requireModule (name modulePath : String) : IndexedBuilderM Unit :=
  below (BuilderM.requireModule name modulePath)

/-- Puts a declaration at its place in the table, or else at a new one behind all others, to which
its name leads from then on. -/
def store (fqn : String) (place : Option Nat) (d : Declaration) : IndexedBuilderM Unit :=
  match place with
  | some i => modify fun b => { b with types := b.types.set i d }
  | none => do
    modify fun b => { b with index := Assoc.insert fqn b.types.length b.index }
    modify fun b => { b with types := b.types ++ [d] }

/-- Registers a description under its own namespace, and gives its full name. -/
def register (d : Description) : IndexedBuilderM String := do
  let b ← get
  let place := b.index.lookup d.fqn
  let taken := if b.revision.replaying then place.isSome else b.registered.contains d.fqn
  let (declaration, session) ← below (BuilderM.vet taken (place.bind fun i => b.types[i]?) d)
  below (BuilderM.takeOver session)
  store d.fqn place declaration
  below (BuilderM.note b.revision.replaying d.fqn)
  return d.fqn

/-- Registers a description in a declared namespace, whatever namespace it gives itself. -/
def registerIn (ns : String) (d : Description) : IndexedBuilderM String := do
  openNamespace ns
  register { d with ns := some ns }

end IndexedBuilderM

namespace IndexedBuilder

/-! ## Calls that succeed -/

/-- The builder with a description registered under its own namespace. -/
def register (b : IndexedBuilder) (d : Description) : Except SchemaError IndexedBuilder :=
  (IndexedBuilderM.register d).next b

/-- The builder on top of a snapshot. -/
def ofSnapshot (s : Snapshot) (versioned : Bool) : Except SchemaError IndexedBuilder := do
  let b ← s.declarations.foldlM register
    { toBuilder := { revision := .resume s.version versioned } }
  return { b with revision := b.revision.finishReplay }

/-- The builder on top of a snapshot in its JSON form. -/
def ofText (text : String) (versioned : Bool) : Except SchemaError IndexedBuilder :=
  match Snapshot.parse? text with
  | some s => ofSnapshot s versioned
  | none => .error .json

/-- The schema of what was registered, its references resolved. -/
def build (b : IndexedBuilder) : Except SchemaError LinkedSchema := do
  let targets ← b.index.linkTable b.types
  let types ← Builder.settle b.types
  return ⟨b.schemaOf types, .ofTable b.types, targets⟩

end IndexedBuilder

/-- The builder that continues a schema. -/
def LinkedSchema.rebuild (s : LinkedSchema) : Except SchemaError IndexedBuilder :=
  IndexedBuilder.ofSnapshot s.schema.toSnapshot s.schema.versioned

end WireSchema
