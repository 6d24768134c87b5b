import WireSchema.Admission
import WireSchema.Assoc
import WireSchema.Description.Reader
import WireSchema.Schema.Basic
import WireSchema.TypeTable.Graph
import WireSchema.TypeTable.Versions

/-!
# Builders

A builder collects declarations, namespace by namespace.  On top of a snapshot it first replays
every persisted declaration, and then holds each new declaration of a known name against the
earlier one.  References are resolved only by `Builder.build`, so a declaration may name types that
are registered after it.

The calls are steps that change the builder in place (`BuilderM`).  What a call has changed stays
changed when it fails, so each call checks everything before it changes anything.
-/

namespace WireSchema

/-- A schema under construction. -/
structure Builder where
  revision : Revision
  types : TypeTable := []
  /-- The names that were registered since the replay ended. -/
  registered : List String := []
  /-- The namespaces of this build, each with the module its external parts come from. -/
  namespaces : List (String × Option String) := []
  changes : List Change := []
  deriving DecidableEq

namespace Builder

/-- A builder without a snapshot. -/
def fresh (versioned : Bool) : Builder := { revision := (Revision.fresh versioned).finishReplay }

/-- Fails unless a namespace is declared. -/
def checkNamespace (b : Builder) (name : String) : Except SchemaError Unit :=
  if (b.namespaces.lookup name).isSome then .ok () else .error (.unknownNamespace name)

/-- Fails unless the namespace of a description is declared; a replay declares none. -/
def checkHome (b : Builder) (ns : String) : Except SchemaError Unit :=
  if b.revision.replaying then .ok () else b.checkNamespace ns

/-- Checks names one after the other. -/
def checkNames : List String → Except SchemaError Unit
  | [] => .ok ()
  | name :: rest => do
    Name.check name
    checkNames rest

/-- Whether a name was declared before in the replay, or registered before in this build. -/
def isTaken (b : Builder) (fqn : String) : Bool :=
  if b.revision.replaying then (b.types.declaration? fqn).isSome else b.registered.contains fqn

/-- Fails when a name is taken. -/
def checkFree (taken : Bool) (fqn : String) : Except SchemaError Unit :=
  if taken then .error (.duplicateType fqn) else .ok ()

/-- The namespace that a description gives itself. -/
def home (d : Description) : Except SchemaError String :=
  match d.ns with
  | some ns => .ok ns
  | none => .error (.missingDefinition d.name "namespace")

/-- The table with a declaration in the place of the earlier one of its name, or else at the
end. -/
def place (t : TypeTable) (d : Declaration) : TypeTable :=
  if (t.declaration? d.fqn).isSome then t.map fun e => if e.fqn == d.fqn then d else e
  else t ++ [d]

end Builder

/-! ## Calls that change a builder -/

/-- The steps of a builder. -/
abbrev BuilderM := Attempt Builder

namespace BuilderM

open Attempt

/-- Declares a namespace; each is declared once in a build. -/
def declareNamespace (name : String) : BuilderM Unit := do
  check (Name.check name)
  if ((← get).namespaces.lookup name).isSome then throw (.namespaceExists name)
  modify fun b => { b with namespaces := Assoc.insert name none b.namespaces }

/-- Goes back to a namespace that is declared. -/
def openNamespace (name : String) : BuilderM Unit := do
  check ((← get).checkNamespace name)

/-- Sets the module that the external parts of a namespace come from. -/
def requireModule (name modulePath : String) : BuilderM Unit :=
  modify fun b => { b with namespaces := Assoc.insert name (some modulePath) b.namespaces }

/-- Goes through a session that starts with a copy of the counter, and gives what comes of it and
the session itself.  A session that fails is dropped, with whatever it has stamped. -/
def inSession {α : Type} (x : SessionM α) : BuilderM (α × Session) := do
  let b ← get
  let (outcome, session) := x.runFrom { revision := b.revision }
  let a ← check outcome
  return (a, session)

/-- Checks a description and admits it on top of the earlier declaration of its name, if there is
one and the name is not taken. -/
def vet (taken : Bool) (previous : Option Declaration) (d : Description) :
    BuilderM (Declaration × Session) := do
  let b ← get
  let ns ← check (Builder.home d)
  check (b.checkHome ns)
  check (Builder.checkNames (ns :: d.name :: d.fieldNames))
  check (Builder.checkFree taken d.fqn)
  inSession (Admission.admitDescription previous d)

/-- Takes over the counter and the log of a session. -/
def takeOver (session : Session) : BuilderM Unit := do
  modify fun b => { b with revision := session.revision }
  modify fun b => { b with changes := b.changes ++ session.changes }

/-- Takes note of a registered name, unless the snapshot is still being replayed. -/
def note (replaying : Bool) (fqn : String) : BuilderM Unit :=
  modify fun b =>
    { b with registered := if replaying then b.registered else b.registered ++ [fqn] }

/-- Registers a description under its own namespace, and gives its full name. -/
def register (d : Description) : BuilderM String := do
  let b ← get
  let (declaration, session) ← vet (b.isTaken d.fqn) (b.types.declaration? d.fqn) d
  takeOver session
  modify fun b => { b with types := Builder.place b.types declaration }
  note b.revision.replaying d.fqn
  return d.fqn

/-- Registers a description in a declared namespace, whatever namespace it gives itself. -/
def registerIn (ns : String) (d : Description) : BuilderM String := do
  openNamespace ns
  register { d with ns := some ns }

end BuilderM

namespace Builder

/-! ## Calls that succeed -/

/-- The builder with a namespace declared. -/
def declareNamespace (b : Builder) (name : String) : Except SchemaError Builder :=
  (BuilderM.declareNamespace name).next b

/-- The builder with a description registered under its own namespace. -/
def register (b : Builder) (d : Description) : Except SchemaError Builder :=
  (BuilderM.register d).next b

/-- Registers descriptions one after the other. -/
def registerAll (b : Builder) (ds : List Description) : Except SchemaError Builder :=
  ds.foldlM register b

/-- The builder on top of a snapshot. -/
def ofSnapshot (s : Snapshot) (versioned : Bool) : Except SchemaError Builder := do
  let b ← registerAll { revision := .resume s.version versioned } s.declarations
  return { b with revision := b.revision.finishReplay }

/-- The builder on top of a snapshot in its JSON form. -/
def ofText (text : String) (versioned : Bool) : Except SchemaError Builder :=
  match Snapshot.parse? text with
  | some s => ofSnapshot s versioned
  | none => .error .json

/-- Checks a table whose names resolve: types are finite, no bool is required; and raises its
versions. -/
def settle (t : TypeTable) : Except SchemaError TypeTable := do
  t.checkFinite
  t.checkRequiredBools
  t.raiseVersions

/-- Checks a table, from its names on, and raises its versions. -/
def checkTypes (t : TypeTable) : Except SchemaError TypeTable := do
  t.checkLinked
  settle t

/-- The schema with the given table. -/
def schemaOf (b : Builder) (types : TypeTable) : Schema :=
  ⟨b.revision.version, b.revision.versioned, b.revision.changed, types, b.namespaces, b.changes⟩

/-- The schema of what was registered. -/
def build (b : Builder) : Except SchemaError Schema := do
  return b.schemaOf (← checkTypes b.types)

end Builder

/-- The builder that continues a schema. -/
def Schema.rebuild (s : Schema) : Except SchemaError Builder :=
  Builder.ofSnapshot s.toSnapshot s.versioned

end WireSchema
