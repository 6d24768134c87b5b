import WireSchema.Attempt
import WireSchema.Change
import WireSchema.Declaration
import WireSchema.Revision

/-!
# Admission of declarations

A description is admitted on its own, or on top of the earlier declaration of the same name.
Whatever would change how existing bytes are read is refused; additions are stamped with the
version of the build and logged.
-/

namespace WireSchema

/-- The version counter and the log while declarations are admitted. -/
structure Session where
  revision : Revision
  changes : List Change := []
  deriving DecidableEq

namespace Session

/-- The version of something new.  While a snapshot is replayed it is the persisted one; otherwise
the addition counts as a change and is logged. -/
def stamp (s : Session) (persisted : Option UInt32) (kind : ChangeKind) (fqn : String)
    (member : Option String) : UInt32 × Session :=
  if s.revision.replaying then (persisted.getD s.revision.version, s)
  else
    let revision := s.revision.bump
    let change : Change := ⟨kind, fqn, member, revision.version⟩
    (revision.version, ⟨revision, s.changes ++ [change]⟩)

/-- The versions of members that are added one after the other. -/
def stampMembers (kind : ChangeKind) (fqn : String) : Session → List String →
    List UInt32 × Session
  | s, [] => ([], s)
  | s, m :: rest =>
    let (v, s) := s.stamp none kind fqn (some m)
    let (vs, s) := stampMembers kind fqn s rest
    (v :: vs, s)

end Session

/-- The steps of a session. -/
abbrev SessionM := Attempt Session

namespace SessionM

/-- Stamps something new. -/
def stamp (persisted : Option UInt32) (kind : ChangeKind) (fqn : String) (member : Option String) :
    SessionM UInt32 :=
  modifyGet fun s => s.stamp persisted kind fqn member

/-- Stamps members that are added one after the other. -/
def stampMembers (kind : ChangeKind) (fqn : String) (members : List String) :
    SessionM (List UInt32) :=
  modifyGet fun s => s.stampMembers kind fqn members

end SessionM

/-- The greatest of a version and the versions of added members. -/
def newest (version : UInt32) (added : List UInt32) : UInt32 := added.foldl max version

namespace Admission

open Attempt

/-- A body that is declared for the first time. -/
def fresh (fqn : String) (persisted : Option UInt32) (body : Body) : SessionM (UInt32 × Body) := do
  let version ← SessionM.stamp persisted .typeAdded fqn none
  return (version, body)

/-! ## Aliases, arrays and external types -/

/-- A type that is told by one text keeps the text. -/
def admitText (fqn : String) (previous : Option (UInt32 × String)) (d : Description)
    (tell : String → Body) (refusal : String → SchemaError) (text : String) :
    SessionM (UInt32 × Body) :=
  match previous with
  | none => fresh fqn d.version (tell text)
  | some (version, was) =>
    if was = text then pure (version, tell text) else throw (refusal was)

/-- An alias keeps its target. -/
def admitAlias (fqn : String) (previous : Option (UInt32 × String)) (d : Description) :
    SessionM (UInt32 × Body) :=
  let target := d.target.getD ""
  admitText fqn previous d .alias (fun was => .aliasRemapped fqn was target) target

/-- An array keeps its element type, and has to have one. -/
def admitArray (fqn : String) (previous : Option (UInt32 × String)) (d : Description) :
    SessionM (UInt32 × Body) :=
  match d.element with
  | none => throw (.missingDefinition fqn "type")
  | some element => admitText fqn previous d .array (fun _ => .arrayModified fqn) element

/-- An external type keeps its symbol. -/
def admitExternal (fqn : String) (previous : Option (UInt32 × String)) (d : Description) :
    SessionM (UInt32 × Body) :=
  let symbol := d.external.getD ""
  admitText fqn previous d .external (fun was => .externalRemapped fqn was symbol) symbol

/-! ## Enums -/

/-- The first key that differs from the known one at its place, with both and the place. -/
def firstRenamed : Nat → List String → List String → Option (Nat × String × String)
  | i, was :: known, now :: keys =>
    if was = now then firstRenamed (i + 1) known keys else some (i, was, now)
  | _, _, _ => none

/-- The values of an enum that is declared for the first time.  Replayed values keep the version
they were persisted with. -/
def freshValues (s : Session) (version : UInt32) (entries : List EnumEntry) : List EnumValue :=
  entries.map fun e =>
    ⟨e.keyText, if s.revision.replaying then e.version?.getD version else version⟩

/-- An enum keeps its numbering and its known keys in their places; keys may be appended. -/
def admitEnum (fqn : String) (previous : Option (UInt32 × EnumBody)) (d : Description) :
    SessionM (UInt32 × Body) :=
  match d.enumEntries? with
  | none => throw (.missingDefinition fqn "enum values")
  | some entries =>
    let offset := d.offset.getD 1
    match previous with
    | none => do
      let version ← SessionM.stamp d.version .typeAdded fqn none
      return (version, .enum ⟨freshValues (← get) version entries, offset, d.strings⟩)
    | some (version, known) =>
      let keys := entries.map EnumEntry.keyText
      if keys.length < known.values.length then
        throw (.enumShrunk fqn known.values.length keys.length)
      else if known.offset ≠ offset ∨ known.strings ≠ d.strings then throw (.enumRemapped fqn)
      else
        match firstRenamed 0 known.keys keys with
        | some (i, was, now) => throw (.enumValueRenamed fqn i was now)
        | none => do
          let added := keys.drop known.values.length
          let stamps ← SessionM.stampMembers .enumValueAdded fqn added
          let values := known.values ++ (added.zip stamps).map fun (k, v) => ⟨k, v⟩
          return (newest version stamps, .enum ⟨values, offset, d.strings⟩)

/-! ## Structs -/

/-- The most optional fields that one flags integer holds. -/
def maxOptionals : Nat := 64

/-- A bool field is never required: its value is its bit in the flags. -/
def relaxBool (f : FieldDescription) : FieldDescription :=
  if f.required && !f.array && f.typeName == "bool" then { f with required := false } else f

/-- The flags position that is asked for: none, or an index up to the number of fields. -/
def explicitPosition (fqn : String) (count : Nat) :
    Option Int64 → Except SchemaError (Option Nat)
  | none => .ok none
  | some p =>
    if p.toInt = -1 then .ok none
    else if 0 ≤ p.toInt ∧ p.toInt ≤ count then .ok (some p.toInt.toNat)
    else .error (.invalidFlagsPosition fqn p.toInt)

/-- The first known field that is not declared again as it was. -/
def checkKnownFields (fqn : String) : List Field → List FieldDescription →
    Except SchemaError Unit
  | was :: known, now :: fields =>
    if was.name ≠ now.name ∨ was.typeName ≠ now.typeName ∨ was.array ≠ now.array then
      .error (.fieldModified fqn was.name)
    else if was.required ≠ now.required then .error (.requiredChanged fqn was.name)
    else checkKnownFields fqn known fields
  | _, _ => .ok ()

/-- A field with its version. -/
def stampedField (f : FieldDescription) (version : UInt32) : Field :=
  ⟨f.name, f.typeName, f.required, f.array, version⟩

/-- The flags position of a struct that is declared again: one that was set stays, and one that is
gained stands behind all known fields. -/
def keptPosition (fqn : String) (known : StructBody) (explicit firstOptional : Option Nat) :
    Except SchemaError (Option Nat) :=
  match known.flagsPosition with
  | some was =>
    match explicit with
    | some now =>
      if now = was then .ok (some was) else .error (.flagsPositionChanged fqn was now)
    | none => .ok (some was)
  | none =>
    match explicit.or firstOptional with
    | some now =>
      if now < known.fields.length then .error (.invalidFlagsPosition fqn now) else .ok (some now)
    | none => .ok none

/-- Refuses flags that stand behind an optional field. -/
def checkPosition (fqn : String) (position firstOptional : Option Nat) :
    Except SchemaError Unit :=
  match position, firstOptional with
  | some p, some first => if first < p then .error (.invalidFlagsPosition fqn p) else .ok ()
  | _, _ => .ok ()

/-- A struct that is declared for the first time.  Replayed fields keep the version they were
persisted with. -/
def freshStruct (fqn : String) (persisted : Option UInt32) (compact : Bool)
    (position : Option Nat) (fields : List FieldDescription) : SessionM (UInt32 × StructBody) := do
  let version ← SessionM.stamp persisted .typeAdded fqn none
  let s ← get
  let stamped := fields.map fun f =>
    stampedField f (if s.revision.replaying then f.version.getD version else version)
  return (version, ⟨compact, position, stamped⟩)

/-- A struct keeps its known fields in their places; fields may be appended unless it is
compact. -/
def grownStruct (fqn : String) (version : UInt32) (known : StructBody) (position : Option Nat)
    (fields : List FieldDescription) : SessionM (UInt32 × StructBody) := do
  let added := fields.drop known.fields.length
  let stamps ← SessionM.stampMembers .fieldAdded fqn (added.map (·.name))
  let stamped := known.fields ++ (added.zip stamps).map fun (f, v) => stampedField f v
  return (newest version stamps, ⟨known.compact, position, stamped⟩)

/-- What is checked of a struct that is declared again, and its flags position. -/
def checkGrowth (fqn : String) (known : StructBody) (compact : Bool)
    (explicit firstOptional : Option Nat) (fields : List FieldDescription) :
    Except SchemaError (Option Nat) := do
  if fields.length < known.fields.length then throw (.fieldRemoved fqn)
  if known.compact ≠ compact ∨ (compact = true ∧ fields.length ≠ known.fields.length) then
    throw (.compactExpanded fqn)
  checkKnownFields fqn known.fields fields
  keptPosition fqn known explicit firstOptional

/-- Stamps a struct that is declared for the first time, or that may grow as it does. -/
def stampStruct (fqn : String) (previous : Option (UInt32 × StructBody)) (persisted : Option UInt32)
    (compact : Bool) (explicit firstOptional : Option Nat) (fields : List FieldDescription) :
    SessionM (UInt32 × StructBody) :=
  match previous with
  | none => freshStruct fqn persisted compact (explicit.or firstOptional) fields
  | some (version, known) => do
    let position ← check (checkGrowth fqn known compact explicit firstOptional fields)
    grownStruct fqn version known position fields

/-- Admits a struct.  Where its flags stand is checked last, behind the stamps. -/
def admitStruct (fqn : String) (previous : Option (UInt32 × StructBody)) (d : Description) :
    SessionM (UInt32 × Body) :=
  match d.fields with
  | none => throw (.missingDefinition fqn "fields")
  | some given => do
    let fields := given.map relaxBool
    let optionals := fields.countP fun f => !f.required
    if maxOptionals < optionals then throw (.tooManyOptionals fqn optionals)
    let compact := d.compact.getD false
    let explicit ← check (explicitPosition fqn fields.length d.flagsPosition)
    let firstOptional := fields.findIdx? fun f => !f.required
    let (version, body) ←
      stampStruct fqn previous d.version compact explicit firstOptional fields
    check (checkPosition fqn body.flagsPosition firstOptional)
    return (version, .struct body)

/-! ## Versioned types -/

/-- Whether the tags of entries increase strictly. -/
def increasing : List VersionEntry → Bool
  | a :: b :: rest => decide (a.version < b.version) && increasing (b :: rest)
  | _ => true

/-- The first known entry that is not declared again as it was. -/
def firstChanged : List VersionEntry → List VersionEntry → Option VersionEntry
  | was :: known, now :: entries =>
    if was = now then firstChanged known entries else some was
  | _, _ => none

/-- A versioned type keeps its known entries in their places; entries may be appended, and tags
increase. -/
def admitVersioned (fqn : String) (previous : Option (UInt32 × List VersionEntry))
    (d : Description) : SessionM (UInt32 × Body) :=
  let entries := d.versions.getD []
  if entries.isEmpty then throw (.missingDefinition fqn "versions")
  else if !increasing entries then
    throw (.versionedModified fqn "versions must strictly increase")
  else
    match previous with
    | none => fresh fqn d.version (.versioned entries)
    | some (version, known) =>
      if entries.length < known.length then
        throw (.versionedModified fqn "entries were removed")
      else
        match firstChanged known entries with
        | some was =>
          throw (.versionedModified fqn ("entry " ++ toString was.version.toNat ++ " was changed"))
        | none => do
          let added := (entries.drop known.length).map fun e => toString e.version.toNat
          let stamps ← SessionM.stampMembers .versionAdded fqn added
          return (newest version stamps, .versioned entries)

/-! ## All kinds -/

/-- Refuses a declaration of another kind than before. -/
def checkKind (fqn : String) (previous : Option Declaration) (kind : Kind) :
    Except SchemaError Unit :=
  match previous with
  | none => .ok ()
  | some p => if p.kind = kind then .ok () else .error (.kindChanged fqn p.kind.word kind.word)

/-- The earlier version and body, as the kind at hand sees them. -/
def earlier {α : Type} (view : Body → Option α) (previous : Option Declaration) :
    Option (UInt32 × α) :=
  previous.bind fun p => (view p.body).map fun b => (p.version, b)

/-- Admits the body of a description. -/
def admitBody (fqn : String) (previous : Option Declaration) (d : Description) :
    SessionM (UInt32 × Body) :=
  match d.kind with
  | .alias => admitAlias fqn (earlier Body.alias? previous) d
  | .enum => admitEnum fqn (earlier Body.enum? previous) d
  | .struct => admitStruct fqn (earlier Body.struct? previous) d
  | .array => admitArray fqn (earlier Body.array? previous) d
  | .versioned => admitVersioned fqn (earlier Body.versioned? previous) d
  | .external => admitExternal fqn (earlier Body.external? previous) d

/-- Admits a description on top of the earlier declaration of the same name, if there is one. -/
def admitDescription (previous : Option Declaration) (d : Description) :
    SessionM Declaration := do
  check (checkKind d.fqn previous d.kind)
  let (version, body) ← admitBody d.fqn previous d
  return { name := d.name, ns := d.ns.getD "", version, body }

end Admission

end WireSchema
