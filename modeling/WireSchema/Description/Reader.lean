import WireSchema.Description.Basic
import WireSchema.Json.Reader

/-!
# Reading descriptions

A record is read from an object, whose unknown members are passed over without giving them a
value, or from an array of its fields in order.  A known member may stand only once.  Integers
must be written as integers of their range, and null stands for a missing optional field only.
-/

namespace WireSchema

namespace Document

/-! ## Fields -/

/-- The text a document is. -/
def text? : Document → Option String
  | .string units => TextUnit.text? units
  | _ => none

/-- The truth value a document is. -/
def bool? : Document → Option Bool
  | .bool b => some b
  | _ => none

/-- The natural of 64 bits a document is. -/
def uint64? : Document → Option UInt64
  | .number n =>
    match n.toNumber? with
    | some (.natural k) => some k
    | _ => none
  | _ => none

/-- The natural of 32 bits a document is. -/
def uint32? (d : Document) : Option UInt32 := do
  let n ← d.uint64?
  if n.toNat < 0x100000000 then some (UInt32.ofNat n.toNat) else none

/-- The signed integer of 64 bits a document is. -/
def int64? : Document → Option Int64
  | .number n =>
    match n.toNumber? with
    | some (.natural k) => if k.toNat < 0x8000000000000000 then some (Int64.ofInt k.toNat) else none
    | some (.negative k) => some k
    | _ => none
  | _ => none

/-- The list a document is. -/
def list? {α : Type} (read : Document → Option α) : Document → Option (List α)
  | .array items => items.mapM read
  | _ => none

/-- A field that must be given. -/
def required {α : Type} (read : Document → Option α) : Option Document → Option α
  | some d => read d
  | none => none

/-- A field that may be missing or null. -/
def optional {α : Type} (read : Document → Option α) : Option Document → Option (Option α)
  | none => some none
  | some .null => some none
  | some d => (read d).map some

/-- A field with a default, which may be missing but not null. -/
def withDefault {α : Type} (default : α) (read : Document → Option α) :
    Option Document → Option α
  | none => some default
  | some d => read d

/-! ## Records -/

/-- The members of an object by their names, in written order. -/
def named? : List (List TextUnit × Document) → Option (List (String × Document))
  | [] => some []
  | (name, d) :: rest =>
    match TextUnit.text? name, named? rest with
    | some n, some r => some ((n, d) :: r)
    | _, _ => none

/-- The only member with a name; two are refused. -/
def single? (members : List (String × Document)) (key : String) : Option (Option Document) :=
  match members.filter fun m => m.1 == key with
  | [] => some none
  | [m] => some (some m.2)
  | _ => none

/-- The fields of a record written as an object. -/
def objectRecord? (keys : List String) : Document → Option (List (Option Document))
  | .object members => (named? members).bind fun table => keys.mapM (single? table)
  | _ => none

/-- The fields of a record written as an object or as an array of the fields in order. -/
def record? (keys : List String) : Document → Option (List (Option Document))
  | .array items =>
    if items.length ≤ keys.length then
      some (items.map some ++ List.replicate (keys.length - items.length) none)
    else none
  | d => objectRecord? keys d

/-- The field of a record at an index. -/
def fieldAt (fields : List (Option Document)) (i : Nat) : Option Document := fields.getD i none

end Document

/-! ## Enums -/

/-- An enum value, of which every part must have a value and at most `room` arrays and objects
nest. -/
def EnumEntry.read? (room : Nat) (d : Document) : Option EnumEntry :=
  match d.toJson? room with
  | none => none
  | some _ =>
    match d with
    | .string units => (TextUnit.text? units).map .key
    | .object _ => do
      let fields ← d.objectRecord? ["key", "version"]
      let key ← Document.required Document.text? (Document.fieldAt fields 0)
      let version ← Document.required Document.uint32? (Document.fieldAt fields 1)
      return .versioned key version
    | _ => none

/-- What stands under the key for an enum. -/
def EnumSpec.read? (room : Nat) (d : Document) : Option EnumSpec :=
  match d.toJson? room with
  | none => none
  | some _ =>
    match d with
    | .bool b => some (.flag b)
    | .array items => (items.mapM (EnumEntry.read? (room - 1))).map .values
    | _ => none

/-! ## Descriptions -/

/-- An entry of a versioned type. -/
def VersionEntry.read? (d : Document) : Option VersionEntry := do
  let fields ← d.record? ["type", "version", "map"]
  let typeName ← Document.required Document.text? (Document.fieldAt fields 0)
  let version ← Document.required Document.uint64? (Document.fieldAt fields 1)
  let map ← Document.optional Document.text? (Document.fieldAt fields 2)
  return { typeName := typeName, version := version, map := map }

/-- A field. -/
def FieldDescription.read? (d : Document) : Option FieldDescription := do
  let fields ← d.record? ["name", "required", "array", "type", "version"]
  let name ← Document.required Document.text? (Document.fieldAt fields 0)
  let required ← Document.withDefault false Document.bool? (Document.fieldAt fields 1)
  let array ← Document.withDefault false Document.bool? (Document.fieldAt fields 2)
  let typeName ← Document.required Document.text? (Document.fieldAt fields 3)
  let version ← Document.optional Document.uint32? (Document.fieldAt fields 4)
  return { name := name, typeName := typeName, required := required, array := array,
           version := version }

/-- The keys of a description, in order. -/
def Description.keys : List String :=
  ["name", "namespace", "alias", "enum", "values", "offset", "strings", "array", "type", "external",
    "versions", "compact", "flagsPosition", "fields", "version"]

/-- A description inside which at most `room` arrays and objects nest where every part must have a
value. -/
def Description.read? (room : Nat) (d : Document) : Option Description := do
  let fields ← d.record? Description.keys
  let at' := Document.fieldAt fields
  let name ← Document.required Document.text? (at' 0)
  let ns ← Document.optional Document.text? (at' 1)
  let target ← Document.optional Document.text? (at' 2)
  let enum ← Document.optional (EnumSpec.read? room) (at' 3)
  let values ← Document.optional (Document.list? (EnumEntry.read? (room - 1))) (at' 4)
  let offset ← Document.optional Document.uint64? (at' 5)
  let strings ← Document.withDefault false Document.bool? (at' 6)
  let array ← Document.withDefault false Document.bool? (at' 7)
  let element ← Document.optional Document.text? (at' 8)
  let external ← Document.optional Document.text? (at' 9)
  let versions ← Document.optional (Document.list? VersionEntry.read?) (at' 10)
  let compact ← Document.optional Document.bool? (at' 11)
  let flagsPosition ← Document.optional Document.int64? (at' 12)
  let fieldList ← Document.optional (Document.list? FieldDescription.read?) (at' 13)
  let version ← Document.optional Document.uint32? (at' 14)
  return { name := name, ns := ns, target := target, enum := enum, values := values,
           offset := offset, strings := strings, array := array, element := element,
           external := external, versions := versions, compact := compact,
           flagsPosition := flagsPosition, fields := fieldList, version := version }

/-- The description a JSON value is. -/
def Description.ofJson? (j : Json) : Option Description :=
  Description.read? j.depth (Document.shape j)

/-- A snapshot.  Three arrays and objects hold the contents of a description. -/
def Snapshot.read? (d : Document) : Option Snapshot := do
  let fields ← d.record? ["version", "schema"]
  let version ← Document.required Document.uint32? (Document.fieldAt fields 0)
  let declarations ← Document.withDefault []
    (Document.list? (Description.read? (Document.maxDepth - 3))) (Document.fieldAt fields 1)
  return { version := version, declarations := declarations }

/-- The snapshot a JSON text is. -/
def Snapshot.parse? (text : String) : Option Snapshot :=
  (Document.parse? text).bind Snapshot.read?

end WireSchema
