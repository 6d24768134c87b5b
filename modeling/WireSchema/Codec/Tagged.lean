import WireSchema.Codec.Varint
import WireSchema.Description.Basic

/-!
# Tagged payloads

A value of a versioned type is written in its latest shape behind the tag of that shape.  Any known
tag is read, and a payload of an earlier shape goes through the migration that its entry names.
-/

namespace WireSchema

namespace Codec

/-- The entry that values are written with. -/
def latestEntry (fqn : String) (entries : List VersionEntry) : Except CodecError VersionEntry :=
  match entries.getLast? with
  | some e => .ok e
  | none => .error (.unknownType fqn)

/-- The entry of a tag. -/
def entryOfTag (fqn : String) (entries : List VersionEntry) (tag : Nat) :
    Except CodecError VersionEntry :=
  match entries.find? fun e => e.version.toNat == tag with
  | some e => .ok e
  | none => .error (.unknownVersion fqn tag)

/-- Lifts a payload by the migration of its entry. -/
def migrate (migration : String → Option (Value → Value)) (e : VersionEntry) (v : Value) :
    Except CodecError Value :=
  match e.map with
  | none => .ok v
  | some name =>
    match migration name with
    | some f => .ok (f v)
    | none => .error (.unboundMigration name)

/-- The codec of a versioned type, given the codecs of its payloads and its migrations. -/
def tagged (fqn : String) (entries : List VersionEntry) (payload : VersionEntry → Codec)
    (migration : String → Option (Value → Value)) : Codec where
  reserve v := do
    let e ← CursorM.ofExcept (latestEntry fqn entries)
    Varint.reserve e.version.toNat
    (payload e).reserve v
  write v := do
    let e ← CursorM.ofExcept (latestEntry fqn entries)
    Varint.write e.version.toNat
    (payload e).write v
  read := do
    let tag ← Varint.read
    let e ← CursorM.ofExcept (entryOfTag fqn entries tag)
    let v ← (payload e).read
    CursorM.ofExcept (migrate migration e v)

end Codec

end WireSchema
