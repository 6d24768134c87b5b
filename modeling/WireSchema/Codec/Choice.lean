import WireSchema.Codec.Primitive

/-!
# Choices

A choice is one of a list of keys.  It is written as the key's index above an offset, or as the
key itself, and it is read as the key.
-/

namespace WireSchema

/-- A list of keys and how a key is written. -/
structure Choice where
  fqn : String
  keys : List String
  offset : UInt64
  strings : Bool
  deriving DecidableEq

namespace Choice

/-- The fault of a value that is none of the keys. -/
def unknown (e : Choice) (value : String) : CodecError := .unknownEnumValue e.fqn value

/-- The first index of a key. -/
def index (e : Choice) (key : String) : Except CodecError Nat :=
  match e.keys.idxOf? key with
  | some i => .ok i
  | none => .error (e.unknown key)

/-- The number written for the key at an index.  A sum that exceeds 64 bits wraps around, as it does
where arithmetic is not checked; a build with checked arithmetic stops there instead. -/
def code (e : Choice) (i : Nat) : UInt64 := e.offset + UInt64.ofNat i

/-- The primitive kind that a choice is written with. -/
def wireKind (e : Choice) : Primitive := if e.strings then .string else .uint

/-- What is written for a value: the key, or its number; a number that stands for a key is taken
as it is. -/
def wire (e : Choice) (v : Value) : Except CodecError Value :=
  if e.strings then do
    let key ← v.toText
    let _ ← e.index key
    return .string key
  else
    match v with
    | .string key => do return .uint (e.code (← e.index key))
    | v => do
      let n ← v.toUInt64
      if n < e.offset ∨ e.keys.length ≤ (n - e.offset).toNat then
        throw (e.unknown (toString n.toNat))
      else return .uint n

/-- Reads a key. -/
def read (e : Choice) : CursorM Value :=
  if e.strings then do
    let key ← Primitive.readText
    let _ ← CursorM.ofExcept (e.index key)
    return .string key
  else do
    let n ← Varint.read
    let key? := if n < e.offset.toNat then none else e.keys[n - e.offset.toNat]?
    match key? with
    | some key => return .string key
    | none => throw (e.unknown (toString n))

/-- The codec of a choice. -/
def codec (e : Choice) : Codec where
  reserve v := do
    let w ← CursorM.ofExcept (e.wire v)
    e.wireKind.codec.reserve w
  write v := do
    let w ← CursorM.ofExcept (e.wire v)
    e.wireKind.codec.write w
  read := e.read

end Choice

end WireSchema
