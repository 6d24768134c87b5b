import WireSchema.Cursor
import WireSchema.Value

/-!
# Codecs

A codec measures, writes and reads the values of one type.  `Codec.encode` measures first, makes
a buffer of exactly that size and fills it.
-/

namespace WireSchema

/-- How the values of one type are measured, written and read. -/
structure Codec where
  /-- Accounts for the bytes of a value. -/
  reserve : Value → CursorM Unit
  /-- Writes a value. -/
  write : Value → CursorM Unit
  /-- Reads a value. -/
  read : CursorM Value

namespace Codec

/-- The number of bytes a value takes, as the measuring pass finds it. -/
def measure (c : Codec) (v : Value) : Except CodecError Nat :=
  match (c.reserve v).runFrom {} with
  | (.ok _, cursor) => .ok cursor.limit
  | (.error e, _) => .error e

/-- The bytes of a value. -/
def encode (c : Codec) (v : Value) : Except CodecError Bytes :=
  match (c.reserve v).runFrom {} with
  | (.error e, _) => .error e
  | (.ok _, cursor) =>
    match (c.write v).runFrom cursor.alloc with
    | (.ok _, cursor) => .ok cursor.buffer
    | (.error e, _) => .error e

/-- The value at the start of a byte string, and the position after it. -/
def decodeFirst (c : Codec) (bytes : Bytes) : Except CodecError (Value × Nat) :=
  match c.read.runFrom (Cursor.ofBytes bytes) with
  | (.ok v, cursor) => .ok (v, cursor.pos)
  | (.error e, _) => .error e

/-- The value at the start of a byte string; what follows it is ignored. -/
def decode (c : Codec) (bytes : Bytes) : Except CodecError Value :=
  (c.decodeFirst bytes).map Prod.fst

/-- The codec that always fails. -/
def fail (e : CodecError) : Codec where
  reserve _ := throw e
  write _ := throw e
  read := throw e

end Codec

end WireSchema
