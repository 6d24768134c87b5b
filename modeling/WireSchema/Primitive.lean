import WireSchema.Address.Basic
import WireSchema.Value

/-!
# The primitive kinds

A closed catalogue of named formats.  Kinds that differ only in a width or in an address family
are one constructor with a parameter.
-/

namespace WireSchema

/-- A primitive kind. -/
inductive Primitive where
  /-- Compact unsigned integer. -/
  | uint
  /-- One octet below `2 ^ (k + 1)`. -/
  | uintBits (k : Fin 7)
  /-- Unsigned integer of `w + 1` octets. -/
  | uintBytes (w : Fin 8)
  /-- Compact signed integer. -/
  | int
  /-- Signed integer of `w + 1` octets. -/
  | intBytes (w : Fin 8)
  | float32
  | float64
  | port
  /-- Unsigned integer whose octets sort like the number. -/
  | lexint
  /-- Signed integer whose octets sort like the number. -/
  | signedLexint
  | string
  | utf8
  | ascii
  | hex
  | bigint
  | biguint64
  | bigint64
  | fixed32
  | fixed64
  | buffer
  | date
  | lexdate
  | bool
  /-- Address of one family, or of the family that the octet before it names. -/
  | address (family : Option Family)
  /-- Endpoint of one family, or of the family that the octet before it names. -/
  | endpoint (family : Option Family)
  | none
  | raw
  | json
  deriving DecidableEq

/-- Broad groups of kinds, which decide the default value. -/
inductive Category where
  | unsigned
  | signed
  | float
  | bigInt
  | boolean
  | text
  | binary
  | network
  | other
  deriving DecidableEq

namespace Primitive

/-- The word before the name of a kind of one address family. -/
def familyName : Option Family → String
  | .none => "ip"
  | some .v4 => "ipv4"
  | some .v6 => "ipv6"

/-- The name of a kind in declarations. -/
def name : Primitive → String
  | .uint => "uint"
  | .uintBits k => "uint" ++ toString (k.val + 1)
  | .uintBytes w => "uint" ++ toString (8 * (w.val + 1))
  | .int => "int"
  | .intBytes w => "int" ++ toString (8 * (w.val + 1))
  | .float32 => "float32"
  | .float64 => "float64"
  | .port => "port"
  | .lexint => "lexint"
  | .signedLexint => "signedLexint"
  | .string => "string"
  | .utf8 => "utf8"
  | .ascii => "ascii"
  | .hex => "hex"
  | .bigint => "bigint"
  | .biguint64 => "biguint64"
  | .bigint64 => "bigint64"
  | .fixed32 => "fixed32"
  | .fixed64 => "fixed64"
  | .buffer => "buffer"
  | .date => "date"
  | .lexdate => "lexdate"
  | .bool => "bool"
  | .address f => familyName f
  | .endpoint f => familyName f ++ "Address"
  | .none => "none"
  | .raw => "raw"
  | .json => "json"

/-- Every kind, in catalogue order. -/
def all : List Primitive :=
  [.uint] ++ (List.finRange 7).map uintBits ++ (List.finRange 8).map uintBytes ++
  [.int] ++ (List.finRange 8).map intBytes ++
  ([.float32, .float64, .port, .lexint, .signedLexint, .string, .utf8, .ascii, .hex, .bigint,
    .biguint64, .bigint64, .fixed32, .fixed64, .buffer, .date, .lexdate, .bool,
    .address .none, .address (some .v4), .address (some .v6),
    .endpoint .none, .endpoint (some .v4), .endpoint (some .v6), .none, .raw, .json] :
      List Primitive)

/-- Every kind under its name. -/
def catalogue : List (String × Primitive) := all.map fun p => (p.name, p)

/-- The kind with the given name. -/
def ofName? (name : String) : Option Primitive := catalogue.lookup name

/-- The group a kind belongs to. -/
def category : Primitive → Category
  | .uint | .uintBits _ | .uintBytes _ | .port | .lexint => .unsigned
  | .int | .intBytes _ | .signedLexint => .signed
  | .float32 | .float64 => .float
  | .bigint | .biguint64 | .bigint64 => .bigInt
  | .bool => .boolean
  | .string | .utf8 | .ascii | .hex => .text
  | .fixed32 | .fixed64 | .buffer | .date | .lexdate => .binary
  | .address _ | .endpoint _ => .network
  | .none | .raw | .json => .other

/-- What a reader reports for a field of this kind that was not written. -/
def defaultValue (p : Primitive) : Value :=
  match p.category with
  | .unsigned => .uint 0
  | .signed => .int 0
  | .float => .float Double.zero
  | .bigInt => .bigInt (Int128.ofInt 0)
  | .boolean => .bool false
  | _ => .null

/-- The number of bits of the kinds that take part of an octet, and zero for all others. -/
def bitWidth : Primitive → Nat
  | .uintBits k => k.val + 1
  | _ => 0

end Primitive

end WireSchema
