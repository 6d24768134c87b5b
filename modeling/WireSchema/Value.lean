import WireSchema.Bytes
import WireSchema.Int128
import WireSchema.Json.Basic
import WireSchema.Codec.Error

/-!
# Values

A `Value` is what a codec writes and reads.  Reading always gives one variant for a kind of
format (unsigned numbers, signed numbers, texts, ...); writing is lenient where nothing is lost,
so any integer variant serves where the number fits.
-/

namespace WireSchema

/-- A value of some type of a schema. -/
inductive Value where
  | null
  | bool (b : Bool)
  | uint (n : UInt64)
  | int (n : Int64)
  | float (x : Double)
  | bigInt (n : Int128)
  | string (s : String)
  | bytes (b : Bytes)
  | array (items : List Value)
  /-- Field values, sorted by name. -/
  | struct (fields : List (String × Value))
  | json (j : Json)
  deriving Inhabited

/-- The values of a struct's fields, sorted by name. -/
abbrev Fields := List (String × Value)

namespace Value

/-- The word for the variant. -/
def kind : Value → String
  | .null => "null"
  | .bool _ => "bool"
  | .uint _ => "uint"
  | .int _ => "int"
  | .float _ => "float"
  | .bigInt _ => "bigint"
  | .string _ => "string"
  | .bytes _ => "bytes"
  | .array _ => "array"
  | .struct _ => "struct"
  | .json _ => "json"

/-- The null value. -/
def isNull : Value → Bool
  | .null => true
  | _ => false

/-- A value other than null. -/
def isPresent (v : Value) : Bool := !v.isNull

/-- The truth value true itself. -/
def isTrue : Value → Bool
  | .bool b => b
  | _ => false

/-! ## Views -/

/-- The integer of any integer variant. -/
def integer? : Value → Option Int
  | .uint n => some n.toNat
  | .int n => some n.toInt
  | .bigInt n => some n.val
  | _ => none

/-- A fault that names what was expected and the variant that was found. -/
def mismatch (expected : String) (v : Value) : CodecError := .invalidValue expected v.kind

/-- The value as a natural of 64 bits. -/
def toUInt64 (v : Value) : Except CodecError UInt64 :=
  match v.integer? with
  | none => .error (mismatch "unsigned integer" v)
  | some n =>
    if 0 ≤ n ∧ n < 0x10000000000000000 then .ok (UInt64.ofNat n.toNat)
    else .error (.outOfRange "uint" (toString n))

/-- The value as a signed integer of 64 bits. -/
def toInt64 (v : Value) : Except CodecError Int64 :=
  match v.integer? with
  | none => .error (mismatch "integer" v)
  | some n =>
    if -0x8000000000000000 ≤ n ∧ n < 0x8000000000000000 then .ok (Int64.ofInt n)
    else .error (.outOfRange "int" (toString n))

/-- The value as a signed integer of 128 bits. -/
def toInt128 (v : Value) : Except CodecError Int128 :=
  match v.integer? with
  | none => .error (mismatch "big integer" v)
  | some n => .ok (Int128.ofInt n)

/-- The value as a double; integers of 64 bits are rounded. -/
def toDouble : Value → Except CodecError Double
  | .float x => .ok x
  | .uint n => .ok (Double.ofNat n.toNat)
  | .int n => .ok (Double.ofInt n.toInt)
  | v => .error (mismatch "number" v)

/-- The value as a truth value. -/
def toBool : Value → Except CodecError Bool
  | .bool b => .ok b
  | v => .error (mismatch "bool" v)

/-- The value as a text. -/
def toText : Value → Except CodecError String
  | .string s => .ok s
  | v => .error (mismatch "string" v)

/-- The value as a byte string. -/
def toBytes : Value → Except CodecError Bytes
  | .bytes b => .ok b
  | v => .error (mismatch "bytes" v)

/-- The value as a list of values. -/
def toItems : Value → Except CodecError (List Value)
  | .array items => .ok items
  | v => .error (mismatch "array" v)

/-- The value as the fields of a struct. -/
def toFields : Value → Except CodecError Fields
  | .struct fields => .ok fields
  | v => .error (mismatch "struct" v)

/-! ## JSON -/

mutual

/-- The value as plain JSON: big integers become texts, byte strings lists of numbers. -/
def toJson : Value → Json
  | .null => .null
  | .bool b => .bool b
  | .uint n => Json.ofUInt64 n
  | .int n => Json.ofInt64 n
  | .float x => Json.ofDouble x
  | .bigInt n => .string (toString n.val)
  | .string s => .string s
  | .bytes b => .array (b.map fun x => Json.ofNat x.toNat)
  | .array items => .array (itemsToJson items)
  | .struct fields => .object (fieldsToJson fields)
  | .json j => j

/-- Items as plain JSON. -/
def itemsToJson : List Value → List Json
  | [] => []
  | v :: rest => v.toJson :: itemsToJson rest

/-- Fields as plain JSON. -/
def fieldsToJson : List (String × Value) → List (String × Json)
  | [] => []
  | (name, v) :: rest => (name, v.toJson) :: fieldsToJson rest

end

/-! ## Depth -/

mutual

/-- How deep arrays and structs nest. -/
def depth : Value → Nat
  | .array items => depthItems items + 1
  | .struct fields => depthFields fields + 1
  | _ => 0

/-- The depth of the deepest item. -/
def depthItems : List Value → Nat
  | [] => 0
  | v :: rest => max v.depth (depthItems rest)

/-- The depth of the deepest field. -/
def depthFields : List (String × Value) → Nat
  | [] => 0
  | (_, v) :: rest => max v.depth (depthFields rest)

end

end Value

namespace Fields

/-- The field with the given name, or null when there is none. -/
def get (fields : Fields) (name : String) : Value := (fields.lookup name).getD .null

/-- Fails unless the field is present. -/
def require (fields : Fields) (typeName name : String) : Except CodecError Unit :=
  if (fields.get name).isPresent then .ok () else .error (.missingRequiredField typeName name)

/-- The bit of an optional field that is set: a bool field when it is true, any other when it is
present. -/
def flag (fields : Fields) (name : String) (bit : Nat) (isBool : Bool) : Nat :=
  let v := fields.get name
  if (if isBool then v.isTrue else v.isPresent) then bit else 0

end Fields

end WireSchema
