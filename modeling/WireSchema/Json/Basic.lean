import WireSchema.Double.Basic
import WireSchema.Assoc

/-!
# JSON values

A JSON number is a natural that fits 64 bits, a negative integer that fits 64 bits, or a double.
The members of an object stand in the order in which they are written; the reader sorts them by
name.
-/

namespace WireSchema

/-- A number of a JSON value. -/
inductive JsonNumber where
  | natural (n : UInt64)
  | negative (n : Int64)
  | float (x : Double)
  deriving DecidableEq

/-- A JSON value. -/
inductive Json where
  | null
  | bool (b : Bool)
  | number (n : JsonNumber)
  | string (s : String)
  | array (items : List Json)
  | object (members : List (String × Json))
  deriving Inhabited

namespace Json

/-- The number of a natural that fits 64 bits. -/
def ofUInt64 (n : UInt64) : Json := .number (.natural n)

/-- The number of a 32-bit natural. -/
def ofUInt32 (n : UInt32) : Json := .number (.natural n.toUInt64)

/-- The number of a signed 64-bit integer. -/
def ofInt64 (n : Int64) : Json :=
  if 0 ≤ n.toInt then .number (.natural (UInt64.ofNat n.toInt.toNat)) else .number (.negative n)

/-- The number of a natural below the range of 64 bits. -/
def ofNat (n : Nat) : Json := .number (.natural (UInt64.ofNat n))

/-- A double as a number; what is not finite has no number and becomes null. -/
def ofDouble (x : Double) : Json := if x.isFinite then .number (.float x) else .null

/-- The member of an object with the given name. -/
def get? : Json → String → Option Json
  | .object members, name => members.lookup name
  | _, _ => none

mutual

/-- How deep arrays and objects nest. -/
def depth : Json → Nat
  | .array items => depthItems items + 1
  | .object members => depthMembers members + 1
  | _ => 0

/-- The depth of the deepest item. -/
def depthItems : List Json → Nat
  | [] => 0
  | j :: rest => max j.depth (depthItems rest)

/-- The depth of the deepest member. -/
def depthMembers : List (String × Json) → Nat
  | [] => 0
  | (_, j) :: rest => max j.depth (depthMembers rest)

end

end Json

end WireSchema
