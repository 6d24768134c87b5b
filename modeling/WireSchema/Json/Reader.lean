import WireSchema.Json.Document

/-!
# Reading JSON values

A document has a value when its strings pair their surrogate escapes, its numbers are not too
large and its arrays and objects nest at most 127 deep.  Of two members with one name the later
wins.
-/

namespace WireSchema

namespace TextUnit

/-- The first of a pair of surrogate codes. -/
def isLeading (n : Nat) : Bool := decide (0xD800 ≤ n) && decide (n < 0xDC00)

/-- The second of a pair of surrogate codes. -/
def isTrailing (n : Nat) : Bool := decide (0xDC00 ≤ n) && decide (n < 0xE000)

/-- The characters that units stand for, unless a surrogate code has no partner. -/
def decode? : List TextUnit → Option (List Char)
  | [] => some []
  | .char c :: rest => (decode? rest).map (c :: ·)
  | .code n :: .code m :: rest =>
    if isLeading n then
      if isTrailing m then
        (decode? rest).map (Char.ofNat (0x10000 + (n - 0xD800) * 1024 + (m - 0xDC00)) :: ·)
      else none
    else if isTrailing n then none
    else (decode? (.code m :: rest)).map (Char.ofNat n :: ·)
  | .code n :: rest =>
    if isLeading n || isTrailing n then none else (decode? rest).map (Char.ofNat n :: ·)

/-- The text that units stand for, unless a surrogate code has no partner. -/
def text? (units : List TextUnit) : Option String := (decode? units).map String.ofList

end TextUnit

namespace Document

/-- How deep arrays and objects may nest. -/
def maxDepth : Nat := 127

mutual

/-- The value of a document of which at most `room` arrays and objects nest. -/
def toJson? (room : Nat) : Document → Option Json
  | .null => some .null
  | .bool b => some (.bool b)
  | .number n => n.toNumber?.map .number
  | .string units => (TextUnit.text? units).map .string
  | .array items =>
    if room = 0 then none else (itemsToJson? (room - 1) items).map .array
  | .object members =>
    if room = 0 then none
    else (membersToJson? (room - 1) members).map fun table => .object (Assoc.ofList table)

/-- The values of items. -/
def itemsToJson? (room : Nat) : List Document → Option (List Json)
  | [] => some []
  | d :: rest =>
    match toJson? room d, itemsToJson? room rest with
    | some j, some js => some (j :: js)
    | _, _ => none

/-- The values of members, in written order. -/
def membersToJson? (room : Nat) : List (List TextUnit × Document) → Option (List (String × Json))
  | [] => some []
  | (name, d) :: rest =>
    match TextUnit.text? name, toJson? room d, membersToJson? room rest with
    | some n, some j, some js => some ((n, j) :: js)
    | _, _, _ => none

end

end Document

/-- The value that a JSON text stands for. -/
def Json.parse? (text : String) : Option Json :=
  (Document.parse? text).bind (Document.toJson? Document.maxDepth)

/-! ## Values as documents -/

namespace Document

/-- The numeral of a number. -/
def ofNumber : JsonNumber → Numeral
  | .natural n => ⟨false, Nat.toDigits 10 n.toNat, none, none⟩
  | .negative n => ⟨true, Nat.toDigits 10 n.toInt.natAbs, none, none⟩
  -- a double is never written as an integer
  | .float x => ⟨x.isNegative, ['0'], some ['0'], none⟩

/-- A text as units. -/
def ofText (s : String) : List TextUnit := s.toList.map .char

mutual

/-- A document whose shape is that of a value; of a double only that it is one is kept. -/
def shape : Json → Document
  | .null => .null
  | .bool b => .bool b
  | .number n => .number (ofNumber n)
  | .string s => .string (ofText s)
  | .array items => .array (shapeItems items)
  | .object members => .object (shapeMembers members)

/-- The shapes of items. -/
def shapeItems : List Json → List Document
  | [] => []
  | j :: rest => shape j :: shapeItems rest

/-- The shapes of members. -/
def shapeMembers : List (String × Json) → List (List TextUnit × Document)
  | [] => []
  | (name, j) :: rest => (ofText name, shape j) :: shapeMembers rest

end

end Document

end WireSchema
