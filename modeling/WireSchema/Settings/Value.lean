import WireSchema.Double.Decimal
import WireSchema.Json.Basic
import WireSchema.Toml.Basic

/-!
# Values of settings

Settings come from files of different formats and from the environment; here they are values of one
kind.  They are taken leniently: a switch may be a number or a word, and a text may be a number or a
switch.
-/

namespace WireSchema

/-- The value of a setting. -/
inductive Setting where
  /-- Nothing: a place in a list that no value was put in. -/
  | gap
  | switch (b : Bool)
  | integer (n : Int)
  | float (x : Double)
  | text (s : String)
  | list (items : List Setting)
  | table (entries : List (String × Setting))
  deriving Inhabited

namespace Setting

/-- The entries of a table; any other value has none. -/
def entries : Setting → List (String × Setting)
  | .table entries => entries
  | _ => []

/-- The items of a list; any other value has none. -/
def items : Setting → List Setting
  | .list items => items
  | _ => []

/-! ## Values of files -/

mutual

/-- The value that a TOML value stands for; dates and times are texts. -/
def ofToml : TomlValue → Setting
  | .string s => .text s
  | .integer n => .integer n
  | .float x => .float x
  | .bool b => .switch b
  | .moment m => .text m.text
  | .array items => .list (ofTomlItems items)
  | .table entries => .table (ofTomlEntries entries)

/-- The values of an array. -/
def ofTomlItems : List TomlValue → List Setting
  | [] => []
  | v :: rest => ofToml v :: ofTomlItems rest

/-- The entries of a table of values. -/
def ofTomlEntries : List (String × TomlValue) → List (String × Setting)
  | [] => []
  | (name, v) :: rest => (name, ofToml v) :: ofTomlEntries rest

end

/-- The value of a JSON number: an integer if it is one of 64 bits with a sign. -/
def ofJsonNumber : JsonNumber → Setting
  | .natural n =>
    if n.toNat < 0x8000000000000000 then .integer n.toNat else .float (.ofNat n.toNat)
  | .negative n => .integer n.toInt
  | .float x => .float x

mutual

/-- The value that a JSON value stands for. -/
def ofJson : Json → Setting
  | .null => .gap
  | .bool b => .switch b
  | .number n => ofJsonNumber n
  | .string s => .text s
  | .array items => .list (ofJsonItems items)
  | .object members => .table (ofJsonMembers members)

/-- The values of an array. -/
def ofJsonItems : List Json → List Setting
  | [] => []
  | j :: rest => ofJson j :: ofJsonItems rest

/-- The entries of an object. -/
def ofJsonMembers : List (String × Json) → List (String × Setting)
  | [] => []
  | (name, j) :: rest => (name, ofJson j) :: ofJsonMembers rest

end

/-! ## Lenient reading -/

/-- A switch: a number is on unless it is zero, and some words stand for on and off. -/
def switch? : Setting → Option Bool
  | .switch b => some b
  | .integer n => some (decide (n ≠ 0))
  | .float x => some (!x.isZero)
  | .text s =>
    let word := s.toLower
    if ["1", "true", "on", "yes"].contains word then some true
    else if ["0", "false", "off", "no"].contains word then some false
    else none
  | .gap | .list _ | .table _ => none

/-- A text: numbers and switches are written out. -/
def text? : Setting → Option String
  | .text s => some s
  | .switch b => some (toString b)
  | .integer n => some (toString n)
  | .float x => some x.plainText
  | .gap | .list _ | .table _ => none

/-- A text that may be left out. -/
def optionalText? : Setting → Option (Option String)
  | .gap => some none
  | v => some <$> v.text?

/-- Whether a word asks for a snapshot over lines. -/
def layoutWord? (word : String) : Option Bool :=
  if word.toLower == "pretty" then some true
  else if word.toLower == "compact" then some false
  else none

/-- Whether a snapshot is written over lines: one of two words, alone or as the only name of a
table. -/
def layout? : Setting → Option Bool
  | .text s => layoutWord? s
  | .table [(name, _)] => layoutWord? name
  | _ => none

end Setting

end WireSchema
