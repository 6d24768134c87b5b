import WireSchema.Double.Basic
import WireSchema.Toml.Moment

/-!
# TOML values

The values that a settings file holds.  Tables are lists of entries.
-/

namespace WireSchema

/-- A value of a settings file. -/
inductive TomlValue where
  | string (s : String)
  | integer (n : Int)
  | float (x : Double)
  | bool (b : Bool)
  | moment (m : Toml.Moment)
  | array (items : List TomlValue)
  | table (entries : List (String × TomlValue))
  deriving Inhabited

/-- The entries of a table. -/
abbrev TomlTable := List (String × TomlValue)

end WireSchema
