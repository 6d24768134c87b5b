/-!
# Faults of writing and reading values

Each cause is a constructor that carries what the message names; `CodecError.message` is the only
place where the wording stands.
-/

namespace WireSchema

/-- Why a value could not be measured, written or read. -/
inductive CodecError where
  | missingRequiredField (typeName field : String)
  | unexpectedEnd
  | frameMismatch (expected actual : Nat)
  | outOfRange (kind value : String)
  | invalidValue (expected found : String)
  | unknownEnumValue (fqn value : String)
  | unknownVersion (fqn : String) (version : Nat)
  | unboundExternal (fqn : String)
  | unboundMigration (name : String)
  | unknownType (name : String)
  | invalidUtf8
  | json
  /-- The reader or writer of the named type nests deeper than any value of a built schema. -/
  | tooDeep (name : String)
  deriving DecidableEq

namespace CodecError

/-- The wording of a fault. -/
def message : CodecError → String
  | .missingRequiredField typeName field => "Missing required field " ++ field ++ " in " ++ typeName
  | .unexpectedEnd => "Unexpected end of buffer"
  | .frameMismatch expected actual =>
    "Frame payload was " ++ toString actual ++ " bytes, " ++ toString expected ++ " were measured"
  | .outOfRange kind value => "Value " ++ value ++ " out of range for " ++ kind
  | .invalidValue expected found => "Expected " ++ expected ++ ", found " ++ found
  | .unknownEnumValue fqn value => "Unknown value " ++ value ++ " for enum " ++ fqn
  | .unknownVersion fqn version => "Unknown version " ++ toString version ++ " for " ++ fqn
  | .unboundExternal fqn => "No codec bound for external type " ++ fqn
  | .unboundMigration name => "No migration bound named " ++ name
  | .unknownType name => "Unknown type: " ++ name
  | .invalidUtf8 => "Invalid UTF-8 in string"
  | .json => "JSON error"
  | .tooDeep name => "Type nests too deeply: " ++ name

end CodecError

end WireSchema
