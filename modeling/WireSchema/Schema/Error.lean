import WireSchema.Name
import WireSchema.Text.Quoted

/-!
# Faults of building a schema

Every rule has a constructor of its own that carries what the message names.
-/

namespace WireSchema

/-- Why a declaration or a build was refused. -/
inductive SchemaError where
  | namespaceExists (name : String)
  | unknownNamespace (name : String)
  | duplicateType (fqn : String)
  | invalidName (name : String)
  | missingDefinition (fqn what : String)
  | unresolvedType (typeName referrer : String)
  | kindChanged (fqn was now : String)
  | aliasRemapped (fqn was now : String)
  | enumShrunk (fqn : String) (was now : Nat)
  | enumValueRenamed (fqn : String) (index : Nat) (was now : String)
  | enumRemapped (fqn : String)
  | externalRemapped (fqn was now : String)
  | fieldRemoved (fqn : String)
  | compactExpanded (fqn : String)
  | fieldModified (fqn field : String)
  | requiredChanged (fqn field : String)
  | arrayModified (fqn : String)
  | versionedModified (fqn detail : String)
  | compactVersionDrift (fqn field : String)
  | flagsPositionChanged (fqn : String) (was now : Nat)
  | invalidFlagsPosition (fqn : String) (position : Int)
  | tooManyOptionals (fqn : String) (count : Nat)
  | requiredBool (fqn field : String)
  | infiniteType (members : List String)
  | json
  deriving DecidableEq

namespace SchemaError

/-- The wording of a fault. -/
def message : SchemaError → String
  | .namespaceExists name => "Namespace already exists: " ++ name
  | .unknownNamespace name => "Unknown namespace: " ++ name
  | .duplicateType fqn => "Type registered twice in one build: " ++ fqn
  | .invalidName name => "Invalid name " ++ quoted name ++ ": must match " ++ Name.pattern
  | .missingDefinition fqn what => fqn ++ ": required '" ++ what ++ "' definition is missing"
  | .unresolvedType typeName referrer => "Cannot resolve type " ++ typeName ++ " in " ++ referrer
  | .kindChanged fqn was now =>
    "Previous declaration of " ++ fqn ++ " was a " ++ was ++ ", not a " ++ now
  | .aliasRemapped fqn was now =>
    "Remapping an alias: " ++ fqn ++ " (was " ++ was ++ ", now " ++ now ++ ")"
  | .enumShrunk fqn was now =>
    "Shrinking an enum: " ++ fqn ++ " had " ++ toString was ++ " values, now " ++ toString now
  | .enumValueRenamed fqn index was now =>
    "Renaming an enum value: " ++ fqn ++ "[" ++ toString index ++ "] was " ++ quoted was ++
      " but is now " ++ quoted now
  | .enumRemapped fqn => "Changing the encoding of an enum: " ++ fqn
  | .externalRemapped fqn was now =>
    "External type was remapped: " ++ fqn ++ " (was " ++ was ++ ", now " ++ now ++ ")"
  | .fieldRemoved fqn => "A field was removed: " ++ fqn
  | .compactExpanded fqn => "A compact struct was expanded: " ++ fqn
  | .fieldModified fqn field => "Field was modified: " ++ fqn ++ "/" ++ field
  | .requiredChanged fqn field =>
    "Required field must stay required (and optional must stay optional): " ++ fqn ++ "/" ++ field
  | .arrayModified fqn => "Array was modified: " ++ fqn
  | .versionedModified fqn detail => "VersionedType was modified: " ++ fqn ++ ": " ++ detail
  | .compactVersionDrift fqn field =>
    "Cannot change fields in a compact type: " ++ fqn ++ "/" ++ field
  | .flagsPositionChanged fqn was now =>
    "Flags position of " ++ fqn ++ " moved from " ++ toString was ++ " to " ++ toString now
  | .invalidFlagsPosition fqn position =>
    "Invalid flags position " ++ toString position ++ " for " ++ fqn
  | .tooManyOptionals fqn count =>
    fqn ++ " has " ++ toString count ++ " optional fields, at most 64 fit in the flags"
  | .requiredBool fqn field =>
    "Bool field " ++ fqn ++ "/" ++ field ++ " cannot be required, its value lives in the flags"
  | .infiniteType members =>
    "Types form a cycle no finite value can satisfy: " ++ String.intercalate " -> " members
  | .json => "JSON error"

end SchemaError

/-- Refuses a text that is not a name. -/
def Name.check (name : String) : Except SchemaError Unit :=
  if Name.isValid name then .ok () else .error (.invalidName name)

end WireSchema
