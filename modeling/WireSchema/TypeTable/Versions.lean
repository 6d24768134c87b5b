import WireSchema.Schema.Error
import WireSchema.TypeTable.Basic

/-!
# Raising versions

A field is at least as new as its type, and a struct at least as new as its fields.  Versions are
raised round by round until nothing moves.  A compact struct cannot take up a newer field type.
-/

namespace WireSchema

namespace TypeTable

/-- A field at least as new as its type. -/
def raiseField (t : TypeTable) (f : Field) : Field :=
  { f with version := max f.version (t.effectiveVersion f.typeName) }

/-- A declaration after one round. -/
def raise (t : TypeTable) (d : Declaration) : Declaration :=
  match d.body with
  | .struct s =>
    let fields := s.fields.map t.raiseField
    { d with
      version := (fields.map (·.version)).foldl max d.version, body := .struct { s with fields } }
  | _ => d

/-- The first field of a compact struct that is older than its type. -/
def drift? (t : TypeTable) : Option (String × String) :=
  (t.flatMap fun d =>
    match d.body with
    | .struct s =>
      if s.compact then
        (s.fields.filter fun f => decide (f.version < t.effectiveVersion f.typeName)).map
          fun f => (d.fqn, f.name)
      else []
    | _ => []).head?

/-- Raises versions for at most so many rounds. -/
def raiseWithin : Nat → TypeTable → Except SchemaError TypeTable
  | 0, t => .ok t
  | n + 1, t =>
    match t.drift? with
    | some (fqn, field) => .error (.compactVersionDrift fqn field)
    | none =>
      let raised := t.map t.raise
      if raised = t then .ok t else raiseWithin n raised

/-- Raises versions until nothing moves.  A version travels one struct a round, so a round for each
declaration and one that finds nothing are enough. -/
def raiseVersions (t : TypeTable) : Except SchemaError TypeTable := raiseWithin (t.length + 1) t

end TypeTable

end WireSchema
