import WireSchema.Declaration
import WireSchema.Primitive

/-!
# Type tables

The declarations of a schema in declaration order.  Types refer to each other by name, and a name
is looked up among the primitives first and then among the declarations.
-/

namespace WireSchema

/-- Declarations in declaration order. -/
abbrev TypeTable := List Declaration

/-- What a type name stands for. -/
inductive Target where
  | primitive (p : Primitive)
  | declared (d : Declaration)
  deriving DecidableEq

namespace Target

/-- The name of a type. -/
def fqn : Target → String
  | .primitive p => p.name
  | .declared d => d.fqn

/-- The word for the kind of a type. -/
def kindWord : Target → String
  | .primitive _ => "primitive"
  | .declared d => d.kind.word

/-- The version of a type; primitives have version zero. -/
def version : Target → UInt32
  | .primitive _ => 0
  | .declared d => d.version

end Target

namespace TypeTable

/-- The declaration of a name. -/
def declaration? (t : TypeTable) (fqn : String) : Option Declaration := t.find? (·.fqn == fqn)

theorem mem_of_declaration? {t : TypeTable} {fqn : String} {d : Declaration}
    (h : t.declaration? fqn = some d) : d ∈ t ∧ d.fqn = fqn :=
  ⟨List.mem_of_find?_eq_some h, by simpa using List.find?_some h⟩

/-- The type that a name stands for. -/
def resolve? (t : TypeTable) (name : String) : Option Target :=
  match Primitive.ofName? name with
  | some p => some (.primitive p)
  | none => (t.declaration? name).map .declared

/-- Follows at most so many aliases. -/
def unaliasWithin (t : TypeTable) : Nat → String → String
  | 0, name => name
  | n + 1, name =>
    match t.resolve? name with
    | some (.declared d) =>
      match d.body with
      | .alias target => unaliasWithin t n target
      | _ => name
    | _ => name

/-- The type that is written for a type: aliases are followed to their end.  Every alias on the
way is another declaration, so there are at most as many as declarations. -/
def unalias (t : TypeTable) (name : String) : String := t.unaliasWithin t.length name

/-- Whether values of a type are framed inside other values: those of structs that may grow, and
of aliases of them. -/
def isFrameable (t : TypeTable) (name : String) : Bool :=
  match t.resolve? (t.unalias name) with
  | some (.declared d) =>
    match d.body with
    | .struct s => !s.compact
    | _ => false
  | _ => false

/-- Whether a type is the bool primitive or an alias of it. -/
def isBool (t : TypeTable) (name : String) : Bool := t.unalias name == Primitive.name .bool

/-- The value of a field of a type that is not on the wire. -/
def defaultValue (t : TypeTable) (name : String) : Value :=
  match t.resolve? (t.unalias name) with
  | some (.primitive p) => p.defaultValue
  | _ => .null

/-- The version of a type through at most so many aliases and arrays. -/
def effectiveVersionWithin (t : TypeTable) : Nat → String → UInt32
  | 0, _ => 0
  | n + 1, name =>
    match t.resolve? name with
    | some (.declared d) =>
      match d.body with
      | .alias target => max d.version (effectiveVersionWithin t n target)
      | .array element => max d.version (effectiveVersionWithin t n element)
      | _ => d.version
    | _ => 0

/-- The version of a type, looking through aliases and arrays: the newest on the way. -/
def effectiveVersion (t : TypeTable) (name : String) : UInt32 :=
  t.effectiveVersionWithin (t.length + 1) name

end TypeTable

end WireSchema
