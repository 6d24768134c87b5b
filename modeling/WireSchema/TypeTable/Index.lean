import WireSchema.Assoc
import WireSchema.TypeTable.Graph

/-!
# References by place

A declaration has its place in the table, and an index leads from its name there.  Through the index
the references of a table are resolved once and for all, each to a primitive or to a place.
-/

namespace WireSchema

/-- A resolved reference: a primitive, or a declaration by its place. -/
inductive TypeRef where
  | primitive (p : Primitive)
  | declared (id : Nat)
  deriving DecidableEq

/-- The place that a reference leads to, if it is to a declaration. -/
def TypeRef.id? : TypeRef → Option Nat
  | .primitive _ => none
  | .declared id => some id

/-- The type that a reference leads to. -/
def TypeTable.target? (t : TypeTable) : TypeRef → Option Target
  | .primitive p => some (.primitive p)
  | .declared id => t[id]?.map .declared

/-- The places of declared names. -/
abbrev NameIndex := List (String × Nat)

namespace NameIndex

/-- The places of the declarations of a table. -/
def ofTable (t : TypeTable) : NameIndex := Assoc.ofList (t.zipIdx.map fun (d, i) => (d.fqn, i))

/-- What a name refers to: a primitive, or else a declaration. -/
def resolve? (x : NameIndex) (name : String) : Option TypeRef :=
  match Primitive.ofName? name with
  | some p => some (.primitive p)
  | none => (x.lookup name).map .declared

/-- Resolves names one after the other; where one is not there, the error tells what names it. -/
def link (x : NameIndex) : List (String × String) → Except SchemaError (List TypeRef)
  | [] => .ok []
  | (name, referrer) :: rest =>
    match x.resolve? name with
    | none => .error (.unresolvedType name referrer)
    | some r => do
      let targets ← x.link rest
      return r :: targets

/-- Resolves the references of each declaration. -/
def linkTable (x : NameIndex) : TypeTable → Except SchemaError (List (List TypeRef))
  | [] => .ok []
  | d :: rest => do
    let targets ← x.link d.references
    let others ← x.linkTable rest
    return targets :: others

end NameIndex

end WireSchema
