import WireSchema.Schema.Error
import WireSchema.TypeTable.Basic

/-!
# References between types

Declarations may refer to each other in cycles, as long as some reference on each cycle can be
absent: an optional field or an array field.  A cycle of references that every value must follow
describes a type without finite values.

Such cycles are found in the strongly connected components of the graph of these references.
-/

namespace WireSchema

/-! ## Kinds of references -/

/-- How one declaration refers to another. -/
inductive EdgeKind where
  | aliasTarget
  | element
  | payload
  | requiredField
  | optionalField
  | arrayField
  deriving DecidableEq

/-- Whether every value of the one type contains a value of the other. -/
def EdgeKind.isStrong : EdgeKind → Bool
  | .aliasTarget | .element | .payload | .requiredField => true
  | .optionalField | .arrayField => false

/-- How a field refers to its type. -/
def Field.edgeKind (f : Field) : EdgeKind :=
  if f.array then .arrayField else if f.required then .requiredField else .optionalField

namespace Declaration

/-- The types that a declaration names, each with the place where it does. -/
def references (d : Declaration) : List (String × String) :=
  match d.body with
  | .alias target => [(target, d.fqn)]
  | .array element => [(element, d.fqn)]
  | .struct s => s.fields.map fun f => (f.typeName, d.fqn ++ "/" ++ f.name)
  | .versioned entries =>
    entries.map fun e => (e.typeName, d.fqn ++ " version " ++ toString e.version.toNat)
  | .enum _ | .external _ => []

/-- The types that a declaration names, each with how it refers to it. -/
def links (d : Declaration) : List (String × EdgeKind) :=
  match d.body with
  | .alias target => [(target, .aliasTarget)]
  | .array element => [(element, .element)]
  | .struct s => s.fields.map fun f => (f.typeName, f.edgeKind)
  | .versioned entries => entries.map fun e => (e.typeName, .payload)
  | .enum _ | .external _ => []

end Declaration

/-! ## Sorting -/

namespace Ascending

variable {α : Type} (less : α → α → Bool)

/-- Puts an element in front of the first that is not smaller. -/
def insert (a : α) : List α → List α
  | [] => [a]
  | b :: rest => if less b a then b :: insert a rest else a :: b :: rest

/-- The elements of a list in ascending order. -/
def ofList : List α → List α
  | [] => []
  | a :: rest => insert less a (ofList rest)

end Ascending

/-! ## Graphs -/

/-- References between declarations by their places, each with its kind. -/
structure TypeGraph where
  /-- The places are the numbers below. -/
  size : Nat
  edges : List (Nat × Nat × EdgeKind)
  deriving DecidableEq

namespace TypeGraph

/-- The graph with the references that every value must follow. -/
def strong (g : TypeGraph) : TypeGraph :=
  { g with edges := g.edges.filter fun (_, _, kind) => kind.isStrong }

/-- The places that a place refers to. -/
def next (g : TypeGraph) (i : Nat) : List Nat :=
  (g.edges.filter fun (source, _, _) => source == i).map fun (_, target, _) => target

/-- Whether one place refers to another. -/
def hasEdge (g : TypeGraph) (i j : Nat) : Bool := (g.next i).contains j

/-- Adds the places that are referred to, for at most so many rounds or until nothing is new. -/
def saturate (g : TypeGraph) : Nat → List Nat → List Nat
  | 0, seen => seen
  | n + 1, seen =>
    let new := (seen.flatMap g.next).eraseDups.filter fun i => !seen.contains i
    if new.isEmpty then seen else saturate g n (seen ++ new)

/-- The places reached from a place by one or more references.  Each round but the last adds a
place, so as many rounds as there are places are enough. -/
def reached (g : TypeGraph) (i : Nat) : List Nat := g.saturate g.size (g.next i).eraseDups

/-- The strongly connected components: each place with all that it reaches and that reach it. -/
def components (g : TypeGraph) : List (List Nat) :=
  let closed := (List.range g.size).map fun i => (i, g.reached i)
  let around := closed.map fun (i, seen) =>
    (closed.filter fun (j, back) => i == j || (seen.contains j && back.contains i)).map (·.1)
  around.eraseDups

/-- The components with a cycle, each in order, in the order of their first places and then of the
others.  A component of one place has a cycle when the place refers to itself. -/
def cycles (g : TypeGraph) (components : List (List Nat)) : List (List Nat) :=
  let cyclic := components.filter fun c => 1 < c.length || c.head?.any fun i => g.hasEdge i i
  Ascending.ofList (fun a b => a.lex b)
    (cyclic.map (Ascending.ofList fun i j => decide (i < j)))

end TypeGraph

namespace TypeTable

/-- The place of the declaration that a name stands for. -/
def place? (t : TypeTable) (name : String) : Option Nat :=
  match Primitive.ofName? name with
  | some _ => none
  | none => t.findIdx? (·.fqn == name)

/-- The references between the declarations of a table. -/
def graph (t : TypeTable) : TypeGraph where
  size := t.length
  edges := t.zipIdx.flatMap fun (d, i) =>
    d.links.filterMap fun (name, kind) => (t.place? name).map fun j => (i, j, kind)

/-- Fails at the first reference to a type that is not there. -/
def checkLinked (t : TypeTable) : Except SchemaError Unit :=
  match (t.flatMap (·.references)).find? fun (name, _) => (t.resolve? name).isNone with
  | some (name, place) => .error (.unresolvedType name place)
  | none => .ok ()

/-- Fails at the first of the cycles among the given components of the strong references. -/
def checkFiniteOver (t : TypeTable) (components : List (List Nat)) : Except SchemaError Unit :=
  match (t.graph.strong.cycles components).head? with
  | some cycle => .error (.infiniteType (cycle.filterMap fun i => t[i]?.map (·.fqn)))
  | none => .ok ()

/-- Fails when some declared type has no finite value. -/
def checkFinite (t : TypeTable) : Except SchemaError Unit :=
  t.checkFiniteOver t.graph.strong.components

end TypeTable

end WireSchema
