/-!
# Sorted association lists

Tables from names to values are lists of pairs in strictly increasing order of the names, so equal
tables are equal lists.  Names are ordered by code points.  `Assoc.insert` keeps the order and
replaces what was there; `List.lookup` reads.
-/

namespace WireSchema

namespace Assoc

/-- The table with `name` bound to `value`. -/
def insert {α : Type} (name : String) (value : α) : List (String × α) → List (String × α)
  | [] => [(name, value)]
  | (n, v) :: rest =>
    if name < n then (name, value) :: (n, v) :: rest
    else if name = n then (name, value) :: rest
    else (n, v) :: insert name value rest

/-- The table of a list of bindings; of two for one name the later wins. -/
def ofList {α : Type} (bindings : List (String × α)) : List (String × α) :=
  bindings.foldl (fun table b => insert b.1 b.2 table) []

/-- Whether the names increase strictly. -/
def Sorted {α : Type} (table : List (String × α)) : Prop :=
  table.Pairwise (fun a b => a.1 < b.1)

end Assoc

end WireSchema
