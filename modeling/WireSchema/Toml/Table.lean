import WireSchema.Toml.Basic

/-!
# Building tables

A document is a sequence of statements: headers, which open a table or a new item of an array of
tables, and bindings in the table that was opened last.  A name is bound once, a table is opened
once, and a table that bindings made with dotted keys is not opened by a header.
-/

namespace WireSchema

namespace Toml

/-- How a table came about. -/
inductive Origin where
  /-- As part of the path of a header. -/
  | implied
  /-- As part of a dotted key. -/
  | dotted
  /-- By a header of its own. -/
  | header
  deriving DecidableEq

/-- A table under construction, a closed value, or an array of tables. -/
inductive Node where
  | value (v : TomlValue)
  | table (origin : Origin) (entries : List (String × Node))
  | tables (items : List (List (String × Node)))
  deriving Inhabited

/-- The entries of a table under construction. -/
abbrev Entries := List (String × Node)

/-- The entries with a name bound anew, in its place or at the end. -/
def replace (name : String) (node : Node) : Entries → Entries
  | [] => [(name, node)]
  | (n, old) :: rest =>
    if n = name then (n, node) :: rest else (n, old) :: replace name node rest

/-- A statement of a document. -/
inductive Statement where
  /-- Opens a table. -/
  | openTable (path : List String)
  /-- Opens a new item of an array of tables. -/
  | openItem (path : List String)
  | binding (path : List String) (v : TomlValue)

/-- Changes the last item of a non-empty list. -/
def updateLast {α : Type} (f : α → Option α) : List α → Option (List α)
  | [] => none
  | [a] => do return [← f a]
  | a :: rest => do return a :: (← updateLast f rest)

/-- Changes the table at the path of a header, making the tables on the way. -/
def within (f : Entries → Option Entries) : List String → Entries → Option Entries
  | [], entries => f entries
  | name :: path, entries => do
    match entries.lookup name with
    | none => return replace name (.table .implied (← within f path [])) entries
    | some (.table origin inner) =>
      return replace name (.table origin (← within f path inner)) entries
    | some (.tables items) =>
      return replace name (.tables (← updateLast (within f path) items)) entries
    | some (.value _) => none

/-- Opens a table that is new, or that was only implied so far. -/
def openTable (name : String) (entries : Entries) : Option Entries :=
  match entries.lookup name with
  | none => some (replace name (.table .header []) entries)
  | some (.table .implied inner) => some (replace name (.table .header inner) entries)
  | some _ => none

/-- Opens a new item of an array of tables. -/
def openItem (name : String) (entries : Entries) : Option Entries :=
  match entries.lookup name with
  | none => some (replace name (.tables [[]]) entries)
  | some (.tables items) => some (replace name (.tables (items ++ [[]])) entries)
  | some _ => none

/-- Binds a dotted key.  The tables on its way are implied by headers or made by dotted keys, or
they are the last ones of arrays of tables; the table that gets the binding is made by dotted
keys. -/
def bind (v : TomlValue) : List String → Entries → Option Entries
  | [], _ => none
  | [name], entries =>
    match entries.lookup name with
    | none => some (replace name (.value v) entries)
    | some _ => none
  | name :: next :: path, entries => do
    match entries.lookup name with
    | none => return replace name (.table .dotted (← bind v (next :: path) [])) entries
    | some (.table .dotted inner) =>
      return replace name (.table .dotted (← bind v (next :: path) inner)) entries
    | some (.table .implied inner) =>
      if path.isEmpty then none
      else return replace name (.table .implied (← bind v (next :: path) inner)) entries
    | some (.tables items) =>
      if path.isEmpty then none
      else return replace name (.tables (← updateLast (bind v (next :: path)) items)) entries
    | some (.table .header _) | some (.value _) => none

/-- Splits off the last name of a path. -/
def unsnoc? (path : List String) : Option (List String × String) :=
  path.getLast?.map fun last => (path.dropLast, last)

/-- The root table and the path of the open table after a statement. -/
def step (state : Entries × List String) : Statement → Option (Entries × List String)
  | .openTable path => do
    let (parents, name) ← unsnoc? path
    return (← within (openTable name) parents state.1, path)
  | .openItem path => do
    let (parents, name) ← unsnoc? path
    return (← within (openItem name) parents state.1, path)
  | .binding path v => do
    return (← within (bind v path) state.2 state.1, state.2)

mutual

/-- The finished value of a node. -/
def Node.finish : Node → TomlValue
  | .value v => v
  | .table _ entries => .table (finishEntries entries)
  | .tables items => .array (finishItems items)

/-- The finished entries of a table. -/
def finishEntries : List (String × Node) → TomlTable
  | [] => []
  | (name, node) :: rest => (name, node.finish) :: finishEntries rest

/-- The finished items of an array of tables. -/
def finishItems : List (List (String × Node)) → List TomlValue
  | [] => []
  | entries :: rest => .table (finishEntries entries) :: finishItems rest

end

/-- The table of bindings that stand together in braces. -/
def inlineTable? (bindings : List (List String × TomlValue)) : Option TomlTable := do
  let entries ← bindings.foldlM (fun entries (path, v) => bind v path entries) []
  return finishEntries entries

/-- The root table of a document. -/
def assemble? (statements : List Statement) : Option TomlTable := do
  let (root, _) ← statements.foldlM step ([], [])
  return finishEntries root

end Toml

end WireSchema
