import WireSchema.Emit.Module
import WireSchema.Settings.Value
import WireSchema.Toml.Printer

/-!
# Settings

What the command line can be told by files and by the environment, with defaults for everything.
Settings stand in sections.  A section gives them by name, or as a list in a fixed order.
-/

namespace WireSchema

/-- The settings of a run. -/
structure Settings where
  /-- Whether changes raise the schema version. -/
  versioned : Bool := true
  emit : Emit.Options := {}
  /-- Where the snapshot is written to. -/
  jsonFile : String := "schema.json"
  /-- Where the emitted module is written to. -/
  codeFile : String := "schema.rs"
  /-- Whether the snapshot is written over lines. -/
  pretty : Bool := true
  deriving DecidableEq

namespace Settings

/-- A section; one that is neither a table nor a list is refused. -/
def section? (root : Setting) (name : String) : Option Setting :=
  match root.entries.lookup name with
  | none => some (.table [])
  | some (.table entries) => some (.table entries)
  | some (.list items) => some (.list items)
  | some _ => none

/-- What a section says of a setting, which has a name and a place in lists. -/
def member? (name : String) (place : Nat) : Setting → Option Setting
  | .table entries => entries.lookup name
  | .list items => items[place]?
  | _ => none

/-- A setting as it is read, or its default when the section says nothing of it. -/
def valueOr? {α : Type} (given : Option Setting) (read : Setting → Option α) (default : α) :
    Option α :=
  given.elim (some default) read

/-- The settings that a root table gives.  Names without a meaning are passed over. -/
def ofRoot? (root : Setting) : Option Settings := do
  let defaults : Settings := {}
  let build ← section? root "build"
  let codegen ← section? root "codegen"
  let output ← section? root "output"
  return {
    versioned := ← valueOr? (member? "versioned" 0 build) Setting.switch? defaults.versioned
    emit := {
      runtimePath :=
        ← valueOr? (member? "runtime_path" 0 codegen) Setting.text? defaults.emit.runtimePath
      header := ← valueOr? (member? "header" 1 codegen) Setting.optionalText? none }
    jsonFile := ← valueOr? (member? "json_file" 0 output) Setting.text? defaults.jsonFile
    codeFile := ← valueOr? (member? "code_file" 1 output) Setting.text? defaults.codeFile
    pretty := ← valueOr? (member? "format" 2 output) Setting.layout? defaults.pretty }

/-- A section as it is saved. -/
def sectionText (name : String) (entries : List (String × String)) : String :=
  "[" ++ name ++ "]\n" ++ String.join (entries.map fun (n, v) => n ++ " = " ++ v ++ "\n")

/-- The settings as a file that gives them again. -/
def toText (s : Settings) : String :=
  let header := match s.emit.header with
    | some h => [("header", Toml.stringText h)]
    | none => []
  String.intercalate "\n"
    [sectionText "build" [("versioned", toString s.versioned)],
      sectionText "codegen" (("runtime_path", Toml.stringText s.emit.runtimePath) :: header),
      sectionText "output"
        [("json_file", Toml.stringText s.jsonFile), ("code_file", Toml.stringText s.codeFile),
          ("format", Toml.stringText (if s.pretty then "pretty" else "compact"))]]

end Settings

end WireSchema
