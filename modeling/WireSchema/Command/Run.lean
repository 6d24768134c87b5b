import WireSchema.Builder
import WireSchema.Command.Arguments
import WireSchema.Settings.Layers

/-!
# Running commands

Commands run over any host.  A run gives the text for the standard output, or says why it failed.
-/

namespace WireSchema

/-- Why a run failed. -/
inductive CommandError where
  | settings
  | reading (path : String) (fault : FileFault)
  | parsing (path : String)
  | writing (path : String) (fault : FileFault)
  | schema (e : SchemaError)
  | registering (fqn : String) (e : SchemaError)
  deriving DecidableEq

/-- The wording of a fault. -/
def CommandError.message : CommandError → String
  | .settings => "loading configuration"
  | .reading path fault => "reading " ++ path ++ ": " ++ fault.message
  | .parsing path => "parsing " ++ path
  | .writing path fault => "writing " ++ path ++ ": " ++ fault.message
  | .schema e => e.message
  | .registering fqn e => "registering " ++ fqn ++ ": " ++ e.message

namespace Command

/-- A step of a run. -/
abbrev RunM (m : Type → Type) := ExceptT CommandError m

section

variable {m : Type → Type} [Monad m]

/-- Reads a snapshot. -/
def readSnapshot (host : Host m) (path : String) : RunM m Snapshot := do
  match ← (host.read path : m _) with
  | .error fault => throw (.reading path fault)
  | .ok text =>
    match Snapshot.parse? text with
    | some s => return s
    | none => throw (.parsing path)

/-- A result of the builder as a step of a run. -/
def ofBuilder {α : Type} : Except SchemaError α → RunM m α
  | .ok a => pure a
  | .error e => throw (.schema e)

/-- The schema of a snapshot. -/
def loadSchema (host : Host m) (versioned : Bool) (path : String) : RunM m Schema := do
  let snapshot ← readSnapshot host path
  let builder ← ofBuilder (Builder.ofSnapshot snapshot versioned)
  ofBuilder builder.build

/-- Writes a text to a file, or gives it for the standard output when the path is a hyphen. -/
def emitText (host : Host m) (path text : String) : RunM m String := do
  if Path.isHyphen path then return text
  match ← (host.write path text : m _) with
  | .ok _ => return ""
  | .error fault => throw (.writing path fault)

end

/-- The namespaces that descriptions give, in order and each once. -/
def namespacesOf (ds : List Description) : List String :=
  (Assoc.ofList (ds.filterMap fun d => d.ns.map fun ns => (ns, ()))).map (·.1)

/-- Registers descriptions, each named in its fault. -/
def registerNamed : List Description → Builder → Except CommandError Builder
  | [], b => .ok b
  | d :: rest, b =>
    match b.register d with
    | .ok b => registerNamed rest b
    | .error e => .error (.registering d.fqn e)

/-- The schema of one snapshot, and the schema with the declarations of another laid over it. -/
def overlaid (versioned : Bool) (before after : Snapshot) :
    Except CommandError (Schema × Schema) := do
  let lift {α : Type} (r : Except SchemaError α) : Except CommandError α := r.mapError .schema
  let builder ← lift (Builder.ofSnapshot before versioned)
  let old ← lift builder.build
  let builder ← lift ((namespacesOf after.declarations).foldlM Builder.declareNamespace builder)
  let builder ← registerNamed after.declarations builder
  return (old, ← lift builder.build)

/-- What a check reports. -/
def report (old new : Schema) : String :=
  let version (s : Schema) : String := toString s.version.toNat
  "version: " ++ version old ++ " -> " ++ version new ++ "\n" ++
    String.join (new.changes.map fun c => "  " ++ c.text ++ "\n") ++
    "fingerprint: " ++ old.fingerprint.short ++ " -> " ++ new.fingerprint.short ++ "\n"

/-- Runs a command under settings. -/
def runWith {m : Type → Type} [Monad m] (host : Host m) (s : Settings) :
    Command → RunM m String
  | .json snapshot out => do
    let schema ← loadSchema host s.versioned snapshot
    emitText host (out.getD s.jsonFile) (schema.text s.pretty)
  | .code snapshot out => do
    let schema ← loadSchema host s.versioned snapshot
    emitText host (out.getD s.codeFile) (Emit.moduleText schema s.emit)
  | .check previous next => do
    let before ← readSnapshot host previous
    let after ← readSnapshot host next
    match overlaid s.versioned before after with
    | .ok (old, new) => return report old new
    | .error e => throw e

/-- Runs what the arguments ask for. -/
def run {m : Type → Type} [Monad m] (host : Host m) (sources : Layers.Sources)
    (inv : Invocation) : RunM m String := do
  match ← (Settings.load host { sources with requested := inv.settingsFile } : m _) with
  | none => throw .settings
  | some s => runWith host s inv.command

end Command

end WireSchema
