import WireSchema.Host
import WireSchema.Json.Reader
import WireSchema.Path
import WireSchema.Settings.Basic
import WireSchema.Settings.Path
import WireSchema.Toml.Reader

/-!
# Layers of settings

Settings come in layers: files in fixed places, a file of the user, a file that is asked for, and
the environment.  Later layers win, name by name.
-/

namespace WireSchema

namespace Layers

/-! ## The environment -/

/-- The integer that a text of digits with perhaps a sign stands for. -/
def integerText? (text : String) : Option Int :=
  let (negative, digits) := match text.toList with
    | '-' :: r => (true, r)
    | '+' :: r => (false, r)
    | r => (false, r)
  if digits.isEmpty || !digits.all Char.isDigit then none
  else
    let n : Int := Double.digitsNat digits
    let n := if negative then -n else n
    if -0x8000000000000000 ≤ n ∧ n < 0x8000000000000000 then some n else none

/-- The value that the text of a variable stands for: a switch, a number, or the text itself. -/
def variableValue (text : String) : Setting :=
  if text.toLower == "true" then .switch true
  else if text.toLower == "false" then .switch false
  else
    match integerText? text, Double.ofText? text with
    | some n, _ => .integer n
    | none, some x => .float x
    | none, none => .text text

/-- What the names of variables start with. -/
def variableMark : String := "hyperschema__"

/-- The setting that a variable names: two underscores divide the parts of its path. -/
def setting? (variableName : String) : Option String :=
  let name := variableName.toLower
  if name.startsWith variableMark then
    some (String.intercalate "." ((name.drop variableMark.length).toString.splitOn "__"))
  else none

/-- The layer of the environment. -/
def ofEnvironment (environment : List (String × String)) : List (String × Setting) :=
  environment.filterMap fun (name, text) => (setting? name).map fun s => (s, variableValue text)

/-- The variables that have a meaning. -/
def knownVariables : List String :=
  ["XDG_CONFIG_HOME", "HOME"] ++
    ["BUILD__VERSIONED", "CODEGEN__RUNTIME_PATH", "CODEGEN__HEADER", "OUTPUT__JSON_FILE",
      "OUTPUT__CODE_FILE", "OUTPUT__FORMAT"].map (variableMark.toUpper ++ ·)

/-! ## Files -/

/-- The formats of settings files. -/
inductive Format where
  | toml
  | json
  deriving DecidableEq

/-- The extension of the files of a format. -/
def Format.extension : Format → String
  | .toml => "toml"
  | .json => "json"

/-- All formats. -/
def Format.all : List Format := [.toml, .json]

/-- The layer that a text gives: a table at its root. -/
def Format.layer? : Format → String → Option (List (String × Setting))
  | .toml, text => (Toml.parse? text).map Setting.ofTomlEntries
  | .json, text =>
    match Json.parse? text with
    | some (.object members) => some (Setting.ofJsonMembers members)
    | _ => none

/-- A settings file that was found. -/
structure Found where
  format : Format
  text : String

/-- Looks for a file at a path with the extension of one of some formats added. -/
def findExtended? {m : Type → Type} [Monad m] (host : Host m) (path : String) :
    List Format → m (Option Found)
  | [] => return none
  | format :: rest => do
    match Path.extended? path format.extension with
    | none => return none
    | some extended =>
      match ← host.read extended with
      | .ok text => return some ⟨format, text⟩
      | .error _ => findExtended? host path rest

/-- Looks for a settings file at a path, whose extension tells the format, or else at the path with
an extension added. -/
def find? {m : Type → Type} [Monad m] (host : Host m) (path : String) : m (Option Found) := do
  match ← host.read path with
  | .ok text =>
    return (Format.all.find? fun f => Path.hasExtension f.extension path).map fun f => ⟨f, text⟩
  | .error _ => findExtended? host path Format.all

/-- The layer of a settings file.  A byte order mark at its start is passed over. -/
def Found.layer? (f : Found) : Option (List (String × Setting)) :=
  f.format.layer? <| match f.text.toList with
    | '\ufeff' :: rest => String.ofList rest
    | _ => f.text

/-- The places that are looked at in every run. -/
def places : List String := ["hyperschema.toml", ".hyperschema.toml", "config/hyperschema.toml"]

/-- The file of the user in the environment: in the directory that a variable names, when that is
given from the root on, or else in the usual one at home. -/
def userFile? (environment : List (String × String)) : Option String :=
  let named := (environment.lookup "XDG_CONFIG_HOME").filter (·.startsWith "/")
  let usual := (environment.lookup "HOME").map (· ++ "/.config")
  (named.or usual).map (· ++ "/hyperschema/hyperschema.toml")

/-- Where settings come from besides the fixed places. -/
structure Sources where
  /-- The file of the user. -/
  userFile : Option String := none
  /-- The file that is asked for, which has to be there. -/
  requested : Option String := none
  environment : List (String × String) := []

/-- Whether anything stands at a path. -/
def isPresent {m : Type → Type} [Monad m] (host : Host m) (path : String) : m Bool := do
  match ← host.read path with
  | .ok _ | .error .isDirectory => return true
  | .error _ => return false

/-- The root after the layers of files that may be missing. -/
def addFiles {m : Type → Type} [Monad m] (host : Host m) :
    List String → Setting → m (Option Setting)
  | [], root => return some root
  | path :: rest, root => do
    match ← find? host path with
    | none => addFiles host rest root
    | some found =>
      match found.layer? with
      | some layer => addFiles host rest (root.addLayer layer)
      | none => return none

/-- The user's file if something stands at its path. -/
def userFiles {m : Type → Type} [Monad m] (host : Host m) (userFile : Option String) :
    m (List String) := userFile.toList.filterM (isPresent host)

/-- The root after the layer of the file that is asked for. -/
def addRequested {m : Type → Type} [Monad m] (host : Host m) (requested : Option String)
    (root : Setting) : m (Option Setting) := do
  match requested with
  | none => return some root
  | some path => return (← find? host path).bind fun found => found.layer?.map root.addLayer

end Layers

/-- The settings of all layers. -/
def Settings.load {m : Type → Type} [Monad m] (host : Host m) (sources : Layers.Sources) :
    m (Option Settings) := do
  let userFiles ← Layers.userFiles host sources.userFile
  match ← Layers.addFiles host (Layers.places ++ userFiles) (.table []) with
  | none => return none
  | some root =>
    let root ← Layers.addRequested host sources.requested root
    return root.bind fun root =>
      Settings.ofRoot? (root.addLayer (Layers.ofEnvironment sources.environment))

end WireSchema
