import WireSchema.Command.Run

/-!
# The command line

Runs commands on the files of the operating system.
-/

namespace WireSchema

/-- A fault of the operating system.  Its code may come with either sign. -/
def FileFault.ofSystem : IO.Error → FileFault
  | .noFileOrDirectory .. => .missing
  | .inappropriateType _ code _ =>
    if code == 21 || code == 0 - 21 then .isDirectory else .notDirectory
  | e => .other (toString e)

/-- Runs a step, with its fault as a value. -/
def attempt {α : Type} (step : IO α) : IO (Except FileFault α) := do
  try
    return .ok (← step)
  catch e =>
    return .error (.ofSystem e)

/-- The host of the operating system. -/
def systemHost : Host IO where
  read path := attempt (IO.FS.readFile path)
  write path text := attempt (IO.FS.writeFile path text)

/-- Where the settings of a run come from. -/
def systemSources : IO Layers.Sources := do
  let environment ← Layers.knownVariables.filterMapM fun name => do
    return (← IO.getEnv name).map fun text => (name, text)
  return { userFile := Layers.userFile? environment, environment }

end WireSchema

open WireSchema in
/-- Runs the command that the arguments ask for. -/
def main (args : List String) : IO UInt32 := do
  match Arguments.parse? args with
  | none =>
    IO.eprintln "usage: [--config FILE] (json|code) SNAPSHOT [--out FILE]"
    IO.eprintln "       [--config FILE] check PREVIOUS NEXT"
    return 2
  | some inv =>
    match ← (Command.run systemHost (← systemSources) inv).run with
    | .ok output =>
      IO.print output
      return 0
    | .error e =>
      IO.eprintln ("Error: " ++ e.message)
      return 1
