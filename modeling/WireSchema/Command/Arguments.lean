/-!
# Command line arguments

A run names a command with its files.  The settings file is asked for before the command; the
output file of a command may stand anywhere after it.
-/

namespace WireSchema

/-- What a run does. -/
inductive Command where
  /-- Writes a snapshot back in its normal form. -/
  | json (snapshot : String) (out : Option String)
  /-- Emits the module of a snapshot. -/
  | code (snapshot : String) (out : Option String)
  /-- Lays the declarations of one snapshot over another. -/
  | check (previous next : String)
  deriving DecidableEq

/-- A command with the settings file that is asked for. -/
structure Invocation where
  settingsFile : Option String := none
  command : Command
  deriving DecidableEq

namespace Arguments

/-- An option with a value, by its letter and its word. -/
structure Flag where
  letter : Char
  word : String

/-- The option for the settings file. -/
def settingsFlag : Flag := ⟨'c', "config"⟩

/-- The option for the output file. -/
def outFlag : Flag := ⟨'o', "out"⟩

/-- What the arguments start with. -/
inductive Found where
  /-- Something else than the option. -/
  | other
  /-- The option without a value. -/
  | broken
  /-- The option with a value, and the arguments after it. -/
  | value (v : String) (rest : List String)

/-- Whether an argument looks like an option. -/
def isOption (arg : String) : Bool := arg.startsWith "-" && arg != "-"

/-- A value that is part of the argument itself. -/
def attached (v : String) (rest : List String) : Found := if v == "" then .broken else .value v rest

/-- A value that is the next argument. -/
def following : List String → Found
  | [] => .broken
  | v :: rest => if isOption v || v == "" then .broken else .value v rest

/-- Looks for an option at the start of the arguments. -/
def Flag.find (f : Flag) (arg : String) (rest : List String) : Found :=
  let long := "--" ++ f.word
  let short := String.ofList ['-', f.letter]
  if arg == long || arg == short then following rest
  else if arg.startsWith (long ++ "=") then attached (arg.drop (long.length + 1)).toString rest
  else if arg.startsWith "--" then .other
  else if arg.startsWith (short ++ "=") then attached (arg.drop (short.length + 1)).toString rest
  else if arg.startsWith short then attached (arg.drop short.length).toString rest
  else .other

/-- The file names among the arguments, and the value of the option if one is allowed. -/
structure Files where
  names : List String := []
  out : Option String := none

/-- Reads the arguments of a command.  After two hyphens every argument is a file name. -/
def files? (flag : Option Flag) : Nat → List String → Files → Option Files
  | 0, _, _ => none
  | _, [], found => some found
  | fuel + 1, arg :: rest, found =>
    if arg == "--" then
      if rest.contains "" then none else some { found with names := found.names ++ rest }
    else if arg == "" then none
    else if !isOption arg then files? flag fuel rest { found with names := found.names ++ [arg] }
    else
      match flag.elim Found.other fun f => f.find arg rest with
      | .value v rest =>
        if found.out.isSome then none else files? flag fuel rest { found with out := some v }
      | .broken | .other => none

/-- The command that a word and its arguments stand for. -/
def command? (word : String) (args : List String) : Option Command := do
  let flag := if word == "check" then none else some outFlag
  let found ← files? flag (args.length + 1) args {}
  match word, found.names with
  | "json", [snapshot] => some (.json snapshot found.out)
  | "code", [snapshot] => some (.code snapshot found.out)
  | "check", [previous, next] => some (.check previous next)
  | _, _ => none

/-- Reads the arguments before the command and the command. -/
def invocation? : Nat → Option String → List String → Option Invocation
  | 0, _, _ => none
  | _, _, [] => none
  | fuel + 1, settingsFile, arg :: rest =>
    match settingsFlag.find arg rest with
    | .value v rest => if settingsFile.isSome then none else invocation? fuel (some v) rest
    | .broken => none
    | .other => do return ⟨settingsFile, ← command? arg rest⟩

/-- The run that arguments ask for, if they make sense. -/
def parse? (args : List String) : Option Invocation := invocation? (args.length + 1) none args

end Arguments

end WireSchema
