import WireSchema.Host
import WireSchema.Path

/-!
# Directories in memory

A working directory with the files below it.  A path is followed part by part, and every part but
the last has to lead to a directory: `no/../x` is not `x` unless there is a directory `no`.  Nothing
is known of what lies outside of the working directory, so no name is found there, and what is
written there leaves no trace.
-/

namespace WireSchema

/-- A directory that holds files by the names that lead to them. -/
structure Directory where
  files : List (List String × String)
  deriving DecidableEq

namespace Directory

/-- The directory with files at paths. -/
def ofFiles (files : List (String × String)) : Directory :=
  ⟨files.map fun (path, text) => ((Path.parts path).filter fun part => !Path.stays part, text)⟩

/-- What names lead to. -/
inductive Entry where
  | file (text : String)
  | directory
  deriving DecidableEq

/-- What stands at names below the directory.  There are no empty directories but the whole one. -/
def entry? (d : Directory) (names : List String) : Option Entry :=
  match d.files.lookup names with
  | some text => some (.file text)
  | none =>
    if names.isEmpty || d.files.any fun (file, _) => names.isPrefixOf file then some .directory
    else none

/-! ## Following paths -/

/-- A directory on the way of a path: the names that lead to it, or `none` outside of the working
directory. -/
abbrev Place := Option (List String)

/-- The directory above a place. -/
def above : Place → Place
  | some (name :: names) => some (name :: names).dropLast
  | _ => none

/-- Looks a name up at a place. -/
def look (d : Directory) (place : Place) (name : String) : Except FileFault Entry := do
  if 255 < name.utf8ByteSize then throw .tooLong
  match place.bind fun names => d.entry? (names ++ [name]) with
  | some entry => return entry
  | none => throw .missing

/-- The place that a part of a path leads to. -/
def enter (d : Directory) (place : Place) (part : String) : Except FileFault Place := do
  if part == "." then return place
  if part == ".." then return above place
  match ← d.look place part with
  | .directory => return place.map (· ++ [part])
  | .file _ => throw .notDirectory

/-- Where a path ends. -/
inductive Stop where
  /-- At a directory that its last part does not name. -/
  | directory
  /-- At a name, with or without a slash behind it. -/
  | name (place : Place) (name : String) (slash : Bool)

/-- Follows a path up to its last part. -/
def follow (d : Directory) (path : String) : Except FileFault Stop := do
  if path.toList.contains '\x00' then throw .unusable
  if path.isEmpty then throw .missing
  if 4096 ≤ path.utf8ByteSize then throw .tooLong
  let parts := (Path.parts path).filter (· != "")
  match parts.getLast? with
  | none => return .directory
  | some last =>
    let start : Place := if path.startsWith "/" then none else some []
    let place ← parts.dropLast.foldlM d.enter start
    if Path.isDots last then return .directory
    return .name place last (path.endsWith "/")

/-! ## Reading and writing -/

/-- What stands at a path. -/
def entry (d : Directory) (path : String) : Except FileFault Entry := do
  match ← d.follow path with
  | .directory => return .directory
  | .name place name slash =>
    match ← d.look place name with
    | .directory => return .directory
    | .file text => if slash then throw .notDirectory else return .file text

/-- Reads a file. -/
def read (d : Directory) (path : String) : Except FileFault String := do
  match ← d.entry path with
  | .file text => return text
  | .directory => throw .isDirectory

/-- The directory with a text at names. -/
def put (d : Directory) (names : List String) (text : String) : Directory :=
  if (d.files.lookup names).isSome then
    ⟨d.files.map fun (file, old) => (file, if file == names then text else old)⟩
  else ⟨d.files ++ [(names, text)]⟩

/-- The directory after a file is written. -/
def write (d : Directory) (path text : String) : Except FileFault Directory := do
  match ← d.follow path with
  | .directory | .name _ _ true => throw .isDirectory
  | .name place name false =>
    match d.look place name with
    | .ok .directory => throw .isDirectory
    | .ok (.file _) | .error .missing =>
      return place.elim d fun names => d.put (names ++ [name]) text
    | .error fault => throw fault

/-- The host of a directory in memory. -/
def host : Host (StateM Directory) where
  read path := return (← get).read path
  write path text := do
    match (← get).write path text with
    | .ok d =>
      set d
      return .ok ()
    | .error e => return .error e

/-- The files of a directory, by path, that are new or changed since an earlier state of it. -/
def changedSince (d before : Directory) : List (String × String) :=
  (d.files.filter fun (file, text) => before.files.lookup file != some text).map
    fun (file, text) => (String.intercalate "/" file, text)

end Directory

end WireSchema
