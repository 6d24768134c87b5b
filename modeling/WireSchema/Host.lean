/-!
# Hosts

A host gives a program its files.  The program is written once over any host: one that lives in
memory, or the one of the operating system.
-/

namespace WireSchema

/-- Why a file could not be read or written. -/
inductive FileFault where
  | missing
  | isDirectory
  | notDirectory
  /-- A name or the whole path is too long. -/
  | tooLong
  /-- The path holds a character that no path can hold. -/
  | unusable
  | other (text : String)
  deriving DecidableEq

/-- The wording of a fault. -/
def FileFault.message : FileFault → String
  | .missing => "No such file or directory (os error 2)"
  | .isDirectory => "Is a directory (os error 21)"
  | .notDirectory => "Not a directory (os error 20)"
  | .tooLong => "File name too long (os error 36)"
  | .unusable => "file name contained an unexpected NUL byte"
  | .other text => text

/-- Reading and writing of files by path. -/
structure Host (m : Type → Type) where
  read : String → m (Except FileFault String)
  write : String → String → m (Except FileFault Unit)

end WireSchema
