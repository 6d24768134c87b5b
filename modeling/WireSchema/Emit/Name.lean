/-!
# Identifiers of emitted codecs

The words of a name joined with capital initials, and the choice of a free identifier by a
numeric suffix.
-/

namespace WireSchema

namespace Emit

/-- The characters that separate words. -/
def isSeparator (c : Char) : Bool :=
  c == '_' || c == '-' || c == '.' || c == ' ' || c == '@' || c == '/'

/-- Joins words with capital initials; characters that are neither separators nor ASCII letters
or digits are dropped. -/
def pascalChars : Bool → List Char → List Char
  | _, [] => []
  | capital, c :: rest =>
    if isSeparator c then pascalChars true rest
    else if !c.isAlphanum then pascalChars capital rest
    else (if capital then c.toUpper else c) :: pascalChars false rest

/-- A name with its words joined with capital initials. -/
def pascalCase (name : String) : String := String.ofList (pascalChars true name.toList)

/-- What an emitted module already means by a name. -/
def reserved : List String :=
  ["Array", "Codec", "CodecError", "EnumCodec", "Fields", "Frame", "Primitive", "Self", "State",
    "Value", "VERSION"]

/-- The identifier of a type before it is made free. -/
def baseName (ns name : String) : String :=
  let base := pascalCase ns ++ pascalCase name
  match base.toList with
  | c :: _ => if c.isAlpha then base else "T" ++ base
  | [] => "T"

/-- The first of `base ++ n`, `base ++ (n + 1)`, ... that is not taken; one of as many as are
taken and one more is free.  Suffixes are signed numbers of 32 bits, so fewer than `2 ^ 31`
declarations are assumed. -/
def freeSuffix (taken : List String) (base : String) : Nat → Nat → String
  | 0, n => base ++ toString n
  | fuel + 1, n =>
    let candidate := base ++ toString n
    if taken.contains candidate then freeSuffix taken base fuel (n + 1) else candidate

/-- The base itself when it is free, and else with the first free suffix from two on. -/
def freeName (taken : List String) (base : String) : String :=
  if taken.contains base then freeSuffix taken base taken.length 2 else base

/-- Free identifiers for base names in order, none of them taken before. -/
def assignNames : List String → List String → List String
  | _, [] => []
  | taken, base :: rest =>
    let name := freeName taken base
    name :: assignNames (name :: taken) rest

end Emit

end WireSchema
