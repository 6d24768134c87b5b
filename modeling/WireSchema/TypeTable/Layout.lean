import WireSchema.Codec.Record
import WireSchema.Schema.Error
import WireSchema.TypeTable.Basic

/-!
# Layouts of structs

The optional fields take the bits of the flags in order, and what each field's type resolves to
decides how the field is written.
-/

namespace WireSchema

namespace StructBody

/-- The fields with their bits, the next free bit being the given one.  The bits are numbers without
a bound; in a word of 64 bits they are `wordFlags`, which agree as long as the word has room. -/
def assignFlags : Nat → List Field → List (Field × Nat)
  | _, [] => []
  | bit, f :: rest =>
    if f.required then (f, 0) :: assignFlags bit rest
    else (f, 1 <<< bit) :: assignFlags (bit + 1) rest

/-- The bits of fields as words, the next free bit being the given one.  A bit that is shifted out
of the word is lost. -/
def wordFlags : UInt64 → List Field → List UInt64
  | _, [] => []
  | bit, f :: rest =>
    if f.required then 0 :: wordFlags bit rest else bit :: wordFlags (bit <<< 1) rest

end StructBody

namespace TypeTable

/-- How a field with the given bit is written. -/
def fieldStep (t : TypeTable) (f : Field) (flag : Nat) : FieldStep where
  name := f.name
  typeName := f.typeName
  flag := flag
  optional := !f.required
  flagOnly := !f.array && t.isBool f.typeName
  array := f.array
  framed := t.isFrameable f.typeName
  default := if f.array then .null else t.defaultValue f.typeName

/-- How a struct is written. -/
def layout (t : TypeTable) (fqn : String) (s : StructBody) : RecordLayout where
  fqn := fqn
  steps := (StructBody.assignFlags 0 s.fields).map fun (f, flag) => t.fieldStep f flag
  flagsPosition := s.flagsPosition

/-- Fails at the first struct with a required field whose type ends in bool: the field would
always read as false. -/
def checkRequiredBools (t : TypeTable) : Except SchemaError Unit :=
  let faults := t.flatMap fun d =>
    match d.body with
    | .struct s =>
      (s.fields.filter fun f => f.required && !f.array && t.isBool f.typeName).map
        fun f => (d.fqn, f.name)
    | _ => []
  match faults.head? with
  | some (fqn, field) => .error (.requiredBool fqn field)
  | none => .ok ()

end TypeTable

end WireSchema
