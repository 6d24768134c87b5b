import WireSchema.Codec.Frame
import WireSchema.Codec.Sequence

/-!
# Records

A record is written field by field.  Optional fields that are absent are left out, and one flags
integer that stands before the field at the flags position says which are present.  A bool field
is never written: its value is its bit in the flags.

Reading a record that ends where its flags would stand gives every further field its default, so
the reader of a newer record accepts an older one.
-/

namespace WireSchema

/-- How one field is written and read. -/
structure FieldStep where
  name : String
  typeName : String
  /-- The bit in the flags; zero for a required field. -/
  flag : Nat
  optional : Bool
  /-- Whether the flag alone carries the value. -/
  flagOnly : Bool
  array : Bool
  /-- Whether the payload, or each element of an array, is framed. -/
  framed : Bool
  /-- The value of a field that is not on the wire. -/
  default : Value

/-- Whether the payload of a field is written under the given flags. -/
def FieldStep.isWritten (s : FieldStep) (flags : Nat) : Bool :=
  !s.flagOnly && (!s.optional || decide (flags &&& s.flag ≠ 0))

/-- How the fields of a record are written and read. -/
structure RecordLayout where
  fqn : String
  steps : List FieldStep
  /-- The index of the step that the flags stand before; the number of steps for after the last. -/
  flagsPosition : Option Nat

namespace RecordLayout

/-- The flags of a value: the bits of the optional fields that are set. -/
def flags (l : RecordLayout) (fields : Fields) : Nat :=
  (l.steps.filter (·.optional)).foldl
    (fun acc s => acc ||| Fields.flag fields s.name s.flag s.flagOnly) 0

/-- Fails at the first required field among the steps that is absent. -/
def requireAll (l : RecordLayout) (fields : Fields) : List FieldStep → Except CodecError Unit
  | [] => .ok ()
  | s :: rest => do
    if s.optional then pure () else Fields.require fields l.fqn s.name
    requireAll l fields rest

/-- Every field at its default. -/
def defaults (l : RecordLayout) : Fields := Assoc.ofList (l.steps.map fun s => (s.name, s.default))

/-- Goes through the steps with the flags at their position. -/
def putSteps (position : Option Nat) (putFlags : CursorM Unit) (put : FieldStep → CursorM Unit) :
    Nat → List FieldStep → CursorM Unit
  | i, [] => if position = some i then putFlags else pure ()
  | i, s :: rest => do
    if position = some i then putFlags else pure ()
    put s
    putSteps position putFlags put (i + 1) rest

/-- Reads the flags where they stand, and keeps the known ones elsewhere.  There are none when the
input ends at their position. -/
def flagsAt (l : RecordLayout) (i known : Nat) : CursorM (Option Nat) := do
  if l.flagsPosition = some i then
    if (← get).isExhausted then return none else return some (← Varint.read)
  else return some known

/-- Reads one field into a value. -/
def readField (member : FieldStep → Codec) (s : FieldStep) (flags : Nat) (fields : Fields) :
    CursorM Fields :=
  if s.flagOnly then pure (Assoc.insert s.name (.bool (decide (flags &&& s.flag ≠ 0))) fields)
  else if s.isWritten flags then do
    let v ← (member s).read
    return Assoc.insert s.name v fields
  else pure fields

/-- Reads the steps from an index on into a value. -/
def readSteps (l : RecordLayout) (member : FieldStep → Codec) :
    Nat → Nat → Fields → List FieldStep → CursorM Fields
  | i, flags, fields, [] => do
    let _ ← l.flagsAt i flags
    return fields
  | i, flags, fields, s :: rest => do
    match ← l.flagsAt i flags with
    | none => return fields
    | some flags =>
      let fields ← readField member s flags fields
      readSteps l member (i + 1) flags fields rest

/-- Measures or writes a value: `putFlags` takes the flags, and `put` each written field with its
value. -/
def putValue (l : RecordLayout) (putFlags : Nat → CursorM Unit)
    (put : FieldStep → Value → CursorM Unit) (v : Value) : CursorM Unit := do
  let fields ← CursorM.ofExcept v.toFields
  CursorM.ofExcept (l.requireAll fields l.steps)
  let flags := l.flags fields
  putSteps l.flagsPosition (putFlags flags)
    (fun s => if s.isWritten flags then put s (Fields.get fields s.name) else pure ()) 0 l.steps

/-- The codec of a record, given the codecs of its fields. -/
def codec (l : RecordLayout) (member : FieldStep → Codec) : Codec where
  reserve := l.putValue Varint.reserve fun s v => (member s).reserve v
  write := l.putValue Varint.write fun s v => (member s).write v
  read := do return .struct (← l.readSteps member 0 0 l.defaults l.steps)

end RecordLayout

/-- The codec of a field or of the elements of an array: framed, then as a sequence. -/
def Codec.member (c : Codec) (framed array : Bool) : Codec :=
  let element := if framed then c.frame else c
  if array then element.sequence else element

end WireSchema
