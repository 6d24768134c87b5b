import WireSchema.Assoc
import WireSchema.Settings.Value

/-!
# Paths of settings

A name at the root of a layer may be a path into tables and lists, such as `output.format` or
`build[0]`.  A value that is laid over a path makes the tables and lists on its way, and takes the
place of anything else that stands there.  Names count without regard to case.
-/

namespace WireSchema

namespace Setting

/-- A step of a path. -/
inductive Step where
  /-- Into a table. -/
  | name (name : String)
  /-- Into a list; a negative place counts from its end. -/
  | place (index : Int)
  deriving DecidableEq

/-! ## Reading paths -/

/-- The characters of names on a path. -/
def isNameChar (c : Char) : Bool := c.isAlphanum || c == '_' || c == '-' || c == ' '

/-- A name of a path, and the text after it. -/
def pathName? (text : List Char) : Option (Step × List Char) :=
  let name := text.takeWhile isNameChar
  if name.isEmpty then none
  else some (.name (String.ofList name).toLower, text.drop name.length)

/-- Drops blanks. -/
def dropBlanks (text : List Char) : List Char := text.dropWhile fun c => c == ' ' || c == '\t'

/-- A place of a path after its opening bracket, and the text after the closing one. -/
def pathPlace? (text : List Char) : Option (Step × List Char) := do
  let (negative, rest) := match dropBlanks text with
    | '-' :: rest => (true, rest)
    | rest => (false, rest)
  let digits := rest.takeWhile Char.isDigit
  if digits.isEmpty then none
  let n : Int := Double.digitsNat digits
  let index := if negative then -n else n
  if index < -0x8000000000000000 ∨ 0x8000000000000000 ≤ index then none
  match dropBlanks (rest.drop digits.length) with
  | ']' :: rest => return (.place index, rest)
  | _ => none

/-- The steps of a path after its first name. -/
def moreSteps? : Nat → List Char → Option (List Step)
  | _, [] => some []
  | 0, _ => none
  | fuel + 1, c :: rest => do
    let (step, rest) ← if c == '.' then pathName? rest
      else if c == '[' then pathPlace? rest
      else none
    return step :: (← moreSteps? fuel rest)

/-- The steps of a path: a name, then names after points and places in brackets. -/
def steps? (path : String) : Option (List Step) := do
  let (first, rest) ← pathName? path.toList
  return first :: (← moreSteps? rest.length rest)

/-- The path that a name at the root stands for: its steps if it has them, else the name as it
is. -/
def pathOf (name : String) : List Step := (steps? name).getD [.name name.toLower]

/-! ## Laying values over values -/

mutual

/-- The entries with a value laid over a name: tables are joined, anything else is replaced. -/
def overlay (entries : List (String × Setting)) (name : String) :
    Setting → List (String × Setting)
  | .table incoming =>
    let target := (entries.lookup name.toLower).getD (.table [])
    Assoc.insert name.toLower (overlayAll target incoming) entries
  | v => Assoc.insert name.toLower v entries

/-- A value with entries laid over it one after the other. -/
def overlayAll (target : Setting) : List (String × Setting) → Setting
  | [] => target
  | (name, v) :: rest => overlayAll (.table (overlay target.entries name v)) rest

end

/-- The list with the item at a place changed; gaps fill the way to it. -/
def changeAt (f : Setting → Setting) (index : Int) (items : List Setting) : List Setting :=
  let position : Int := if index < 0 then items.length + index else index
  if position < 0 then f .gap :: (List.replicate (position.natAbs - 1) .gap ++ items)
  else
    let n := position.toNat
    (items ++ List.replicate (n + 1 - items.length) Setting.gap).modify n f

/-- A value with another laid over one step into it. -/
def lay (v : Setting) : Step → Setting → Setting
  | .name name, target => .table (overlay target.entries name v)
  | .place index, target => .list (changeAt (fun _ => v) index target.items)

/-- A value with another laid over a path into it. -/
def layPath (v : Setting) : List Step → Setting → Setting
  | [], target => target
  | [step], target => lay v step target
  | .name name :: path, target =>
    let inner := (target.entries.lookup name).getD .gap
    .table (Assoc.insert name (layPath v path inner) target.entries)
  | .place index :: path, target => .list (changeAt (layPath v path) index target.items)

/-- The root table with a layer laid over it. -/
def addLayer (root : Setting) (layer : List (String × Setting)) : Setting :=
  layer.foldl (fun root (name, v) => layPath v (pathOf name) root) root

end Setting

end WireSchema
