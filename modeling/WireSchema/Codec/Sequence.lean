import WireSchema.Codec.Varint

/-!
# Sequences

A list of values of one type stands behind its length.  Elements that take no bytes are bounded
by the input like any others: when more elements are announced than bytes are left, an element
that takes none ends the reading.
-/

namespace WireSchema

namespace Codec

/-- Accounts for items one after the other. -/
def reserveItems (c : Codec) : List Value → CursorM Unit
  | [] => pure ()
  | v :: rest => do
    c.reserve v
    reserveItems c rest

/-- Writes items one after the other. -/
def writeItems (c : Codec) : List Value → CursorM Unit
  | [] => pure ()
  | v :: rest => do
    c.write v
    writeItems c rest

section Reading

variable {m : Type → Type} [Monad m] [MonadLiftT CursorM m]

/-- Reads a number of items, each by the given step.  With `scarce` an item that takes no bytes is a
fault. -/
def itemsBy (step : m Value) (scarce : Bool) : Nat → m (List Value)
  | 0 => pure []
  | count + 1 => do
    let before := (← (get : CursorM Cursor)).pos
    let v ← step
    let after := (← (get : CursorM Cursor)).pos
    if after = before ∧ scarce = true then (throw .unexpectedEnd : CursorM (List Value))
    else
      let rest ← itemsBy step scarce count
      return v :: rest

/-- Reads a list behind its length, each item by the given step. -/
def listBy (step : m Value) : m Value := do
  let count ← Varint.read
  let available := (← (get : CursorM Cursor)).remaining
  return .array (← itemsBy step (decide (available < count)) count)

end Reading

/-- The codec of lists of values. -/
def sequence (c : Codec) : Codec where
  reserve v := do
    let items ← CursorM.ofExcept v.toItems
    Varint.reserve items.length
    c.reserveItems items
  write v := do
    let items ← CursorM.ofExcept v.toItems
    Varint.write items.length
    c.writeItems items
  read := listBy c.read

end Codec

end WireSchema
