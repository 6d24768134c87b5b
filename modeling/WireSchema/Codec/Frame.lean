import WireSchema.Codec.Varint

/-!
# Frames

A framed value stands behind its length in bytes.  Reading cannot leave the frame, and what the
payload's reader does not take is passed over.
-/

namespace WireSchema

namespace Codec

/-- The length of a payload: the next recorded one, or else a measured one. -/
def frameLength (c : Codec) (v : Value) : CursorM Nat := do
  match ← CursorM.takeFrame with
  | some length => return length
  | none => CursorM.ofExcept (c.measure v)

/-- Runs a step with the limit set, and sets the limit back however the step ends. -/
def within {α : Type} (limit : Nat) (step : CursorM α) : CursorM α := fun c =>
  let (result, after) := step.runFrom { c with limit := limit }
  (result, { after with limit := c.limit })

/-- The codec of values behind their length. -/
def frame (c : Codec) : Codec where
  reserve v := do
    let slot ← CursorM.openFrame
    let before := (← get).limit
    c.reserve v
    let length := (← get).limit - before
    CursorM.closeFrame slot length
    Varint.reserve length
  write v := do
    let length ← c.frameLength v
    Varint.write length
    let before := (← get).pos
    c.write v
    let written := (← get).pos - before
    if written = length then pure () else throw (.frameMismatch length written)
  read := do
    let length ← Varint.read
    let cursor ← get
    let frameEnd := cursor.pos + length
    if frameEnd ≤ cursor.limit then
      let v ← within frameEnd c.read
      modify fun c => { c with pos := frameEnd }
      return v
    else throw .unexpectedEnd

end Codec

end WireSchema
