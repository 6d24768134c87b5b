import WireSchema.Bytes
import WireSchema.Codec.Error

/-!
# Cursors

A cursor stands in a buffer.  The measuring pass only moves the limit, `alloc` then makes a
buffer of that size, and the writing pass fills it from the position on.  Reading goes from the
position up to the limit, which frames narrow for a while.

Frame lengths found by the measuring pass are kept in the order in which the frames were opened,
and the writing pass takes them in that order.

A step that fails leaves the cursor where it stood when it failed.
-/

namespace WireSchema

/-- A position in a buffer, with the frame lengths that were measured. -/
structure Cursor where
  pos : Nat := 0
  limit : Nat := 0
  buffer : Bytes := []
  frames : List Nat := []
  nextFrame : Nat := 0
  deriving DecidableEq

/-- A step of a cursor: it may fail, and the cursor moves either way. -/
abbrev CursorM := ExceptT CodecError (StateM Cursor)

namespace Cursor

/-- A cursor at the start of a byte string. -/
def ofBytes (bytes : Bytes) : Cursor := { limit := bytes.length, buffer := bytes }

/-- The cursor at the start of a zeroed buffer of the measured size. -/
def alloc (c : Cursor) : Cursor :=
  { c with buffer := List.replicate c.limit 0, pos := 0, nextFrame := 0 }

/-- The number of bytes up to the limit. -/
def remaining (c : Cursor) : Nat := c.limit - c.pos

/-- Whether the position has reached the limit. -/
def isExhausted (c : Cursor) : Bool := decide (c.limit ≤ c.pos)

end Cursor

namespace CursorM

/-- Runs a step from a cursor. -/
def runFrom {α : Type} (step : CursorM α) (c : Cursor) : Except CodecError α × Cursor :=
  (ExceptT.run step).run c

/-- A step that moves nothing. -/
def ofExcept {α : Type} : Except CodecError α → CursorM α
  | .ok a => pure a
  | .error e => throw e

/-- Accounts for `n` more bytes. -/
def reserve (n : Nat) : CursorM Unit := modify fun c => { c with limit := c.limit + n }

/-- Writes bytes at the position, or fails when the buffer has no room for all of them. -/
def write (bytes : Bytes) : CursorM Unit := do
  let c ← get
  let next := c.pos + bytes.length
  if next ≤ c.buffer.length then
    set { c with buffer := c.buffer.take c.pos ++ bytes ++ c.buffer.drop next, pos := next }
  else throw .unexpectedEnd

/-- Writes pieces one after the other. -/
def writeAll : List Bytes → CursorM Unit
  | [] => pure ()
  | piece :: rest => do
    write piece
    writeAll rest

/-- Reads `n` bytes, or fails when fewer are left before the limit. -/
def read (n : Nat) : CursorM Bytes := do
  let c ← get
  let next := c.pos + n
  if next ≤ c.limit ∧ next ≤ c.buffer.length then
    set { c with pos := next }
    return (c.buffer.drop c.pos).take n
  else throw .unexpectedEnd

/-- Reads one byte as a number. -/
def readByte : CursorM Nat := do
  return ofLE (← read 1)

/-- Opens a frame whose length is not known yet, and gives its place among the lengths. -/
def openFrame : CursorM Nat := do
  let c ← get
  set { c with frames := c.frames ++ [0] }
  return c.frames.length

/-- Records the length of an opened frame. -/
def closeFrame (slot length : Nat) : CursorM Unit :=
  modify fun c => { c with frames := c.frames.set slot length }

/-- The next recorded frame length, if any is left. -/
def takeFrame : CursorM (Option Nat) := do
  let c ← get
  match c.frames[c.nextFrame]? with
  | some length =>
    set { c with nextFrame := c.nextFrame + 1 }
    return some length
  | none => return none

end CursorM

end WireSchema
