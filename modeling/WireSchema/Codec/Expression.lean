import WireSchema.Codec.Choice
import WireSchema.Codec.Frame
import WireSchema.Codec.Sequence

/-!
# Codec expressions

The codecs that are built from primitive kinds and choices by framing and sequencing.
-/

namespace WireSchema

/-- A codec built from primitive kinds and choices. -/
inductive CodecExpr where
  | primitive (p : Primitive)
  | choice (e : Choice)
  | frame (e : CodecExpr)
  | sequence (e : CodecExpr)
  deriving DecidableEq

/-- The codec an expression stands for. -/
def CodecExpr.codec : CodecExpr → Codec
  | .primitive p => p.codec
  | .choice e => e.codec
  | .frame e => e.codec.frame
  | .sequence e => e.codec.sequence

end WireSchema
