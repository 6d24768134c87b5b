import WireSchema.Codec.Expression
import WireSchema.Directory
import WireSchema.Main
import WireSchema.Proofs.SchemaCompatibility
import WireSchema.Proofs.Codec.Recall
import WireSchema.Proofs.PassEnds
import WireSchema.Proofs.Window
import WireSchema.Proofs.Nesting
import WireSchema.Proofs.Restriction
import WireSchema.Proofs.SchemaRecall
import WireSchema.Proofs.Raising
import WireSchema.Proofs.Names
import WireSchema.Proofs.Unchanged
import WireSchema.Proofs.RegistrationOrder
import WireSchema.Proofs.Persistence
import WireSchema.Proofs.History
import WireSchema.Proofs.Redeclaration
import WireSchema.Proofs.SchemaReproduction
import WireSchema.Proofs.SnapshotIdentity
import WireSchema.Proofs.Shape
import WireSchema.Proofs.Truncation
import WireSchema.Proofs.Cycles
import WireSchema.Proofs.LeastVersions
import WireSchema.Proofs.ChangeLog
import WireSchema.Proofs.Repetition
import WireSchema.IndexedBuilder
import WireSchema.Proofs.Index
import WireSchema.Proofs.IndexedBuilder
import WireSchema.Proofs.ItemCount
import WireSchema.Proofs.FrameQueue
import WireSchema.Proofs.Primitive.FixedWidth
import WireSchema.Proofs.Primitive.Order
import WireSchema.Proofs.Primitive.Address
import WireSchema.Proofs.Primitive.Json
import WireSchema.Proofs.Primitive.Hex
import WireSchema.Proofs.CodecNames
import WireSchema.Proofs.MemberNames
import WireSchema.Proofs.Aliases
import WireSchema.Proofs.Flags
import WireSchema.Proofs.NameCapture
import WireSchema.Proofs.Primitive.Compact
