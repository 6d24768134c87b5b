/-!
# Revisions

The version counter of one build.  A build starts at the version of the snapshot it replays, zero
for a fresh versioned schema and one for a fresh unversioned one.  The first change of the build
raises the version once, and all later changes share it.  While the snapshot is replayed nothing
counts as a change.
-/

namespace WireSchema

/-- The version counter of one build. -/
structure Revision where
  version : UInt32
  /-- Whether changes raise the version. -/
  versioned : Bool
  /-- Whether this build has changed anything. -/
  changed : Bool
  /-- Whether the snapshot is still being replayed. -/
  replaying : Bool
  deriving DecidableEq

namespace Revision

/-- The counter of a build on top of a snapshot. -/
def resume (version : UInt32) (versioned : Bool) : Revision := ⟨version, versioned, false, true⟩

/-- The counter of a build without a snapshot. -/
def fresh (versioned : Bool) : Revision := resume (if versioned then 0 else 1) versioned

/-- Ends the replay. -/
def finishReplay (r : Revision) : Revision := { r with replaying := false }

/-- Whether a change now raises the version. -/
def raises (r : Revision) : Bool := !r.changed && !r.replaying && r.versioned

/-- The counter after a change.  The version behind the greatest of 32 bits is zero, as it is where
arithmetic is not checked; a build with checked arithmetic stops there instead. -/
def bump (r : Revision) : Revision :=
  if r.changed || r.replaying then r
  else { r with changed := true, version := if r.versioned then r.version + 1 else r.version }

/-- The version as it is displayed. -/
def display (r : Revision) : String := "v" ++ toString r.version.toNat

end Revision

end WireSchema
