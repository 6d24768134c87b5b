import WireSchema.Schema.Error

/-!
# Attempts

Steps that read and change a state and may fail.  A step that fails leaves the state as it was when
it failed, with whatever was changed before: nothing is undone.
-/

namespace WireSchema

/-- Steps that change a state and may fail; what was changed before a failure stays changed. -/
abbrev Attempt (σ : Type) := ExceptT SchemaError (StateM σ)

namespace Attempt

variable {σ α : Type}

/-- Runs an attempt from a state: what it gives, and the state that it leaves either way. -/
def runFrom (x : Attempt σ α) (s : σ) : Except SchemaError α × σ := (ExceptT.run x).run s

/-- The state that an attempt leaves, whether it succeeds or fails. -/
def leaves (x : Attempt σ α) (s : σ) : σ := (x.runFrom s).2

/-- What an attempt gives with the state after it; where it fails the state is dropped. -/
def result (x : Attempt σ α) (s : σ) : Except SchemaError (α × σ) :=
  match x.runFrom s with
  | (.ok a, s') => .ok (a, s')
  | (.error e, _) => .error e

/-- The state after an attempt that succeeds. -/
def next (x : Attempt σ α) (s : σ) : Except SchemaError σ := (x.result s).map (·.2)

/-- A check that changes nothing. -/
def check : Except SchemaError α → Attempt σ α
  | .ok a => pure a
  | .error e => throw e

end Attempt

end WireSchema
