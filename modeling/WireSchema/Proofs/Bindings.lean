import WireSchema.Proofs.TypeCodec

/-!
# Bound codecs only add

A type that is left to a binding cannot be read until a codec is bound.  So whatever is read without
external codecs is read the same with any of them (`parse_typeCodec_bound`): a reader that does not
come to an external type does not depend on what is bound to it.
-/

namespace WireSchema

namespace CursorM

variable {α β : Type}

/-- Where the first step succeeds, the second does the same. -/
def Below (x y : CursorM α) : Prop :=
  ∀ c a d, x.runFrom c = (.ok a, d) → y.runFrom c = (.ok a, d)

theorem Below.refl (x : CursorM α) : Below x x := fun _ _ _ h => h

theorem below_throw (e : CodecError) (x : CursorM α) : Below (throw e) x := by
  intro c a d h
  cases h

theorem Below.bind {x y : CursorM α} {f g : α → CursorM β} (h : Below x y)
    (hf : ∀ a, Below (f a) (g a)) : Below (x >>= f) (y >>= g) := by
  intro c b d hrun
  rcases hx : x.runFrom c with ⟨e | a, d'⟩
  · rw [runFrom_bind_error hx] at hrun
    cases hrun
  · rw [runFrom_bind_ok hx] at hrun
    rw [runFrom_bind_ok (h c a d' hx)]
    exact hf a d' b d hrun

theorem Below.parse {x y : CursorM α} (h : Below x y) {w : Bytes} {a : α} {k : Nat}
    (hp : x.parse w = .ok (a, k)) : y.parse w = .ok (a, k) := by
  unfold CursorM.parse at hp ⊢
  rcases hx : x.runFrom (Cursor.ofBytes w) with ⟨e | b, d⟩
  · rw [hx] at hp
    cases hp
  · rw [hx] at hp
    cases hp
    rw [h _ _ _ hx]

end CursorM

open CursorM

/-! ## Codecs of parts -/

namespace Codec

variable {c c' : Codec}

theorem below_within (limit : Nat) (h : Below c.read c'.read) :
    Below (within limit c.read) (within limit c'.read) := by
  intro d v d' hrun
  rw [runFrom_within] at hrun ⊢
  rcases hr : c.read.runFrom { d with limit := limit } with ⟨e | u, after⟩
  · rw [hr] at hrun
    cases hrun
  · rw [hr] at hrun
    rw [h _ _ _ hr]
    exact hrun

theorem below_frame (h : Below c.read c'.read) : Below c.frame.read c'.frame.read := by
  refine (Below.refl _).bind fun length => (Below.refl _).bind fun cursor => ?_
  dsimp only
  split
  · exact (below_within _ h).bind fun v => .refl _
  · exact .refl _

theorem below_readItems (h : Below c.read c'.read) (scarce : Bool) (count : Nat) :
    Below (c.readItems scarce count) (c'.readItems scarce count) := by
  induction count with
  | zero => exact .refl _
  | succ count ih =>
    rw [readItems_succ, readItems_succ]
    refine (Below.refl _).bind fun before => h.bind fun v => (Below.refl _).bind fun after => ?_
    dsimp only
    split
    · exact .refl _
    · exact ih.bind fun rest => .refl _

theorem below_sequence (h : Below c.read c'.read) : Below c.sequence.read c'.sequence.read :=
  (Below.refl _).bind fun count => (Below.refl _).bind fun _ =>
    (below_readItems h _ count).bind fun _ => .refl _

theorem below_member (h : Below c.read c'.read) (framed array : Bool) :
    Below (c.member framed array).read (c'.member framed array).read := by
  have helement : Below (if framed then c.frame else c).read
      (if framed then c'.frame else c').read := by
    split
    · exact below_frame h
    · exact h
  cases array with
  | false => exact helement
  | true => exact below_sequence helement

theorem below_tagged {fqn : String} {entries : List VersionEntry}
    {payload payload' : VersionEntry → Codec} {migration : String → Option (Value → Value)}
    (h : ∀ e, Below (payload e).read (payload' e).read) :
    Below (tagged fqn entries payload migration).read
      (tagged fqn entries payload' migration).read :=
  (Below.refl _).bind fun _ => (Below.refl _).bind fun e => (h e).bind fun _ => .refl _

end Codec

namespace RecordLayout

variable {l : RecordLayout} {member member' : FieldStep → Codec}

theorem below_readField (h : ∀ s, Below (member s).read (member' s).read) (s : FieldStep)
    (flags : Nat) (fields : Fields) :
    Below (readField member s flags fields) (readField member' s flags fields) := by
  unfold readField
  split
  · exact .refl _
  · split
    · exact (h s).bind fun v => .refl _
    · exact .refl _

theorem below_readSteps (h : ∀ s, Below (member s).read (member' s).read) (i flags : Nat)
    (fields : Fields) (steps : List FieldStep) :
    Below (l.readSteps member i flags fields steps) (l.readSteps member' i flags fields steps) := by
  induction steps generalizing i flags fields with
  | nil => exact .refl _
  | cons s rest ih =>
    rw [readSteps_cons, readSteps_cons]
    refine (Below.refl _).bind fun known => ?_
    cases known with
    | none => exact .refl _
    | some flags => exact (below_readField h s flags fields).bind fun fields => ih _ _ _

theorem below_record (h : ∀ s, Below (member s).read (member' s).read) :
    Below (l.codec member).read (l.codec member').read :=
  (below_readSteps h 0 0 l.defaults l.steps).bind fun _ => .refl _

end RecordLayout

/-! ## Types -/

/-- The bindings without external codecs. -/
def Bindings.unbound (b : Bindings) : Bindings := { b with externals := [] }

namespace TypeTable

variable (t : TypeTable) (b : Bindings)

theorem isClosed_unbound (name : String) : t.IsClosed b.unbound name := fun _ _ _ _ => rfl

theorem below_layer {child child' : String → Codec}
    (h : ∀ name, Below (child name).read (child' name).read) (name : String) :
    Below (t.codecLayer b.unbound child name).read (t.codecLayer b child' name).read := by
  cases hr : t.resolve? name with
  | none =>
    rw [layer_unknown hr, layer_unknown hr]
    exact .refl _
  | some target =>
    cases target with
    | primitive p =>
      rw [layer_primitive hr, layer_primitive hr]
      exact .refl _
    | declared d =>
      cases hb : d.body with
      | «alias» target =>
        rw [layer_alias hr hb, layer_alias hr hb]
        exact h target
      | enum e =>
        rw [layer_enum hr hb, layer_enum hr hb]
        exact .refl _
      | struct s =>
        rw [layer_struct hr hb, layer_struct hr hb]
        exact RecordLayout.below_record fun step => Codec.below_member (h step.typeName) _ _
      | array element =>
        rw [layer_array hr hb, layer_array hr hb]
        exact Codec.below_member (h element) _ _
      | versioned entries =>
        rw [layer_versioned hr hb, layer_versioned hr hb]
        exact Codec.below_tagged fun e => h e.typeName
      | external symbol =>
        rw [layer_unbound hr (t.isClosed_unbound b name) hb]
        exact below_throw _ _

theorem below_codecWithin (n : Nat) (name : String) :
    Below (t.codecWithin b.unbound n name).read (t.codecWithin b n name).read := by
  induction n generalizing name with
  | zero => exact .refl _
  | succ n ih => exact t.below_layer b ih name

/-- What is read without external codecs is read the same with them. -/
theorem parse_typeCodec_bound {name : String} {w : Bytes} {v : Value} {k : Nat}
    (h : (t.typeCodec b.unbound name).read.parse w = .ok (v, k)) :
    (t.typeCodec b name).read.parse w = .ok (v, k) := by
  have hbelow : Below (t.typeCodec b.unbound name).read (t.typeCodec b name).read :=
    (Below.refl _).bind fun _ => t.below_codecWithin b _ name
  exact hbelow.parse h

end TypeTable

end WireSchema
