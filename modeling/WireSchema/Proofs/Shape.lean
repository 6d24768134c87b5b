import WireSchema.Proofs.Primitive.Shape
import WireSchema.Proofs.SchemaCompatibility
import WireSchema.Proofs.Reproduction

/-!
# Shapes of values

Reading is type sound on all bytes, also on those that no value is written as: what is read as a
type has the shape of the type (`Schema.hasShape_of_decode`).  A struct has a value under each of
its declared names and under no other, and a field that was not read has its default.
-/

namespace WireSchema

/-- Not external, and without a migration. -/
def Body.Unmigrated : Body → Prop
  | .external _ => False
  | .versioned entries => ∀ e ∈ entries, e.map = none
  | .alias _ | .enum _ | .struct _ | .array _ => True

instance : (body : Body) → Decidable body.Unmigrated
  | .external _ => isFalse id
  | .versioned entries => inferInstanceAs (Decidable (∀ e ∈ entries, e.map = none))
  | .alias _ | .enum _ | .struct _ | .array _ => isTrue trivial

namespace TypeTable

variable {t : TypeTable}

mutual

/-- The values that a type is read as. -/
inductive HasShape (t : TypeTable) : String → Value → Prop
  | primitive {name : String} {p : Primitive} {v : Value}
      (hr : t.resolve? name = some (.primitive p)) (h : p.HasShape v) : HasShape t name v
  | target {name : String} {d : Declaration} {target : String} {v : Value}
      (hr : t.resolve? name = some (.declared d)) (hb : d.body = .alias target)
      (h : HasShape t target v) : HasShape t name v
  | key {name : String} {d : Declaration} {e : EnumBody} {key : String}
      (hr : t.resolve? name = some (.declared d)) (hb : d.body = .enum e) (h : key ∈ e.keys) :
      HasShape t name (.string key)
  | items {name : String} {d : Declaration} {element : String} {items : List Value}
      (hr : t.resolve? name = some (.declared d)) (hb : d.body = .array element)
      (h : ∀ u ∈ items, HasShape t element u) : HasShape t name (.array items)
  | entry {name : String} {d : Declaration} {entries : List VersionEntry} {e : VersionEntry}
      {v : Value} (hr : t.resolve? name = some (.declared d)) (hb : d.body = .versioned entries)
      (he : e ∈ entries) (h : HasShape t e.typeName v) : HasShape t name v
  | fields {name : String} {d : Declaration} {s : StructBody} {fields : Fields}
      (hr : t.resolve? name = some (.declared d)) (hb : d.body = .struct s)
      (hsorted : Assoc.Sorted fields)
      (hkeys : ∀ key, (fields.lookup key).isSome = true ↔ key ∈ s.fields.map (·.name))
      (h : ∀ f ∈ s.fields, HasFieldShape t f (fields.get f.name)) :
      HasShape t name (.struct fields)

/-- The values that a field is read as: a bool, a value of its type or an array of such, or its
default. -/
inductive HasFieldShape (t : TypeTable) : Field → Value → Prop
  | flag {f : Field} (ha : f.array = false) (hb : t.isBool f.typeName = true) (b : Bool) :
      HasFieldShape t f (.bool b)
  | one {f : Field} {v : Value} (ha : f.array = false) (hb : t.isBool f.typeName = false)
      (h : HasShape t f.typeName v) : HasFieldShape t f v
  | many {f : Field} {items : List Value} (ha : f.array = true)
      (h : ∀ u ∈ items, HasShape t f.typeName u) : HasFieldShape t f (.array items)
  | absent {f : Field} (h : (!f.array && t.isBool f.typeName) = false) :
      HasFieldShape t f (t.absent f)

end

/-- The type is not external, and no entry of it names a migration. -/
def Unmigrated (t : TypeTable) (name : String) : Prop :=
  match t.resolve? name with
  | some (.declared d) => d.body.Unmigrated
  | _ => True

instance (t : TypeTable) (name : String) : Decidable (t.Unmigrated name) := by
  unfold Unmigrated
  exact match t.resolve? name with
    | some (.declared d) => inferInstanceAs (Decidable d.body.Unmigrated)
    | some (.primitive _) | none => isTrue trivial

open CursorM

/-! ## Structs -/

theorem hasFieldShape_default (t : TypeTable) (f : Field) : t.HasFieldShape f (t.absent f) := by
  by_cases hb : (!f.array && t.isBool f.typeName) = true
  · rw [Bool.and_eq_true, Bool.not_eq_true'] at hb
    rw [absent_of_isBool hb.1 hb.2]
    exact .flag hb.1 hb.2 false
  · exact .absent (by simpa using hb)

/-- What a member is read as is of the shape of its field. -/
theorem HasFieldShape.of_member {f : Field} (hb : (!f.array && t.isBool f.typeName) = false)
    {v : Value} (h : (if f.array then Codec.IsListOf (t.HasShape f.typeName)
      else t.HasShape f.typeName) v) : t.HasFieldShape f v := by
  cases ha : f.array with
  | false =>
    rw [ha] at h hb
    exact .one ha (by simpa using hb) h
  | true =>
    rw [ha] at h
    obtain ⟨items, rfl, hitems⟩ := h
    exact .many ha hitems

/-- A struct is read as its fields when what its fields refer to is. -/
theorem ensures_struct {child : String → Codec} {name : String} {d : Declaration} {s : StructBody}
    (hr : t.resolve? name = some (.declared d)) (hb : d.body = .struct s) (hs : s.Distinct)
    (hchild : ∀ c ∈ d.refNames, Ensures (child c).read (t.HasShape c)) :
    Ensures ((t.layout d.fqn s).codec (stepCodec child)).read (t.HasShape name) := by
  have hnames : (t.layout d.fqn s).steps.map (·.name) = s.fields.map (·.name) :=
    t.map_steps d.fqn s _ _ fun _ _ => rfl
  -- a step is asked for the shapes of all fields that it may be the step of
  let Q : FieldStep → Value → Prop := fun step v =>
    ∀ f ∈ s.fields, ∀ flag, step = t.fieldStep f flag → t.HasFieldShape f v
  have hrecord : Ensures ((t.layout d.fqn s).codec (stepCodec child)).read fun v =>
      ∃ fields, v = .struct fields ∧ (t.layout d.fqn s).Fills Q fields := by
    refine RecordLayout.ensures_record (hnames ▸ hs) ?_ ?_ ?_
    · rintro step - f - flag rfl
      exact t.hasFieldShape_default f
    · rintro step - honly b f - flag rfl
      have hbool : (!f.array && t.isBool f.typeName) = true := honly
      rw [Bool.and_eq_true, Bool.not_eq_true'] at hbool
      exact .flag hbool.1 hbool.2 b
    · intro step hstep honly
      obtain ⟨f, hf, flag, rfl⟩ := mem_steps hstep
      refine (Codec.ensures_member (hchild _ (Declaration.mem_refNames_of_field hb hf)) _ _).imp ?_
      rintro v hv f' hf' flag' heq
      obtain rfl : f = f' := List.inj_on_of_nodup_map hs hf hf' (congrArg FieldStep.name heq)
      exact .of_member honly hv
  refine hrecord.imp ?_
  rintro v ⟨fields, rfl, hfills⟩
  refine .fields hr hb hfills.sorted (hnames ▸ hfills.keys) fun f hf => ?_
  obtain ⟨flag, hstep⟩ := t.exists_step d.fqn hf
  have hsome := (hfills.keys f.name).mpr (List.mem_map.mpr ⟨_, hstep, rfl⟩)
  obtain ⟨v, hv⟩ := Option.isSome_iff_exists.mp hsome
  rw [Fields.get, hv]
  exact hfills.held _ hstep v hv f hf flag rfl

/-! ## Types -/

/-- A type is read as its shape when the types that it refers to are. -/
theorem ensures_layer (hdistinct : t.DistinctFields) {b : Bindings} {child : String → Codec}
    {name : String} (hself : t.Unmigrated name)
    (hchild : ∀ d c, t.resolve? name = some (.declared d) → c ∈ d.refNames →
      Ensures (child c).read (t.HasShape c)) :
    Ensures (t.codecLayer b child name).read (t.HasShape name) := by
  cases hr : t.resolve? name with
  | none =>
    rw [layer_unknown hr]
    exact ensures_throw _
  | some target =>
    cases target with
    | primitive p =>
      rw [layer_primitive hr]
      exact p.ensures_primitive.imp fun v hv => .primitive hr hv
    | declared d =>
      have hrefs {c : String} (hc : c ∈ d.refNames) := hchild d c hr hc
      simp only [Unmigrated, hr] at hself
      cases hb : d.body with
      | «alias» target =>
        rw [layer_alias hr hb]
        exact (hrefs (Declaration.mem_refNames_alias hb)).imp fun v hv => .target hr hb hv
      | enum e =>
        rw [layer_enum hr hb]
        refine (Choice.ensures_choice _).imp ?_
        rintro v ⟨key, hkey, rfl⟩
        exact .key hr hb hkey
      | struct s =>
        rw [layer_struct hr hb]
        exact ensures_struct hr hb
          (hdistinct d (mem_of_resolve? hr).1 s (Body.struct?_eq_some.mpr hb)) fun c hc => hrefs hc
      | array element =>
        rw [layer_array hr hb]
        refine (Codec.ensures_member (hrefs (Declaration.mem_refNames_array hb)) _ true).imp ?_
        rintro v ⟨items, rfl, hitems⟩
        exact .items hr hb hitems
      | versioned entries =>
        rw [layer_versioned hr hb]
        rw [hb] at hself
        have hentry (e : VersionEntry) (he : e ∈ entries) :
            Ensures (child e.typeName).read (t.HasShape name) :=
          (hrefs (Declaration.mem_refNames_of_entry hb he)).imp fun v hv => .entry hr hb he hv
        exact Codec.ensures_tagged hself hentry
      | external symbol =>
        rw [hb] at hself
        exact hself.elim

/-- Whatever the bytes, a value of a type has the shape of the type. -/
theorem ensures_codecWithin (hdistinct : t.DistinctFields) (b : Bindings) {name : String}
    (hT : t.Throughout t.Unmigrated name) (n : Nat) :
    Ensures (t.codecWithin b n name).read (t.HasShape name) := by
  induction n generalizing name with
  | zero => exact ensures_throw _
  | succ n ih =>
    rw [codecWithin_succ]
    exact ensures_layer hdistinct hT.here fun d c hd hc => ih (hT.child hd hc)

theorem ensures_typeCodec (hdistinct : t.DistinctFields) (b : Bindings) {name : String}
    (hT : t.Throughout t.Unmigrated name) :
    Ensures (t.typeCodec b name).read (t.HasShape name) :=
  ensures_bind (ensures_true _) fun _ _ => ensures_codecWithin hdistinct b hT _

end TypeTable

namespace Schema

/-- Decoding is type sound: from any bytes, also from those that were cut off or that nothing is
encoded as, a type is decoded only to values of its shape. -/
theorem hasShape_of_decode {s : Schema} (hdistinct : s.types.DistinctFields) {b : Bindings}
    {name : String} (hT : s.types.Throughout s.types.Unmigrated name) {bytes : Bytes} {v : Value}
    (h : s.decode b name bytes = .ok v) : s.types.HasShape name v := by
  obtain ⟨c, hc, hdecode⟩ := ok_of_bind h
  obtain rfl := codec?_eq_ok hc
  exact Codec.ensures_decode (TypeTable.ensures_typeCodec hdistinct b hT) hdecode

/-- A post whose bytes end before its flags and whose author takes more bytes than needed: the
fields that are not there have their defaults. -/
def forumStart : Value :=
  .struct [("by", .struct [("id", .uint 5)]), ("mood", .null), ("replies", .null)]

theorem hasShape_of_decode_forum :
    forum.decode {} "@a/post" [3, 253, 5, 0] = .ok forumStart ∧
      forum.types.HasShape "@a/post" forumStart := by
  have hdecode : forum.decode {} "@a/post" [3, 253, 5, 0] = .ok forumStart := by rfl
  have hclosed : forum.types.encloses forumTypes = true := by decide +kernel
  have hunmigrated : ∀ name ∈ forumTypes, forum.types.Unmigrated name := by decide +kernel
  exact ⟨hdecode, hasShape_of_decode (by decide +kernel)
    (TypeTable.throughout_of_encloses hclosed hunmigrated (by decide +kernel)) hdecode⟩

end Schema

end WireSchema
