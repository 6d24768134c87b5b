import WireSchema.Proofs.Json
import WireSchema.Proofs.WritingDepth

/-!
# Normal forms of values

Writing is lenient and reading is not: many values are written alike and read as one of them, their
normal form (`TypeTable.norm`).  It follows the declaration of the type: primitives and enums have
canonical variants, arrays are normal item by item, and a struct has every declared field.
-/

namespace WireSchema

namespace Value

/-- What is written for a value of a field: the value, or each of its items. -/
def Part (array : Bool) (v u : Value) : Prop :=
  if array then ∃ items, v.toItems = .ok items ∧ u ∈ items else u = v

theorem Part.one {v u : Value} (h : v.Part false u) : u = v := h

theorem Part.of_item {v u : Value} {items : List Value} (hv : v.toItems = .ok items)
    (hu : u ∈ items) : v.Part true u := ⟨items, hv, hu⟩

theorem Part.depth_le {array : Bool} {v u : Value} (h : v.Part array u) : u.depth ≤ v.depth := by
  cases array with
  | false => rw [h.one]
  | true =>
    obtain ⟨items, hv, hu⟩ := h
    exact Nat.le_of_lt (depth_lt_of_toItems hv hu)

/-- A function on a value of a field, or on each of its items. -/
def eachPart (array : Bool) (g : Value → Except CodecError Value) (v : Value) :
    Except CodecError Value :=
  if array then do return .array (← (← v.toItems).mapM g) else g v

theorem mapM_congr {g g' : Value → Except CodecError Value} {items : List Value}
    (h : ∀ u ∈ items, g u = g' u) : items.mapM g = items.mapM g' := by
  induction items with
  | nil => rfl
  | cons u rest ih =>
    rw [List.mapM_cons, List.mapM_cons, h u List.mem_cons_self,
      ih fun x hx => h x (List.mem_cons_of_mem _ hx)]

theorem eachPart_congr {array : Bool} {g g' : Value → Except CodecError Value} {v : Value}
    (h : ∀ u, v.Part array u → g u = g' u) : eachPart array g v = eachPart array g' v := by
  cases array with
  | false => exact h v rfl
  | true =>
    unfold eachPart
    cases hv : v.toItems with
    | error e => rfl
    | ok items =>
      rw [if_pos rfl, if_pos rfl, ok_bind, ok_bind, mapM_congr fun u hu => h u (.of_item hv hu)]

end Value

namespace TypeTable

variable {t : TypeTable}

/-- The normal form of what a struct holds under the name of a field: a truth value for a bool
field, the default when nothing is held. -/
def normField (t : TypeTable) (child : String → Value → Except CodecError Value) (f : Field)
    (v : Value) : Except CodecError Value :=
  if !f.array && t.isBool f.typeName then .ok (.bool v.isTrue)
  else if v.isPresent then Value.eachPart f.array (child f.typeName) v
  else .ok (if f.array then .null else t.defaultValue f.typeName)

/-- The normal forms of the fields of a struct, with their names. -/
def normFields (t : TypeTable) (child : String → Value → Except CodecError Value)
    (fields : Fields) : List Field → Except CodecError Fields
  | [] => .ok []
  | f :: rest => do
    let w ← t.normField child f (fields.get f.name)
    let ws ← normFields t child fields rest
    return (f.name, w) :: ws

/-- The normal form of a value of a type, given those of the types that it refers to. -/
def normLayer (t : TypeTable) (child : String → Value → Except CodecError Value) (name : String)
    (v : Value) : Except CodecError Value :=
  match t.resolve? name with
  | none => .error (.unknownType name)
  | some (.primitive p) => p.norm v
  | some (.declared d) =>
    match d.body with
    | .alias target => child target v
    | .enum e => Choice.norm ⟨d.fqn, e.keys, e.offset, e.strings⟩ v
    | .struct s => do
      let fields ← v.toFields
      return .struct (Assoc.ofList (← t.normFields child fields s.fields))
    | .array element => Value.eachPart true (child element) v
    | .versioned entries => do
      let e ← Codec.latestEntry d.fqn entries
      child e.typeName v
    | .external _ => .error (.unboundExternal d.fqn)

section Layer

variable {child : String → Value → Except CodecError Value} {name : String}

theorem normLayer_primitive {p : Primitive} (h : t.resolve? name = some (.primitive p)) :
    t.normLayer child name = p.norm := by
  funext v
  rw [normLayer, h]

variable {d : Declaration} (hd : t.resolve? name = some (.declared d))

include hd

theorem normLayer_alias {target : String} (h : d.body = .alias target) :
    t.normLayer child name = child target := by
  funext v
  simp only [normLayer, hd, h]

theorem normLayer_enum {e : EnumBody} (h : d.body = .enum e) :
    t.normLayer child name = Choice.norm ⟨d.fqn, e.keys, e.offset, e.strings⟩ := by
  funext v
  simp only [normLayer, hd, h]

theorem normLayer_struct {s : StructBody} (h : d.body = .struct s) :
    t.normLayer child name = (fun v => do
      let fields ← v.toFields
      return .struct (Assoc.ofList (← t.normFields child fields s.fields))) := by
  funext v
  simp only [normLayer, hd, h]

theorem normLayer_array {element : String} (h : d.body = .array element) :
    t.normLayer child name = Value.eachPart true (child element) := by
  funext v
  simp only [normLayer, hd, h]

theorem normLayer_versioned {entries : List VersionEntry} (h : d.body = .versioned entries) :
    t.normLayer child name = (fun v => do
      let e ← Codec.latestEntry d.fqn entries
      child e.typeName v) := by
  funext v
  simp only [normLayer, hd, h]

end Layer

/-- The normal form of a value of a type: what the value is read back as. -/
def norm (t : TypeTable) : String → Value → Except CodecError Value :=
  t.unrolled t.normLayer fun name _ => .error (.tooDeep name)

theorem normFields_congr {child child' : String → Value → Except CodecError Value}
    {fields : Fields} {fs : List Field}
    (h : ∀ f ∈ fs, ∀ u, (fields.get f.name).Part f.array u →
      child f.typeName u = child' f.typeName u) :
    t.normFields child fields fs = t.normFields child' fields fs := by
  induction fs with
  | nil => rfl
  | cons f rest ih =>
    rw [normFields, normFields, ih fun f' hf' => h f' (List.mem_cons_of_mem _ hf'), normField,
      normField, Value.eachPart_congr (h f List.mem_cons_self)]

theorem descends_normLayer (t : TypeTable) : t.Descends t.normLayer := by
  intro f g name v hneed hrest
  cases hr : t.resolve? name with
  | none => rw [normLayer, normLayer, hr]
  | some target =>
    cases target with
    | primitive p => rw [normLayer_primitive hr, normLayer_primitive hr]
    | declared d =>
      cases hb : d.body with
      | «alias» target =>
        rw [normLayer_alias hr hb, normLayer_alias hr hb]
        exact hneed d target hr (by simp [Declaration.needs, hb])
      | enum e => rw [normLayer_enum hr hb, normLayer_enum hr hb]
      | struct s =>
        rw [normLayer_struct hr hb, normLayer_struct hr hb]
        dsimp only
        cases hv : v.toFields with
        | error e => rfl
        | ok fields =>
          have hfields : t.normFields f fields s.fields = t.normFields g fields s.fields := by
            refine normFields_congr fun fd hf u hu => ?_
            have hlt := Value.depth_get_lt hv fd.name
            exact hrest d _ u hr (Declaration.mem_refNames_of_field hb hf)
              (Nat.lt_of_le_of_lt hu.depth_le hlt)
          rw [ok_bind, ok_bind, hfields]
      | array element =>
        rw [normLayer_array hr hb, normLayer_array hr hb]
        refine Value.eachPart_congr fun u hu => ?_
        obtain ⟨items, hv, hi⟩ := hu
        exact hrest d element u hr (Declaration.mem_refNames_array hb)
          (Value.depth_lt_of_toItems hv hi)
      | versioned entries =>
        rw [normLayer_versioned hr hb, normLayer_versioned hr hb]
        dsimp only
        cases he : Codec.latestEntry d.fqn entries with
        | error e => rfl
        | ok e =>
          refine hneed d e.typeName hr ?_
          rw [Declaration.needs, hb]
          exact List.mem_map.mpr ⟨e, Codec.latestEntry_mem he, rfl⟩
      | external symbol => simp only [normLayer, hr, hb]

theorem norm_eq (hfin : t.Finite) (name : String) (v : Value) :
    t.norm name v = t.normLayer t.norm name v := unrolled_eq hfin t.descends_normLayer name v

/-! ## Written values -/

/-- A value of a type is written as a value of another type: along an alias, and behind the tag of
the latest shape of a versioned type. -/
inductive Forwards (t : TypeTable) (name : String) : String → Prop
  | target {target : String} {d : Declaration} (hd : t.resolve? name = some (.declared d))
      (hb : d.body = .alias target) : Forwards t name target
  | latest {d : Declaration} {entries : List VersionEntry} {e : VersionEntry}
      (hd : t.resolve? name = some (.declared d)) (hb : d.body = .versioned entries)
      (he : Codec.latestEntry d.fqn entries = .ok e) : Forwards t name e.typeName

/-- Writing a value of a type goes into its items and fields.  The flag before a type says whether
its value stands alone in a frame; those of structs that may grow do. -/
inductive Enters (t : TypeTable) (name : String) (v : Value) : Bool → String → Value → Prop
  | item {element : String} {u : Value} {d : Declaration}
      (hd : t.resolve? name = some (.declared d)) (hb : d.body = .array element)
      (hu : v.Part true u) : Enters t name v (t.isFrameable element) element u
  | field {u : Value} {d : Declaration} {s : StructBody} {f : Field} {fields : Fields}
      (hd : t.resolve? name = some (.declared d)) (hb : d.body = .struct s)
      (hv : v.toFields = .ok fields) (hf : f ∈ s.fields) (hu : (fields.get f.name).Part f.array u) :
      Enters t name v (t.isFrameable f.typeName) f.typeName u

/-- Writing a value of a type passes a value to another type.  What is passed along whole reaches as
far as before. -/
inductive Passes (t : TypeTable) (framed : Bool) (name : String) (v : Value) :
    Bool → String → Value → Prop
  | along {child : String} (h : t.Forwards name child) : Passes t framed name v framed child v
  | into {framed' : Bool} {child : String} {u : Value} (h : t.Enters name v framed' child u) :
      Passes t framed name v framed' child u

/-- The types and values that writing a value comes to in any number of steps. -/
inductive Visits (t : TypeTable) : Bool → String → Value → Bool → String → Value → Prop
  | here (framed : Bool) (name : String) (v : Value) : Visits t framed name v framed name v
  | step {framed framed₁ framed' : Bool} {name child other : String} {v x u : Value}
      (h : t.Passes framed name v framed₁ child x)
      (hrest : Visits t framed₁ child x framed' other u) :
      Visits t framed name v framed' other u

section Passes

variable {framed framed' : Bool} {name child other : String} {v u : Value}

theorem Forwards.mem_needs (h : t.Forwards name child) :
    ∃ d, t.resolve? name = some (.declared d) ∧ child ∈ d.needs := by
  cases h with
  | target hd hb => exact ⟨_, hd, by simp [Declaration.needs, hb]⟩
  | @latest d entries e hd hb he =>
    refine ⟨_, hd, ?_⟩
    rw [Declaration.needs, hb]
    exact List.mem_map.mpr ⟨e, Codec.latestEntry_mem he, rfl⟩

theorem Enters.mem_refNames (h : t.Enters name v framed' child u) :
    ∃ d, t.resolve? name = some (.declared d) ∧ child ∈ d.refNames := by
  cases h with
  | item hd hb _ => exact ⟨_, hd, Declaration.mem_refNames_array hb⟩
  | field hd hb _ hf _ => exact ⟨_, hd, Declaration.mem_refNames_of_field hb hf⟩

theorem Enters.depth_lt (h : t.Enters name v framed' child u) : u.depth < v.depth := by
  cases h with
  | item _ _ hu =>
    obtain ⟨items, hv, hi⟩ := hu
    exact Value.depth_lt_of_toItems hv hi
  | field _ _ hv _ hu => exact Nat.lt_of_le_of_lt hu.depth_le (Value.depth_get_lt hv _)

theorem Passes.mem_refNames (h : t.Passes framed name v framed' child u) :
    ∃ d, t.resolve? name = some (.declared d) ∧ child ∈ d.refNames := by
  cases h with
  | along h =>
    obtain ⟨d, hd, hc⟩ := h.mem_needs
    exact ⟨d, hd, d.needs_subset_refNames hc⟩
  | into h => exact h.mem_refNames

/-- Passing a value on takes less depth. -/
theorem Passes.enough_lt (hfin : t.Finite) (h : t.Passes framed name v framed' child u) :
    t.enough child u.depth < t.enough name v.depth := by
  cases h with
  | along h =>
    obtain ⟨d, hd, hc⟩ := h.mem_needs
    exact enough_need hfin hd hc (Nat.le_refl _)
  | into h => exact TypeTable.enough_lt hfin _ _ h.depth_lt

theorem Throughout.passes {P : String → Prop} (hP : t.Throughout P name)
    (h : t.Passes framed name v framed' child u) : t.Throughout P child := by
  obtain ⟨d, hd, hc⟩ := h.mem_refNames
  exact hP.child hd hc

theorem Visits.reaches (h : t.Visits framed name v framed' other u) : t.Reaches name other := by
  induction h with
  | here => exact .refl _
  | step h _ ih =>
    obtain ⟨d, hd, hc⟩ := h.mem_refNames
    exact .step hd hc ih

/-- Every JSON payload in a value is free of floats and nests at most 127 deep. -/
def PlainJson (t : TypeTable) (framed : Bool) (name : String) (v : Value) : Prop :=
  ∀ framed' other u, t.Visits framed name v framed' other u →
    t.resolve? other = some (.primitive .json) → u.toJson.Plain ∧ u.toJson.depth ≤ 127

theorem PlainJson.passes (hj : t.PlainJson framed name v)
    (h : t.Passes framed name v framed' child u) : t.PlainJson framed' child u :=
  fun framed₁ other x hx => hj framed₁ other x (.step h hx)

/-- There is nothing to ask of JSON payloads where there are none. -/
theorem plainJson_of_unreached
    (h : t.Throughout (fun other => t.resolve? other ≠ some (.primitive .json)) name)
    (framed : Bool) (v : Value) : t.PlainJson framed name v :=
  fun _ other _ hv hjson => absurd hjson (h other hv.reaches)

end Passes

end TypeTable

end WireSchema
