import Mathlib.Logic.Relation
import WireSchema.Proofs.RoundTrip
import WireSchema.Proofs.Upgrade

/-!
# Old bytes, new table

What a table has written and reads is read by a table that extends it, to the same end and as the
upgraded value (`follows_of_yields`), as long as no struct that is written without a frame gains
flags. Where the outermost struct of a value gains them, a zero behind its bytes is read as well
(`parse_gained`).
-/

namespace WireSchema

open CursorM

/-! ## Sizes of values -/

namespace Value

mutual

/-- The number of values that a value is made of. -/
def size : Value → Nat
  | .array items => sizeItems items + 1
  | .struct fields => sizeFields fields + 1
  | _ => 1

/-- The size of the items together. -/
def sizeItems : List Value → Nat
  | [] => 0
  | v :: rest => v.size + sizeItems rest

/-- The size of the fields together. -/
def sizeFields : List (String × Value) → Nat
  | [] => 0
  | (_, v) :: rest => v.size + sizeFields rest

end

theorem size_pos (v : Value) : 0 < v.size := by
  cases v <;> simp [size]

theorem size_le_sizeItems {v : Value} {items : List Value} (h : v ∈ items) :
    v.size ≤ sizeItems items := by
  induction items with
  | nil => cases h
  | cons x rest ih =>
    rw [sizeItems]
    rcases List.mem_cons.mp h with rfl | h
    · omega
    · have := ih h
      omega

theorem length_le_sizeItems (items : List Value) : items.length ≤ sizeItems items := by
  induction items with
  | nil => exact Nat.le_refl 0
  | cons v rest ih =>
    have := v.size_pos
    rw [List.length_cons, sizeItems]
    omega

theorem length_lt_size {v : Value} {items : List Value} (h : v.toItems = .ok items) :
    items.length < v.size := by
  cases v with
  | array items' =>
    cases h
    rw [size]
    exact Nat.lt_succ_of_le (length_le_sizeItems items)
  | _ => cases h

theorem Part.size_le {array : Bool} {v u : Value} (h : v.Part array u) : u.size ≤ v.size := by
  cases array with
  | false => rw [h.one]
  | true =>
    obtain ⟨items, hv, hu⟩ := h
    cases v with
    | array items' =>
      cases hv
      rw [size]
      exact Nat.le_succ_of_le (size_le_sizeItems hu)
    | _ => cases hv

theorem size_le_sizeFields {fields : Fields} {p : String × Value} (h : p ∈ fields) :
    p.2.size ≤ sizeFields fields := by
  induction fields with
  | nil => cases h
  | cons q rest ih =>
    rw [sizeFields]
    rcases List.mem_cons.mp h with rfl | h
    · omega
    · have := ih h
      omega

theorem size_get_le {v : Value} {fields : Fields} (h : v.toFields = .ok fields) (name : String) :
    (fields.get name).size ≤ v.size := by
  rw [Fields.get]
  cases hl : fields.lookup name with
  | none => exact v.size_pos
  | some u =>
    cases v with
    | struct fields' =>
      cases h
      rw [size]
      exact Nat.le_succ_of_le (size_le_sizeFields (mem_of_lookup hl))
    | _ => cases h

end Value

namespace TypeTable

theorem Passes.size_le {t : TypeTable} {framed framed' : Bool} {name child : String} {v u : Value}
    (h : t.Passes framed name v framed' child u) : u.size ≤ v.size := by
  cases h with
  | along _ => exact Nat.le_refl _
  | into h =>
    cases h with
    | item _ _ hu => exact hu.size_le
    | field _ _ hv _ hu => exact Nat.le_trans hu.size_le (Value.size_get_le hv _)

end TypeTable

/-! ## Members -/

namespace Codec

variable {writer c c' : Codec} {up : Value → Value} {framed : Bool} {v : Value}

/-- What a writer yields for a value is read by the second codec as the first reads it, up to a
change. -/
def Carries (framed : Bool) (writer c c' : Codec) (up : Value → Value) (v : Value) : Prop :=
  ∀ bytes : Bytes, bytes.Fits → writer.Yields v bytes → Follows framed c c' up bytes

theorem carries_frame (hw : writer.Regular) (hc : Confined c.read) (hc' : Confined c'.read)
    (h : Carries true writer c c' up v) : Carries false writer.frame c.frame c'.frame up v := by
  intro bytes hfits hy
  obtain ⟨x, rfl, hx⟩ := frame_yields_inv hw hy
  exact follows_frame hc hc' hfits.right (h x hfits.right hx)

theorem follows_of_yieldsItems {items : List Value} {bs : List Bytes}
    (h : YieldsItems writer items bs) (hfits : Bytes.Fits bs.flatten)
    (hc : ∀ u ∈ items, Carries false writer c c' up u) : ∀ x ∈ bs, Follows false c c' up x := by
  induction h with
  | nil => exact fun x hx => absurd hx List.not_mem_nil
  | @cons u b items bs head _ ih =>
    rw [List.flatten_cons] at hfits
    intro x hx
    rcases List.mem_cons.mp hx with rfl | hx
    · exact hc u List.mem_cons_self x hfits.left head
    · exact ih hfits.right (fun u' hu' => hc u' (List.mem_cons_of_mem _ hu')) x hx

theorem carries_sequence (hw : writer.Regular) (hc : Confined c.read) (hc' : Confined c'.read)
    (hsize : v.size < 0x10000000000000000)
    (h : ∀ u, v.Part true u → Carries false writer c c' up u) :
    Carries false writer.sequence c.sequence c'.sequence (Value.mapItems up) v := by
  intro bytes hfits hy
  obtain ⟨items, bs, hv, rfl, hbs⟩ := sequence_yields_inv hw hy
  have hitems := follows_of_yieldsItems hbs hfits.right fun u hu => h u (.of_item hv hu)
  have hcount : bs.length < 0x10000000000000000 := by
    rw [← hbs.length_eq]
    exact Nat.lt_trans (Value.length_lt_size hv) hsize
  rw [hbs.length_eq]
  exact follows_sequence hc hc' hcount hitems

/-- A field, or an array field item by item, is carried when its type is. -/
theorem carries_member (hw : writer.Regular) (hc : Confined c.read) (hc' : Confined c'.read)
    (hsize : v.size < 0x10000000000000000) {array : Bool}
    (h : ∀ u, v.Part array u → Carries framed writer c c' up u) :
    Carries false (writer.member framed array) (c.member framed array) (c'.member framed array)
      (Value.mapPart array up) v := by
  have helement (u : Value) (hu : v.Part array u) :
      Carries false (if framed then writer.frame else writer) (if framed then c.frame else c)
        (if framed then c'.frame else c') up u := by
    cases framed with
    | false => exact h u hu
    | true => exact carries_frame hw hc hc' (h u hu)
  cases array with
  | false => exact helement v rfl
  | true =>
    have hregular := regular_member hw framed false
    exact carries_sequence hregular (confined_member hc framed false)
      (confined_member hc' framed false) hsize helement

end Codec

namespace TypeTable

variable {t t' : TypeTable} {b b' : Bindings}

/-! ## Revised tables -/

/-- No struct has two fields of one name. -/
def DistinctFields (t : TypeTable) : Prop := ∀ d ∈ t, ∀ s ∈ d.body.struct?, s.Distinct

instance (t : TypeTable) : Decidable t.DistinctFields :=
  inferInstanceAs (Decidable (∀ d ∈ t, ∀ s ∈ d.body.struct?, s.Distinct))

/-- Every field that a struct gains in another table is optional. -/
def AddsOptional (t t' : TypeTable) : Prop :=
  ∀ d ∈ t, ∀ s ∈ d.body.struct?, ∀ s' ∈ t'.struct? d.fqn, ∀ f ∈ s.added s', f.required = false

instance (t t' : TypeTable) : Decidable (t.AddsOptional t') :=
  inferInstanceAs (Decidable (∀ d ∈ t, ∀ s ∈ d.body.struct?, ∀ s' ∈ t'.struct? d.fqn,
    ∀ f ∈ s.added s', f.required = false))

/-- The type does not go from no flags to flags. -/
def Steady (t t' : TypeTable) (name : String) : Prop :=
  ∀ s ∈ t.struct? name, ∀ s' ∈ t'.struct? name, s.flagsPosition = none → s'.flagsPosition = none

instance (t t' : TypeTable) (name : String) : Decidable (t.Steady t' name) :=
  inferInstanceAs (Decidable (∀ s ∈ t.struct? name, ∀ s' ∈ t'.struct? name,
    s.flagsPosition = none → s'.flagsPosition = none))

/-- A table extends another, and all that it adds to structs is optional. -/
structure Evolves (t t' : TypeTable) : Prop where
  sound : t.Sound
  sound' : t'.Sound
  grown : t.Extends t'
  distinct : t'.DistinctFields
  optional : t.AddsOptional t'

/-- What has become of a declaration of the table. -/
theorem Evolves.declared (h : t.Evolves t') {name : String} {d : Declaration} {body : Body}
    (hd : t.resolve? name = some (.declared d)) (hb : d.body = body) :
    ∃ d', t'.resolve? name = some (.declared d') ∧ d'.fqn = d.fqn ∧ body.Extends d'.body := by
  obtain ⟨d', hd', hdecl⟩ := h.grown.resolve? h.sound'.wellFormed hd
  exact ⟨d', hd', hdecl.fqn, hb ▸ hdecl.body⟩

/-- A struct of the table and what has become of it: its layout with further steps, of the fields
that it has gained. -/
theorem Evolves.struct (h : t.Evolves t') {name : String} {d : Declaration} {s : StructBody}
    (hd : t.resolve? name = some (.declared d)) (hb : d.body = .struct s) :
    ∃ d' s' extra, t'.resolve? name = some (.declared d') ∧ d'.body = .struct s' ∧ s.Distinct ∧
      (t.layout d.fqn s).Sound ∧ (t'.layout d'.fqn s').Sound ∧
      RecordLayout.Grows (t.layout d.fqn s) (t'.layout d'.fqn s') extra ∧
      (extra.map fun step => (step.name, step.default)) = t'.gainedFields name s := by
  obtain ⟨d', hd', -, hbody⟩ := h.declared hd hb
  obtain ⟨s', hb', hs⟩ := hbody.of_struct
  obtain ⟨hmem, rfl⟩ := mem_of_resolve? hd
  obtain ⟨hmem', -⟩ := mem_of_resolve? hd'
  have hstruct' := struct?_eq_some.mpr ⟨d', hd', hb'⟩
  have hdistinct' := h.distinct d' hmem' s' (Body.struct?_eq_some.mpr hb')
  have hdistinct : s.Distinct := by
    have hnames : s.fields.map (·.name) <+: s'.fields.map (·.name) := by
      have := hs.fields.map FieldShape.name
      rwa [StructBody.shapes, StructBody.shapes, List.map_map, List.map_map] at this
    exact hnames.sublist.nodup hdistinct'
  obtain ⟨extra, hgrows, hextra⟩ := layout_grows h.sound h.sound' h.grown hd hd' hb hb' hs
    (h.optional d hmem s (Body.struct?_eq_some.mpr hb) s' hstruct')
  refine ⟨d', s', extra, hd', hb', hdistinct, layout_sound h.sound hmem hb hdistinct,
    layout_sound h.sound' hmem' hb' hdistinct', hgrows, ?_⟩
  rw [hextra, gainedFields, hstruct']

/-! ## Structs -/

section Fields

variable {name : String} {d : Declaration} {s : StructBody}

theorem mem_refNames_of_step (hb : d.body = .struct s) {step : FieldStep}
    (hstep : step ∈ (t.layout d.fqn s).steps) : step.typeName ∈ d.refNames := by
  obtain ⟨f, hf, flag, rfl⟩ := mem_steps hstep
  exact Declaration.mem_refNames_of_field hb hf

/-- The fields that a struct has written are followed one by one when what they hold is carried. -/
theorem Evolves.forall₂_fields (h : t.Evolves t') (hd : t.resolve? name = some (.declared d))
    (hb : d.body = .struct s) {writer reader reader' : String → Codec}
    (hw : ∀ c ∈ d.refNames, (writer c).Regular) (hc : ∀ c ∈ d.refNames, Confined (reader c).read)
    (hc' : ∀ c ∈ d.refNames, Confined (reader' c).read) {v : Value}
    (hsize : v.size < 0x10000000000000000)
    (hpassed : ∀ framed c u, t.Enters name v framed c u →
      Codec.Carries framed (writer c) (reader c) (reader' c) (t.upgrade t' c) u)
    {bytes : Bytes} (hfits : bytes.Fits)
    (hy : ((t.layout d.fqn s).codec (stepCodec writer)).Yields v bytes) :
    ∃ fields bs, bytes = RecordLayout.stepBytes (t.layout d.fqn s).flagsPosition
        ((t.layout d.fqn s).flags fields) 0 bs ∧
      List.Forall₂ (RecordLayout.FollowsStep (stepCodec reader) (stepCodec reader')
        (upgradeField (t.upgrade t') s) ((t.layout d.fqn s).flags fields))
        (t.layout d.fqn s).steps bs := by
  obtain ⟨-, -, -, -, -, hdistinct, -⟩ := h.struct hd hb
  obtain ⟨fields, bs, hv, -, rfl, hbs⟩ := RecordLayout.record_yields_inv
    (fun step hstep => Codec.regular_member (hw _ (mem_refNames_of_step hb hstep)) _ _) hy
  refine ⟨fields, bs, rfl, RecordLayout.forall₂_of_yields hbs
    (fun x hx => hfits.of_le (RecordLayout.length_le_stepBytes _ _ 0 hx)) ?_⟩
  intro step hstep x hx hyx
  obtain ⟨f, hf, flag, rfl⟩ := mem_steps hstep
  have href := Declaration.mem_refNames_of_field hb hf
  have hname : upgradeField (t.upgrade t') s (t.fieldStep f flag).name =
      Value.mapPart f.array (t.upgrade t' f.typeName) := upgradeField_eq hdistinct hf _
  rw [hname]
  exact Codec.carries_member (hw _ href) (hc _ href) (hc' _ href)
    (Nat.lt_of_le_of_lt (Value.size_get_le hv f.name) hsize)
    (fun u hu => hpassed _ _ u (.field hd hb hv hf hu)) x hx hyx

/-- A struct is carried when what its fields hold is, and it gains no flags without a frame. -/
theorem Evolves.carries_struct (h : t.Evolves t') (hd : t.resolve? name = some (.declared d))
    (hb : d.body = .struct s) {writer reader reader' : String → Codec}
    (hw : ∀ c ∈ d.refNames, (writer c).Regular) (hc : ∀ c ∈ d.refNames, Confined (reader c).read)
    (hc' : ∀ c, Confined (reader' c).read) {framed : Bool}
    (hsteady : framed = false → t.Steady t' name) {v : Value} (hsize : v.size < 0x10000000000000000)
    (hpassed : ∀ framed c u, t.Enters name v framed c u →
      Codec.Carries framed (writer c) (reader c) (reader' c) (t.upgrade t' c) u) :
    Codec.Carries framed (t.codecLayer b writer name) (t.codecLayer b reader name)
      (t'.codecLayer b' reader' name) (t.upgradeLayer t' (t.upgrade t') name) v := by
  obtain ⟨d', s', extra, hd', hb', hdistinct, hl, hl', hgrows, hextra⟩ := h.struct hd hb
  rw [layer_struct hd hb, layer_struct hd hb, layer_struct hd' hb', upgradeLayer_struct hd hb,
    ← hextra]
  intro bytes hfits hy
  obtain ⟨fields, bs, rfl, hf⟩ := h.forall₂_fields hd hb hw hc (fun c _ => hc' c) hsize hpassed
    hfits hy
  refine RecordLayout.follows_record hgrows hl hl' (fun hframed => ?_)
    (fun step hstep => Codec.confined_member (hc _ (mem_refNames_of_step hb hstep)) _ _)
    (fun step _ => Codec.confined_member (hc' _) _ _) (fun step hstep w => ?_) hf
  · rcases hgrows.position with heq | ⟨hnone, -⟩
    · exact heq
    · exact (hsteady hframed s (struct?_eq_some.mpr ⟨d, hd, hb⟩) s'
        (struct?_eq_some.mpr ⟨d', hd', hb'⟩) hnone).trans hnone.symm
  · obtain ⟨f, hfield, flag, rfl⟩ := mem_steps hstep
    exact upgradeField_heldValue hdistinct hfield _ flag w

end Fields

/-! ## Types -/

section Layer

variable {framed : Bool} {name : String} {v : Value} {writer : String → Codec}

/-- A layer is carried when what it passes on is, and a struct that is not framed gains no flags. -/
theorem carries_layer (h : t.Evolves t') (hself : t.Portable name)
    (hw : ∀ d c, t.resolve? name = some (.declared d) → c ∈ d.refNames → (writer c).Regular)
    (hconf : ∀ d c, t.resolve? name = some (.declared d) → c ∈ d.refNames →
      Confined (t.typeCodec b c).read)
    (hclosed : ∀ other, t'.IsClosed b' other) (hsteady : framed = false → t.Steady t' name)
    (hsize : v.size < 0x10000000000000000)
    (hpassed : ∀ framed' c u, t.Passes framed name v framed' c u →
      Codec.Carries framed' (writer c) (t.typeCodec b c) (t'.typeCodec b' c) (t.upgrade t' c) u) :
    Codec.Carries framed (t.codecLayer b writer name) (t.codecLayer b (t.typeCodec b) name)
      (t'.codecLayer b' (t'.typeCodec b') name) (t.upgradeLayer t' (t.upgrade t') name) v := by
  have hconf' (c : String) : Confined (t'.typeCodec b' c).read :=
    confined_typeCodec fun other _ => hclosed other
  cases hr : t.resolve? name with
  | none =>
    rw [layer_unknown hr]
    exact fun _ _ hy => ((barren_throw _).not_yields hy).elim
  | some target =>
    cases target with
    | primitive p =>
      simp only [Portable, hr] at hself
      rw [layer_primitive hr, layer_primitive hr, upgradeLayer_primitive hr,
        layer_primitive (resolve?_eq_primitive.mpr (resolve?_eq_primitive.mp hr))]
      exact fun bytes hfits hy => (Primitive.follows_primitive hself hy hfits).at_end
    | declared d =>
      cases hb : d.body with
      | «alias» target =>
        obtain ⟨d', hr', -, hbody⟩ := h.declared hr hb
        rw [layer_alias hr hb, layer_alias hr hb, layer_alias hr' hbody.of_alias,
          upgradeLayer_alias hr hb]
        exact hpassed framed target v (.along (.target hr hb))
      | enum e =>
        obtain ⟨d', hr', -, hbody⟩ := h.declared hr hb
        obtain ⟨e', hb', hoffset, hstrings, hkeys⟩ := hbody.of_enum
        rw [layer_enum hr hb, layer_enum hr hb, layer_enum hr' hb', upgradeLayer_enum hr hb]
        exact fun bytes hfits hy =>
          (Choice.follows_choice hstrings hoffset hkeys hy hfits).at_end
      | struct s =>
        exact h.carries_struct hr hb (hw d · hr) (hconf d · hr) hconf' hsteady hsize
          fun framed' c u hu => hpassed framed' c u (.into hu)
      | array element =>
        obtain ⟨d', hr', -, hbody⟩ := h.declared hr hb
        have href := Declaration.mem_refNames_array hb
        rw [layer_array hr hb, layer_array hr hb, layer_array hr' hbody.of_array,
          upgradeLayer_array hr hb,
          isFrameable_extends h.sound h.sound' h.grown (h.sound.resolves hr href)]
        exact fun bytes hfits hy => (Codec.carries_member (hw d _ hr href) (hconf d _ hr href)
          (hconf' element) hsize (fun u hu => hpassed _ _ u (.into (.item hr hb hu)))
          bytes hfits hy).at_end
      | versioned entries =>
        obtain ⟨d', hr', hfqn, hbody⟩ := h.declared hr hb
        obtain ⟨more, hb'⟩ := hbody.of_versioned
        simp only [Portable, hr, hb] at hself
        intro bytes hfits hy
        rw [layer_versioned hr hb] at hy
        obtain ⟨e, x, he, rfl, hx⟩ := Codec.tagged_yields_inv
          (fun e he => hw d _ hr (Declaration.mem_refNames_of_entry hb he)) hy
        rw [layer_versioned hr hb, layer_versioned hr' hb', upgradeLayer_versioned hr hb he,
          hfqn]
        exact Codec.follows_tagged
          (fun e he => hconf d _ hr (Declaration.mem_refNames_of_entry hb he))
          (fun e _ => hconf' e.typeName) (h.sound.ascending (mem_of_resolve? hr).1 hb)
          (Codec.latestEntry_mem he) (hself e he)
          (hpassed framed e.typeName v (.along (.latest hr hb he)) x hfits.right hx)
      | external symbol => exact absurd hb (hself.not_external hr)

/-- What a table has written and reads is read by a table that extends it, to the same end and as
the upgraded value, unless a struct that is not framed gains flags. -/
theorem follows_of_yields (h : t.Evolves t') (hclosed : ∀ other, t'.IsClosed b' other) {n : Nat}
    (hT : t.Throughout t.Portable name)
    (hsteady : ∀ other u, t.Visits framed name v false other u → t.Steady t' other)
    (hsize : v.size < 0x10000000000000000) :
    Codec.Carries framed (t.codecWithin b n name) (t.typeCodec b name) (t'.typeCodec b' name)
      (t.upgrade t' name) v := by
  induction n generalizing framed name v with
  | zero => exact fun _ _ hy => ((barren_throw _).not_yields hy).elim
  | succ n ih =>
    have hlayer := carries_layer (b := b) h hT.here
      (fun d c hd hc => regular_codecWithin (hT.closed.child hd hc) n)
      (fun d c hd hc => confined_typeCodec (hT.closed.child hd hc)) hclosed
      (fun hframed => hsteady name v (hframed ▸ .here framed name v)) hsize
      (fun framed' c u hp => ih (hT.passes hp) (fun other x hx => hsteady other x (.step hp hx))
        (Nat.lt_of_le_of_lt hp.size_le hsize))
    intro bytes hfits hy rest hrest w k hp
    rw [parse_typeCodec h.sound.finite hT.closed] at hp
    rw [parse_typeCodec h.sound'.finite fun other _ => hclosed other,
      upgrade_eq h.sound.finite]
    exact hlayer bytes hfits hy rest hrest w k hp

end Layer

/-! ## Outermost structs -/

section Outermost

open Relation

variable {name : String} {v : Value}

/-- Writing a value comes to a type inside the outermost struct or array of the value, and without a
frame of its own. -/
def Embeds (t : TypeTable) (name : String) (v : Value) (other : String) : Prop :=
  ∃ head framed c x u, ReflTransGen t.Forwards name head ∧ t.Enters head v framed c x ∧
    t.Visits framed c x false other u

theorem Embeds.forwards {child other : String} (hf : t.Forwards name child)
    (h : t.Embeds child v other) : t.Embeds name v other := by
  obtain ⟨head, f, c, x, u, hlead, henter, hvisit⟩ := h
  exact ⟨head, f, c, x, u, .head hf hlead, henter, hvisit⟩

/-- What writing a value comes to without a frame is what the value is written as, or embedded in
it. -/
theorem Visits.forwards_or_embeds {framed framed' : Bool} {other : String} {u : Value}
    (h : t.Visits framed name v framed' other u) (hframed : framed' = false) :
    ReflTransGen t.Forwards name other ∨ t.Embeds name v other := by
  induction h with
  | here => exact .inl .refl
  | @step framed framed₁ framed' name child other v x u hp hrest ih =>
    cases hp with
    | along hforward =>
      rcases ih hframed with hlead | hembed
      · exact .inl (.head hforward hlead)
      · exact .inr (hembed.forwards hforward)
    | into henter => exact .inr ⟨name, framed₁, child, x, u, .refl, henter, hframed ▸ hrest⟩

/-- What holds throughout the types of all fields and elements holds of all that is embedded. -/
theorem Embeds.of_members {P : String → Prop} {other : String} (h : t.Embeds name v other)
    (hP : ∀ d ∈ t, d.kind = .struct ∨ d.kind = .array → ∀ c ∈ d.refNames, t.Throughout P c) :
    P other := by
  obtain ⟨head, framed, c, x, u, -, henter, hvisit⟩ := h
  cases henter with
  | item hd hb _ =>
    exact hP _ (mem_of_resolve? hd).1 (.inr (congrArg Body.kind hb)) c
      (Declaration.mem_refNames_array hb) other hvisit.reaches
  | field hd hb _ hf _ =>
    exact hP _ (mem_of_resolve? hd).1 (.inl (congrArg Body.kind hb)) _
      (Declaration.mem_refNames_of_field hb hf) other hvisit.reaches

/-- What is inside the outermost struct is carried when nothing embedded there gains flags. -/
theorem carries_inside (h : t.Evolves t') (hclosed : ∀ other, t'.IsClosed b' other) {n : Nat}
    (hT : t.Throughout t.Portable name)
    (hinside : ∀ other, t.Embeds name v other → t.Steady t' other)
    (hsize : v.size < 0x10000000000000000) {framed : Bool} {c : String} {u : Value}
    (henter : t.Enters name v framed c u) :
    Codec.Carries framed (t.codecWithin b n c) (t.typeCodec b c) (t'.typeCodec b' c)
      (t.upgrade t' c) u := by
  have hpasses : t.Passes false name v framed c u := .into henter
  exact follows_of_yields h hclosed (hT.passes hpasses)
    (fun other x hx => hinside other ⟨name, framed, c, u, x, .refl, henter, hx⟩)
    (Nat.lt_of_le_of_lt hpasses.size_le hsize)

/-- A struct that gains flags reads a zero behind its bytes as well. -/
theorem parse_gained_struct (h : t.Evolves t') (hclosed : ∀ other, t'.IsClosed b' other) {n : Nat}
    (hT : t.Throughout t.Portable name) (hgain : ¬ t.Steady t' name)
    (hinside : ∀ other, t.Embeds name v other → t.Steady t' other)
    (hsize : v.size < 0x10000000000000000) {bytes : Bytes} (hfits : bytes.Fits)
    (hy : (t.codecWithin b (n + 1) name).Yields v bytes) {w : Value} {k : Nat}
    (hp : (t.typeCodec b name).read.parse (bytes ++ [0]) = .ok (w, k)) :
    ∃ w', (t'.typeCodec b' name).read.parse (bytes ++ [0]) = .ok (w', bytes.length + 1) := by
  simp only [Steady, not_forall] at hgain
  obtain ⟨s, hs, s', hs', hnone, hsome⟩ := hgain
  obtain ⟨d, hr, hb⟩ := struct?_eq_some.mp hs
  obtain ⟨d', s'', extra, hr', hb', -, hl, hl', hgrows, -⟩ := h.struct hr hb
  obtain rfl : s' = s'' :=
    Option.some.inj (hs'.symm.trans (struct?_eq_some.mpr ⟨d', hr', hb'⟩))
  have hchild {c : String} (hc : c ∈ d.refNames) : t.Throughout (t.IsClosed b) c :=
    hT.closed.child hr hc
  have hconf' (c : String) : Confined (t'.typeCodec b' c).read :=
    confined_typeCodec fun other _ => hclosed other
  rw [codecWithin_succ, layer_struct hr hb] at hy
  obtain ⟨fields, bs, rfl, hf⟩ := h.forall₂_fields hr hb
    (fun c hc => regular_codecWithin (hchild hc) n) (fun c hc => confined_typeCodec (hchild hc))
    (fun c _ => hconf' c) hsize (fun _ _ _ => carries_inside h hclosed hT hinside hsize) hfits hy
  rw [parse_typeCodec h.sound.finite hT.closed, layer_struct hr hb] at hp
  rw [parse_typeCodec h.sound'.finite fun other _ => hclosed other, layer_struct hr' hb']
  have hposition : (t'.layout d'.fqn s').flagsPosition = some (t.layout d.fqn s).steps.length := by
    rcases hgrows.position with heq | ⟨-, hset⟩
    · exact absurd (heq.trans hnone) hsome
    · exact hset
  exact RecordLayout.parse_record_gained hgrows hl hl' hnone hposition
    (fun step hstep => Codec.confined_member
      (confined_typeCodec (hchild (mem_refNames_of_step hb hstep))) _ _)
    (fun step _ => Codec.confined_member (hconf' _) _ _) hf hp

/-- What is passed along whole reads a zero behind its bytes when the type that it is passed to
does. -/
theorem parse_gained_step (h : t.Evolves t') (hclosed : ∀ other, t'.IsClosed b' other)
    {child : String} (hstep : t.Forwards name child) (hT : t.Throughout t.Portable name) {n : Nat}
    {bytes : Bytes} (hfits : bytes.Fits) (hy : (t.codecWithin b (n + 1) name).Yields v bytes)
    {w : Value} {k : Nat} (hp : (t.typeCodec b name).read.parse (bytes ++ [0]) = .ok (w, k))
    (hchild : ∀ x : Bytes, x.Fits → (t.codecWithin b n child).Yields v x →
      ∀ j, (t.typeCodec b child).read.parse (x ++ [0]) = .ok (w, j) →
        ∃ w', (t'.typeCodec b' child).read.parse (x ++ [0]) = .ok (w', x.length + 1)) :
    ∃ w', (t'.typeCodec b' name).read.parse (bytes ++ [0]) = .ok (w', bytes.length + 1) := by
  rw [parse_typeCodec h.sound.finite hT.closed] at hp
  rw [parse_typeCodec h.sound'.finite fun other _ => hclosed other]
  rw [codecWithin_succ] at hy
  cases hstep with
  | target hr hb =>
    obtain ⟨d', hr', -, hbody⟩ := h.declared hr hb
    rw [layer_alias hr hb] at hy hp
    rw [layer_alias hr' hbody.of_alias]
    exact hchild bytes hfits hy k hp
  | @latest d entries e hr hb he =>
    obtain ⟨d', hr', hfqn, hbody⟩ := h.declared hr hb
    obtain ⟨more, hb'⟩ := hbody.of_versioned
    have hself := hT.here
    simp only [Portable, hr, hb] at hself
    have href {e : VersionEntry} (he : e ∈ entries) : t.Throughout (t.IsClosed b) e.typeName :=
      hT.closed.child hr (Declaration.mem_refNames_of_entry hb he)
    have hentry : Codec.entryOfTag d.fqn entries e.version.toNat = .ok e :=
      Codec.entryOfTag_of_mem (h.sound.ascending (mem_of_resolve? hr).1 hb)
        (Codec.latestEntry_mem he)
    rw [layer_versioned hr hb] at hy hp
    obtain ⟨e', x, he', rfl, hx⟩ := Codec.tagged_yields_inv
      (fun e he => regular_codecWithin (href he) n) hy
    obtain rfl : e = e' := Except.ok.inj (he.symm.trans he')
    rw [List.append_assoc, Codec.parse_tagged_append
      (fun e he => confined_typeCodec (href he)) hentry (hself e he)] at hp
    obtain ⟨j, hread, -⟩ := shift_eq_ok hp
    obtain ⟨w', hw'⟩ := hchild x hfits.right hx j hread
    rw [layer_versioned hr' hb', hfqn, List.append_assoc, Codec.parse_tagged_append
      (fun e _ => confined_typeCodec fun other _ => hclosed other)
      (Codec.entryOfTag_append hentry) (hself e he), hw', shift_ok, List.length_append,
      Nat.add_assoc]
    exact ⟨w', rfl⟩

/-- Where the outermost struct of a value gains flags, a zero behind the bytes is read as well. -/
theorem parse_gained (h : t.Evolves t') (hclosed : ∀ other, t'.IsClosed b' other) {other : String}
    (hlead : ReflTransGen t.Forwards name other) (hgain : ¬ t.Steady t' other)
    (hT : t.Throughout t.Portable name)
    (hinside : ∀ other, t.Embeds name v other → t.Steady t' other)
    (hsize : v.size < 0x10000000000000000) {n : Nat} {bytes : Bytes} (hfits : bytes.Fits)
    (hy : (t.codecWithin b n name).Yields v bytes) {w : Value} {k : Nat}
    (hp : (t.typeCodec b name).read.parse (bytes ++ [0]) = .ok (w, k)) :
    ∃ w', (t'.typeCodec b' name).read.parse (bytes ++ [0]) = .ok (w', bytes.length + 1) := by
  cases n with
  | zero => exact ((barren_throw _).not_yields hy).elim
  | succ n =>
    induction hlead using ReflTransGen.head_induction_on generalizing n bytes k with
    | refl => exact parse_gained_struct h hclosed hT hgain hinside hsize hfits hy hp
    | @head name child hstep _ ih =>
      refine parse_gained_step h hclosed hstep hT hfits hy hp fun x hx hyx j hpx => ?_
      have hpasses : t.Passes false name v false child v := .along hstep
      cases n with
      | zero => exact ((barren_throw _).not_yields hyx).elim
      | succ n =>
        exact ih (hT.passes hpasses) (fun other ho => hinside other (ho.forwards hstep)) hx hpx n
          hyx

end Outermost

end TypeTable

end WireSchema
