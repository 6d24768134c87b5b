import WireSchema.Proofs.Codec.Truncation
import WireSchema.Proofs.SchemaCompatibility

/-!
# Bytes that end too soon

Where the bytes of a value end too soon, the reader asks for more, unless they end just where the
flags of a struct would begin.  `TypeTable.FlagsAt` says where in the bytes of a value the flags of
its structs begin, as far as these stand in no frame, and `prefix_of_flagsAt` that they do stand
there.  The main statement is `Schema.decode_take_of_encode`.
-/

namespace WireSchema

open CursorM Relation

namespace TypeTable

variable {t : TypeTable} {b : Bindings}

/-! ## Where flags begin -/

/-- The flags `n` of a struct that stands in no frame begin at an offset in the bytes of a value of
a type, or of an array of such values. -/
inductive FlagsAt (t : TypeTable) (b : Bindings) : Bool → String → Value → Nat → Nat → Prop
  | item {name : String} {v u : Value} {before after : List Value} {bs : List Bytes} {k n : Nat}
      (hv : v.toItems = .ok (before ++ u :: after))
      (hbs : Codec.YieldsItems (t.typeCodec b name) before bs) (h : FlagsAt t b false name u k n) :
      FlagsAt t b true name v
        (Varint.size (before ++ u :: after).length + (bs.flatten.length + k)) n
  | target {name target : String} {d : Declaration} {v : Value} {k n : Nat}
      (hd : t.resolve? name = some (.declared d)) (hb : d.body = .alias target)
      (h : FlagsAt t b false target v k n) : FlagsAt t b false name v k n
  | latest {name : String} {d : Declaration} {entries : List VersionEntry} {e : VersionEntry}
      {v : Value} {k n : Nat} (hd : t.resolve? name = some (.declared d))
      (hb : d.body = .versioned entries) (he : Codec.latestEntry d.fqn entries = .ok e)
      (h : FlagsAt t b false e.typeName v k n) :
      FlagsAt t b false name v (Varint.size e.version.toNat + k) n
  | elements {name element : String} {d : Declaration} {v : Value} {k n : Nat}
      (hd : t.resolve? name = some (.declared d)) (hb : d.body = .array element)
      (hframed : t.isFrameable element = false) (h : FlagsAt t b true element v k n) :
      FlagsAt t b false name v k n
  | own {name : String} {d : Declaration} {s : StructBody} {v : Value} {fields : Fields}
      {before after : List FieldStep} {bs : List Bytes}
      (hd : t.resolve? name = some (.declared d)) (hb : d.body = .struct s)
      (hv : v.toFields = .ok fields) (hsteps : (t.layout d.fqn s).steps = before ++ after)
      (hpos : s.flagsPosition = some before.length)
      (hbs : RecordLayout.YieldsSteps (stepCodec (t.typeCodec b))
        ((t.layout d.fqn s).flags fields) fields before bs) :
      FlagsAt t b false name v bs.flatten.length ((t.layout d.fqn s).flags fields)
  | field {name : String} {d : Declaration} {s : StructBody} {v : Value} {fields : Fields}
      {before after : List FieldStep} {step : FieldStep} {bs : List Bytes} {k n : Nat}
      (hd : t.resolve? name = some (.declared d)) (hb : d.body = .struct s)
      (hv : v.toFields = .ok fields) (hsteps : (t.layout d.fqn s).steps = before ++ step :: after)
      (hbs : RecordLayout.YieldsSteps (stepCodec (t.typeCodec b))
        ((t.layout d.fqn s).flags fields) fields before bs)
      (hs : step.isWritten ((t.layout d.fqn s).flags fields) = true)
      (hframed : step.framed = false)
      (h : FlagsAt t b step.array step.typeName (fields.get step.name) k n) :
      FlagsAt t b false name v ((RecordLayout.stepBytes s.flagsPosition
        ((t.layout d.fqn s).flags fields) 0 bs).length + k) n

theorem typeCodec_yields_layer (hfin : t.Finite) {name : String} {v : Value} {x : Bytes} :
    (t.typeCodec b name).Yields v x ↔ (t.codecLayer b (t.typeCodec b) name).Yields v x :=
  (samePasses_typeCodec_layer hfin name v).yields_iff

theorem regular_step {name : String} {d : Declaration} {s : StructBody}
    (hd : t.resolve? name = some (.declared d)) (hb : d.body = .struct s)
    (hT : t.Throughout (t.IsClosed b) name) :
    ∀ step ∈ (t.layout d.fqn s).steps, (stepCodec (t.typeCodec b) step).Regular := fun _ hs =>
  Codec.regular_member (regular_typeCodec (hT.child hd (mem_refNames_of_step hb hs))) _ _

/-- The flags stand where they are said to begin. -/
theorem prefix_of_flagsAt (hfin : t.Finite) {array : Bool} {name : String} {v : Value} {k n : Nat}
    (h : t.FlagsAt b array name v k n) (hT : t.Throughout (t.IsClosed b) name) {x : Bytes}
    (hy : ((t.typeCodec b name).member false array).Yields v x) : Varint.bytes n <+: x.drop k := by
  induction h generalizing x with
  | item hv hbs _ ih =>
    exact Codec.prefix_of_item (regular_typeCodec hT) hy hv hbs fun y hyy => ih hT hyy
  | target hd hb _ ih =>
    have hlayer := (typeCodec_yields_layer hfin).mp hy
    rw [layer_alias hd hb] at hlayer
    exact ih (hT.child hd (Declaration.mem_refNames_alias hb)) hlayer
  | @latest name d entries e v k n hd hb he _ ih =>
    have hlayer := (typeCodec_yields_layer hfin).mp hy
    rw [layer_versioned hd hb] at hlayer
    have hentry {e : VersionEntry} (hmem : e ∈ entries) : t.Throughout (t.IsClosed b) e.typeName :=
      hT.child hd (Declaration.mem_refNames_of_entry hb hmem)
    obtain ⟨e', y, he', rfl, hyy⟩ := Codec.tagged_yields_inv
      (fun e hmem => regular_typeCodec (hentry hmem)) hlayer
    obtain rfl : e = e' := Except.ok.inj (he.symm.trans he')
    have hmark := prefix_drop_append (ih (hentry (Codec.latestEntry_mem he)) hyy)
      (Varint.bytes e.version.toNat) []
    rwa [List.append_nil, Varint.length_bytes] at hmark
  | elements hd hb hframed _ ih =>
    have hlayer := (typeCodec_yields_layer hfin).mp hy
    rw [layer_array hd hb, hframed] at hlayer
    exact ih (hT.child hd (Declaration.mem_refNames_array hb)) hlayer
  | own hd hb hv hsteps hpos hbs =>
    have hlayer := (typeCodec_yields_layer hfin).mp hy
    rw [layer_struct hd hb] at hlayer
    exact RecordLayout.prefix_of_flags (regular_step hd hb hT) hlayer hv hsteps hbs hpos
  | @field name d s v fields before after step bs k n hd hb hv hsteps hbs hs hframed _ ih =>
    have hlayer := (typeCodec_yields_layer hfin).mp hy
    rw [layer_struct hd hb] at hlayer
    have hmem : step ∈ (t.layout d.fqn s).steps := by
      rw [hsteps]
      exact List.mem_append_right _ List.mem_cons_self
    refine RecordLayout.prefix_of_field (regular_step hd hb hT) hlayer hv hsteps hbs hs ?_
    intro y hyy
    rw [stepCodec, hframed] at hyy
    exact ih (hT.child hd (mem_refNames_of_step hb hmem)) hyy

/-! ## Input that has ended -/

section Dry

variable {name : String}

/-- Without input a type that resolves is read as nothing, or its reader asks for more: only what a
value must hold is read from where it stands, and that comes closer to a primitive at every step. -/
theorem dry_typeCodec (hs : t.Sound) (hT : t.Throughout t.Portable name)
    (hr : ∃ target, t.resolve? name = some target) : Dry (t.typeCodec b name).read := by
  induction hrank : t.enough name 0 using Nat.strong_induction_on generalizing name with
  | _ rank ih =>
    have hneed {d : Declaration} {child : String} (hd : t.resolve? name = some (.declared d))
        (hc : child ∈ d.needs) : Dry (t.typeCodec b child).read := by
      have href := d.needs_subset_refNames hc
      refine ih _ ?_ (hT.child hd href) (hs.resolves hd href) rfl
      rw [← hrank]
      exact enough_need hs.finite hd hc (Nat.le_refl 0)
    show Halts _ _ _
    refine (mimics_of_parse_eq fun (_ : Unit) => parse_typeCodec hs.finite hT.closed).halts
      (fun _ => ?_) ()
    obtain ⟨target, hr⟩ := hr
    cases target with
    | primitive p =>
      rw [layer_primitive hr]
      exact p.dry_primitive
    | declared d =>
      cases hb : d.body with
      | «alias» target =>
        rw [layer_alias hr hb]
        exact hneed hr (by simp [Declaration.needs, hb])
      | enum e =>
        rw [layer_enum hr hb]
        exact Choice.dry_choice _
      | struct s =>
        rw [layer_struct hr hb]
        refine RecordLayout.dry_record (fun step hstep => ?_) fun step hstep ho => ?_
        · exact Codec.confined_member
            (confined_typeCodec (hT.closed.child hr (mem_refNames_of_step hb hstep))) _ _
        · refine Codec.dry_member fun harray _ => hneed hr ?_
          obtain ⟨f, hf, flag, rfl⟩ := mem_steps hstep
          have hrequired : f.required = true := by simpa [fieldStep] using ho
          have hone : f.array = false := harray
          rw [Declaration.needs, hb]
          exact List.mem_map.mpr ⟨f, List.mem_filter.mpr ⟨hf, by simp [hrequired, hone]⟩, rfl⟩
      | array element =>
        rw [layer_array hr hb]
        exact Codec.dry_member fun harray _ => absurd harray (by decide)
      | versioned entries =>
        rw [layer_versioned hr hb]
        exact dry_varint_bind _
      | external symbol => exact absurd hb (hT.here.not_external hr)

end Dry

/-! ## Where bytes may end -/

/-- Input may end where flags would begin. -/
def Mark (t : TypeTable) (b : Bindings) (array : Bool) (name : String) (v : Value) (k : Nat) :
    Prop :=
  ∃ n, t.FlagsAt b array name v k n

theorem Mark.of_member {array : Bool} {name : String} {v : Value} {k : Nat}
    (h : Codec.MemberMark (t.typeCodec b name) (t.Mark b false name) v array k) :
    t.Mark b array name v k := by
  cases h with
  | one h => exact h
  | item hv hbs h =>
    obtain ⟨n, hn⟩ := h
    exact ⟨n, .item hv hbs hn⟩

section Guards

variable {name : String} {v : Value} {d : Declaration}

/-- The bytes of a field or of elements are delimited when those of what stands in no frame are. -/
theorem guards_member (hs : t.Sound) (hT : t.Throughout t.Portable name)
    (hd : t.resolve? name = some (.declared d)) {child : String} (hc : child ∈ d.refNames)
    (hsize : v.size < 0x10000000000000000) {framed array : Bool}
    (h : framed = false → ∀ u, v.Part array u →
      (t.typeCodec b child).Guards (t.Mark b false child) u) :
    ((t.typeCodec b child).member framed array).Guards
      (fun u k => framed = false ∧ t.Mark b array child u k) v := by
  have hclosed : t.Throughout (t.IsClosed b) child := hT.closed.child hd hc
  have hdry : Dry (t.typeCodec b child).read :=
    dry_typeCodec hs (hT.child hd hc) (hs.resolves hd hc)
  have hcount (items : List Value) (hv : v.toItems = .ok items) :
      items.length < 0x10000000000000000 := Nat.lt_trans (Value.length_lt_size hv) hsize
  refine (Codec.guards_member (regular_typeCodec hclosed) (confined_typeCodec hclosed) hdry hcount
    h).imp ?_
  rintro k ⟨hframed, hmark⟩
  exact ⟨hframed, .of_member hmark⟩

/-- The marks of a struct are its flags, and the marks of its fields that are not framed. -/
theorem Mark.of_steps {s : StructBody} (hd : t.resolve? name = some (.declared d))
    (hb : d.body = .struct s) {fields : Fields} (hv : v.toFields = .ok fields) {k : Nat}
    (h : RecordLayout.StepMark (stepCodec (t.typeCodec b))
      (fun step u k => step.framed = false ∧ t.Mark b step.array step.typeName u k)
      s.flagsPosition ((t.layout d.fqn s).flags fields) fields 0 (t.layout d.fqn s).steps k) :
    t.Mark b false name v k := by
  cases h with
  | @flags before after bs hsteps hbs hpos =>
    rw [Nat.zero_add] at hpos
    refine ⟨(t.layout d.fqn s).flags fields, ?_⟩
    rw [RecordLayout.leadBytes_before hpos (by rw [Nat.zero_add, hbs.length_eq])]
    exact .own hd hb hv hsteps hpos hbs
  | field hsteps hbs hs h =>
    obtain ⟨hframed, n, hn⟩ := h
    exact ⟨n, .field hd hb hv hsteps hbs hs hframed hn⟩

theorem guards_struct (hs : t.Sound) (hT : t.Throughout t.Portable name)
    (hd : t.resolve? name = some (.declared d)) {s : StructBody} (hb : d.body = .struct s)
    (hsize : v.size < 0x10000000000000000)
    (hpassed : ∀ c u, t.Passes false name v false c u →
      (t.typeCodec b c).Guards (t.Mark b false c) u) :
    ((t.layout d.fqn s).codec (stepCodec (t.typeCodec b))).Guards (t.Mark b false name) v := by
  have hmem := (mem_of_resolve? hd).1
  have hfield (fields : Fields) (hv : v.toFields = .ok fields) :
      ∀ step ∈ (t.layout d.fqn s).steps, (stepCodec (t.typeCodec b) step).Guards
        (fun u k => step.framed = false ∧ t.Mark b step.array step.typeName u k)
        (fields.get step.name) := by
    intro step hstep
    refine guards_member hs hT hd (mem_refNames_of_step hb hstep)
      (Nat.lt_of_le_of_lt (Value.size_get_le hv step.name) hsize) fun hframed u hu => ?_
    obtain ⟨f, hf, flag, rfl⟩ := mem_steps hstep
    have henter : t.Enters name v (t.isFrameable f.typeName) f.typeName u := .field hd hb hv hf hu
    rw [show t.isFrameable f.typeName = false from hframed] at henter
    exact hpassed f.typeName u (.into henter)
  refine (RecordLayout.guards_record (regular_step hd hb hT.closed) (fun step hstep => ?_)
    (fun step hstep => ?_) (layout_announced hs hmem hb)
    (RecordLayout.flags_lt_of_few (bits_steps t 0 s.fields) (few_steps hs hmem hb)) hfield).imp ?_
  · exact Codec.confined_member
      (confined_typeCodec (hT.closed.child hd (mem_refNames_of_step hb hstep))) _ _
  · have href := mem_refNames_of_step hb hstep
    exact Codec.dry_member fun _ _ => dry_typeCodec hs (hT.child hd href) (hs.resolves hd href)
  · rintro k ⟨fields, hv, hmark⟩
    exact .of_steps hd hb hv hmark

/-- The bytes of a layer are delimited when those of what it passes on without a frame are. -/
theorem guards_layer (hs : t.Sound) (hT : t.Throughout t.Portable name)
    (hsize : v.size < 0x10000000000000000)
    (hpassed : ∀ c u, t.Passes false name v false c u →
      (t.typeCodec b c).Guards (t.Mark b false c) u) :
    (t.codecLayer b (t.typeCodec b) name).Guards (t.Mark b false name) v := by
  have hself := hT.here
  cases hr : t.resolve? name with
  | none =>
    rw [layer_unknown hr]
    exact fun _ _ hy => ((barren_throw _).not_yields hy).elim
  | some target =>
    cases target with
    | primitive p =>
      simp only [Portable, hr] at hself
      rw [layer_primitive hr]
      exact Primitive.guards_primitive hself _ v
    | declared d =>
      cases hb : d.body with
      | «alias» target =>
        rw [layer_alias hr hb]
        refine (hpassed target v (.along (.target hr hb))).imp ?_
        rintro k ⟨n, hn⟩
        exact ⟨n, .target hr hb hn⟩
      | enum e =>
        rw [layer_enum hr hb]
        exact Choice.guards_choice _ _ v
      | struct s =>
        rw [layer_struct hr hb]
        exact guards_struct hs hT hr hb hsize hpassed
      | array element =>
        rw [layer_array hr hb]
        refine (guards_member hs hT hr (Declaration.mem_refNames_array hb) hsize
          fun hframed u hu => ?_).imp ?_
        · have henter : t.Enters name v (t.isFrameable element) element u := .item hr hb hu
          rw [hframed] at henter
          exact hpassed element u (.into henter)
        · rintro k ⟨hframed, n, hn⟩
          exact ⟨n, .elements hr hb hframed hn⟩
      | versioned entries =>
        simp only [Portable, hr, hb] at hself
        rw [layer_versioned hr hb]
        have hentry {e : VersionEntry} (he : e ∈ entries) :
            t.Throughout (t.IsClosed b) e.typeName :=
          hT.closed.child hr (Declaration.mem_refNames_of_entry hb he)
        refine (Codec.guards_tagged (fun e he => regular_typeCodec (hentry he))
          (fun e he => confined_typeCodec (hentry he)) (hs.ascending (mem_of_resolve? hr).1 hb)
          fun e he => ⟨hself e he, hpassed e.typeName v (.along (.latest hr hb he))⟩).imp ?_
        rintro k ⟨e, j, he, rfl, n, hn⟩
        exact ⟨n, .latest hr hb he hn⟩
      | external symbol => exact absurd hb (hself.not_external hr)

/-- The bytes of a value are delimited, and all their marks are flags of structs outside frames. -/
theorem guards_typeCodec (hs : t.Sound) (hT : t.Throughout t.Portable name)
    (hsize : v.size < 0x10000000000000000) :
    (t.typeCodec b name).Guards (t.Mark b false name) v := by
  induction hdepth : t.enough name v.depth using Nat.strong_induction_on generalizing name v with
  | _ depth ih =>
    -- what is passed on takes less depth
    have hlayer := guards_layer (b := b) hs hT hsize fun c u hp =>
      ih _ (hdepth ▸ hp.enough_lt hs.finite) (hT.passes hp)
        (Nat.lt_of_le_of_lt hp.size_le hsize) rfl
    intro x hfits hy
    have hread : Mimics (fun _ : Unit => (t.typeCodec b name).read)
        fun _ => (t.codecLayer b (t.typeCodec b) name).read :=
      mimics_of_parse_eq fun _ => parse_typeCodec hs.finite hT.closed
    exact hread.delimits (hlayer x hfits ((typeCodec_yields_layer hs.finite).mp hy))

end Guards

/-! ## Structs outside frames -/

/-- A value of a type is written with values of another type in it that stand in no frame. -/
inductive Inlines (t : TypeTable) (name : String) : String → Prop
  | along {child : String} (h : t.Forwards name child) : Inlines t name child
  | element {element : String} {d : Declaration} (hd : t.resolve? name = some (.declared d))
      (hb : d.body = .array element) (hframed : t.isFrameable element = false) :
      Inlines t name element
  | field {d : Declaration} {s : StructBody} {f : Field}
      (hd : t.resolve? name = some (.declared d)) (hb : d.body = .struct s) (hf : f ∈ s.fields)
      (hframed : t.isFrameable f.typeName = false) : Inlines t name f.typeName

/-- Flags outside frames are those of a struct that is reached without a frame. -/
theorem FlagsAt.exists_struct {array : Bool} {name : String} {v : Value} {k n : Nat}
    (h : t.FlagsAt b array name v k n) :
    ∃ other, ReflTransGen t.Inlines name other ∧ ∃ s ∈ t.struct? other, s.flagsPosition ≠ none := by
  induction h with
  | item _ _ _ ih => exact ih
  | target hd hb _ ih =>
    obtain ⟨other, hreach, hstruct⟩ := ih
    exact ⟨other, .head (.along (.target hd hb)) hreach, hstruct⟩
  | latest hd hb he _ ih =>
    obtain ⟨other, hreach, hstruct⟩ := ih
    exact ⟨other, .head (.along (.latest hd hb he)) hreach, hstruct⟩
  | elements hd hb hframed _ ih =>
    obtain ⟨other, hreach, hstruct⟩ := ih
    exact ⟨other, .head (.element hd hb hframed) hreach, hstruct⟩
  | @own name d s _ _ _ _ _ hd hb _ _ hpos _ =>
    refine ⟨name, .refl, s, struct?_eq_some.mpr ⟨d, hd, hb⟩, ?_⟩
    rw [hpos]
    exact Option.some_ne_none _
  | @field name d s _ _ before after step _ _ _ hd hb _ hsteps _ _ hframed _ ih =>
    obtain ⟨other, hreach, hstruct⟩ := ih
    have hmem : step ∈ (t.layout d.fqn s).steps := by
      rw [hsteps]
      exact List.mem_append_right _ List.mem_cons_self
    obtain ⟨f, hf, flag, rfl⟩ := mem_steps hmem
    exact ⟨other, .head (.field hd hb hf hframed) hreach, hstruct⟩

/-- A struct inlines the types of its fields that are not framed. -/
theorem Inlines.of_struct {name child : String} {d : Declaration} {s : StructBody}
    (hd : t.resolve? name = some (.declared d)) (hb : d.body = .struct s)
    (h : t.Inlines name child) :
    ∃ f ∈ s.fields, f.typeName = child ∧ t.isFrameable child = false := by
  cases h with
  | along h =>
    cases h with
    | target hd' hb' | latest hd' hb' _ =>
      cases hd.symm.trans hd'
      cases hb.symm.trans hb'
  | element hd' hb' _ =>
    cases hd.symm.trans hd'
    cases hb.symm.trans hb'
  | field hd' hb' hf hframed =>
    cases hd.symm.trans hd'
    cases hb.symm.trans hb'
    exact ⟨_, hf, rfl, hframed⟩

theorem not_inlines_primitive {name child : String} {p : Primitive}
    (hr : t.resolve? name = some (.primitive p)) : ¬ t.Inlines name child := by
  intro h
  cases h with
  | along h =>
    cases h with
    | target hd _ | latest hd _ _ => cases hr.symm.trans hd
  | element hd _ _ | field hd _ _ _ => cases hr.symm.trans hd

end TypeTable

namespace Schema

variable {s : Schema} {b : Bindings} {name : String}

/-- A proper beginning of what a schema has written and reads is rejected as too short, or it is
accepted and ends where the flags of a struct outside frames begin.  Where no struct that is reached
without a frame has flags, every proper beginning is rejected. -/
theorem decode_take_of_encode (hs : s.Built) (hT : s.types.Throughout s.types.Portable name)
    {v w : Value} (hsize : v.size < 0x10000000000000000) {bytes : Bytes} (hfits : bytes.Fits)
    (hencode : s.encode b name v = .ok bytes) (hdecode : s.decode b name bytes = .ok w) :
    (∀ k < bytes.length, s.decode b name (bytes.take k) = .error .unexpectedEnd ∨
      (∃ u, s.decode b name (bytes.take k) = .ok u) ∧
        ∃ n, s.types.FlagsAt b false name v k n ∧ Varint.bytes n <+: bytes.drop k) ∧
    ((∀ other, ReflTransGen s.types.Inlines name other →
        ∀ struct ∈ s.types.struct? other, struct.flagsPosition = none) →
      ∀ k < bytes.length, s.decode b name (bytes.take k) = .error .unexpectedEnd) := by
  have hparse (x : Bytes) : s.decode b name x =
      ((s.types.typeCodec b name).read.parse x).map Prod.fst := by
    rw [decode_eq_map, decodeFirst_eq_parse (resolve?_of_encode hencode)]
  have hyields : (s.types.typeCodec b name).Yields v bytes := yields_of_encode hT hencode
  have hread := hdecode
  rw [hparse, ← List.append_nil bytes] at hread
  obtain ⟨⟨u, n⟩, hread, -⟩ := ok_of_map hread
  obtain ⟨-, hfenced⟩ := TypeTable.guards_typeCodec hs.sound hT hsize bytes hfits hyields () [] u n
    hread
  have hcut : ∀ k < bytes.length, s.decode b name (bytes.take k) = .error .unexpectedEnd ∨
      (∃ u, s.decode b name (bytes.take k) = .ok u) ∧
        ∃ n, s.types.FlagsAt b false name v k n ∧ Varint.bytes n <+: bytes.drop k := by
    intro k hk
    rw [hparse]
    rcases hfenced.cut () k hk with hend | ⟨u, m, hread, -, n, hn⟩
    · left
      rw [hend]
      rfl
    · right
      rw [hread]
      exact ⟨⟨u, rfl⟩, n, hn, TypeTable.prefix_of_flagsAt hs.sound.finite hn hT.closed hyields⟩
  refine ⟨hcut, fun hnone k hk => ?_⟩
  rcases hcut k hk with hend | ⟨-, n, hn, -⟩
  · exact hend
  · obtain ⟨other, hreach, struct, hstruct, hflags⟩ := hn.exists_struct
    exact absurd (hnone other hreach struct hstruct) hflags

/-! A sheet: a row holds an array of compact cells, a page holds a row and a number. -/

/-- The fields of a cell. -/
def sheetCellFields : List FieldDescription :=
  [{ name := "x", typeName := "uint", required := true }, { name := "note", typeName := "uint" }]

/-- The fields of a row. -/
def sheetRowFields : List FieldDescription :=
  [{ name := "cells", typeName := "@a/cell", required := true, array := true },
    { name := "total", typeName := "uint" }]

/-- The fields of a page. -/
def sheetPageFields : List FieldDescription :=
  [{ name := "head", typeName := "@a/row", required := true },
    { name := "size", typeName := "uint", required := true }]

/-- The calls that register a sheet. -/
def sheetCalls : List Builder.Call :=
  [.declareNamespace "a",
    .registerIn "a" { name := "cell", compact := true, fields := some sheetCellFields },
    .registerIn "a" { name := "row", fields := some sheetRowFields },
    .registerIn "a" { name := "page", fields := some sheetPageFields }]

/-- The struct of a cell. -/
def sheetCell : StructBody :=
  ⟨true, some 1, [⟨"x", "uint", true, false, 1⟩, ⟨"note", "uint", false, false, 1⟩]⟩

/-- The struct of a row. -/
def sheetRow : StructBody :=
  ⟨false, some 1, [⟨"cells", "@a/cell", true, true, 1⟩, ⟨"total", "uint", false, false, 1⟩]⟩

/-- The struct of a page. -/
def sheetPage : StructBody :=
  ⟨false, none, [⟨"head", "@a/row", true, false, 1⟩, ⟨"size", "uint", true, false, 1⟩]⟩

/-- The schema of a sheet. -/
def sheet : Schema :=
  ⟨1, true, true, [⟨"cell", "a", 1, .struct sheetCell⟩, ⟨"row", "a", 1, .struct sheetRow⟩,
      ⟨"page", "a", 1, .struct sheetPage⟩],
    [("a", none)],
    [⟨.typeAdded, "@a/cell", none, 1⟩, ⟨.typeAdded, "@a/row", none, 1⟩,
      ⟨.typeAdded, "@a/page", none, 1⟩]⟩

theorem sheet_built : sheet.Built :=
  ⟨(Builder.fresh true).after sheetCalls, (Builder.Reachable.fresh true).after _, rfl⟩

theorem sheet_plain : sheet.types.Plain :=
  ⟨by decide +kernel, by decide +kernel, by decide +kernel⟩

/-- A row of two cells. -/
def sheetTop : Value :=
  .struct [("cells", .array
      [.struct [("x", .uint 1)], .struct [("note", .uint 9), ("x", .uint 2)]]),
    ("total", .uint 4)]

/-- A page with the row. -/
def sheetFirst : Value := .struct [("head", sheetTop), ("size", .uint 3)]

/-- A page inlines no struct: its row stands in a frame. -/
theorem sheet_page_inlines {other : String}
    (h : ReflTransGen sheet.types.Inlines "@a/page" other) :
    other = "@a/page" ∨ other = "uint" := by
  have hpage : sheet.types.resolve? "@a/page" =
      some (.declared ⟨"page", "a", 1, .struct sheetPage⟩) := rfl
  have huint : sheet.types.resolve? "uint" = some (.primitive .uint) := rfl
  have hframed : sheet.types.isFrameable "@a/row" = true := rfl
  induction h with
  | refl => exact .inl rfl
  | tail _ hstep ih =>
    rcases ih with rfl | rfl
    · obtain ⟨f, hf, rfl, hinline⟩ := hstep.of_struct hpage rfl
      simp only [sheetPage, List.mem_cons, List.not_mem_nil, or_false] at hf
      rcases hf with rfl | rfl
      · exact absurd (hframed.symm.trans hinline) (by decide)
      · exact .inr rfl
    · exact absurd hstep (TypeTable.not_inlines_primitive huint)

theorem decode_take_of_encode_sheet :
    sheet.encode {} "@a/row" sheetTop = .ok [2, 1, 0, 2, 1, 9, 1, 4] ∧
      (sheet.decode {} "@a/row" [2, 1, 0, 2]).isOk = true ∧
      (∀ k < 8, sheet.decode {} "@a/row" ([2, 1, 0, 2, 1, 9, 1, 4].take k) = .error .unexpectedEnd ∨
        (∃ u, sheet.decode {} "@a/row" ([2, 1, 0, 2, 1, 9, 1, 4].take k) = .ok u) ∧
          ∃ n, sheet.types.FlagsAt {} false "@a/row" sheetTop k n ∧
            Varint.bytes n <+: [2, 1, 0, 2, 1, 9, 1, 4].drop k) ∧
      sheet.encode {} "@a/page" sheetFirst = .ok [8, 2, 1, 0, 2, 1, 9, 1, 4, 3] ∧
      ∀ k < 10, sheet.decode {} "@a/page" ([8, 2, 1, 0, 2, 1, 9, 1, 4, 3].take k) =
        .error .unexpectedEnd := by
  have hexists {x : Except CodecError Value} (h : x.isOk = true) : ∃ w, x = .ok w := by
    cases x with
    | error e => cases h
    | ok w => exact ⟨w, rfl⟩
  have hrow : sheet.types.resolve? "@a/row" = some (.declared ⟨"row", "a", 1, .struct sheetRow⟩) :=
    rfl
  have hpage : sheet.types.resolve? "@a/page" =
      some (.declared ⟨"page", "a", 1, .struct sheetPage⟩) := rfl
  have hencode : sheet.encode {} "@a/row" sheetTop = .ok [2, 1, 0, 2, 1, 9, 1, 4] := by
    decide +kernel
  have hencode' : sheet.encode {} "@a/page" sheetFirst = .ok [8, 2, 1, 0, 2, 1, 9, 1, 4, 3] := by
    decide +kernel
  obtain ⟨w, hdecode⟩ : ∃ w, sheet.decode {} "@a/row" [2, 1, 0, 2, 1, 9, 1, 4] = .ok w :=
    hexists (by decide +kernel)
  obtain ⟨w', hdecode'⟩ : ∃ w, sheet.decode {} "@a/page" [8, 2, 1, 0, 2, 1, 9, 1, 4, 3] = .ok w :=
    hexists (by decide +kernel)
  refine ⟨hencode, by decide +kernel,
    (decode_take_of_encode sheet_built (sheet_plain.portable hrow) (by decide) (by decide) hencode
      hdecode).1, hencode',
    (decode_take_of_encode sheet_built (sheet_plain.portable hpage) (by decide) (by decide) hencode'
      hdecode').2 fun other hreach struct hstruct => ?_⟩
  rcases sheet_page_inlines hreach with rfl | rfl
  · cases hstruct
    rfl
  · cases hstruct

end Schema

end WireSchema
