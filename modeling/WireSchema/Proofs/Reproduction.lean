import WireSchema.Proofs.Codec.Reproduction
import WireSchema.Proofs.Primitive.Canonical
import WireSchema.Proofs.RoundTrip
import WireSchema.Proofs.Upgrade

/-!
# Values that were read are written again

Reading puts a default where a field was absent and null where a buffer was empty; writing takes
null for an absent field and refuses it where the field is required.  So what was read from written
bytes is written again exactly when every struct in it has its required fields (`TypeTable.Filled`),
and it is then read as the same value (`settles_typeCodec`).  Only a required field whose type ends
in `buffer` or `none` can be read as null (`TypeTable.Blank`).
-/

namespace WireSchema

open CursorM

/-! ## Members -/

namespace Codec

variable {c c' : Codec} {filled filled' : Value → Prop} {blank blank' solid solid' : Prop}
  {v w : Value}

theorem Reproduces.congr {f : Prop} (h : c.Reproduces f w) (hpass : SamePasses c' c w)
    (hparse : ∀ b, c'.read.parse b = c.read.parse b) : c'.Reproduces f w where
  again hf := by
    obtain ⟨b, hy, hback⟩ := h.again hf
    refine ⟨b, hpass.yields_iff.mpr hy, fun hfits rest => ?_⟩
    rw [hparse, hback hfits rest]
  missing hf := by
    rw [hpass.1]
    exact h.missing hf

/-- Codecs that measure, write and read alike settle the same values. -/
theorem Settles.congr (h : c.Settles filled blank solid v) (hpass : ∀ u, SamePasses c' c u)
    (hparse : ∀ b, c'.read.parse b = c.read.parse b) : c'.Settles filled blank solid v := by
  intro b hfits hy rest w k hp
  rw [hparse] at hp
  obtain ⟨hk, hsettled⟩ := h b hfits ((hpass v).yields_iff.mp hy) rest w k hp
  exact ⟨hk, hsettled.toReproduces.congr (hpass w) hparse, hsettled.blank, hsettled.full⟩

theorem Settles.imp (h : c.Settles filled blank solid v) (hfilled : ∀ w, filled w ↔ filled' w)
    (hblank : blank → blank') (hsolid : solid' → solid) : c.Settles filled' blank' solid' v := by
  intro b hfits hy rest w k hp
  obtain ⟨hk, hsettled⟩ := h b hfits hy rest w k hp
  exact ⟨hk, hsettled.toReproduces.imp (hfilled w), fun hw => hblank (hsettled.blank hw),
    fun hs => (hfilled w).mp (hsettled.full (hsolid hs))⟩

theorem reproduces_member {f : Prop} (hc : Confined c.read) (h : c.Reproduces f w) (framed : Bool) :
    (c.member framed false).Reproduces f w := by
  cases framed with
  | false => exact h
  | true => exact reproduces_frame hc h

/-- A field, or an array field item by item, is settled when its type settles it. -/
theorem settles_member (hreg : c.Regular) (hc : Confined c.read) {framed array : Bool}
    (hpos : array = true → framed = false → ∀ u, ¬ c.Yields u [])
    (h : ∀ u, v.Part array u → c.Settles filled blank solid u) :
    (c.member framed array).Settles (fun w => ∀ u, w.Part array u → filled u)
      (array = false ∧ blank) solid v := by
  have helement (u : Value) (hu : v.Part array u) :
      (if framed then c.frame else c).Settles filled blank solid u := by
    split
    · exact settles_frame hreg hc (h u hu)
    · exact h u hu
  cases array with
  | false =>
    refine (helement v rfl).imp (fun w => ⟨?_, fun hw => hw w rfl⟩) (fun hb => ⟨rfl, hb⟩) id
    rintro hw u rfl
    exact hw
  | true =>
    have hsequence : ((if framed then c.frame else c).sequence).Settles
        (fun w => ∀ items, w.toItems = .ok items → ∀ u ∈ items, filled u) False solid v := by
      refine settles_sequence ?_ ?_ ?_ fun items hv u hu => helement u (.of_item hv hu)
      · split
        · exact regular_frame hreg
        · exact hreg
      · split
        · exact confined_frame hc
        · exact hc
      · cases framed with
        | false => exact hpos rfl rfl
        | true => exact not_yields_frame hreg
    refine hsequence.imp (fun w => ⟨?_, ?_⟩) False.elim id
    · rintro hall u ⟨items, hw, hu⟩
      exact hall items hw u hu
    · exact fun hall items hw u hu => hall u (.of_item hw hu)

end Codec

namespace Value

theorem IsAtom.toItems_ne {v : Value} (h : v.IsAtom) (items : List Value) :
    v.toItems ≠ .ok items := by
  cases v with
  | array _ | struct _ => exact False.elim h
  | _ => rintro ⟨⟩

theorem IsAtom.toFields_ne {v : Value} (h : v.IsAtom) (fields : Fields) :
    v.toFields ≠ .ok fields := by
  cases v with
  | array _ | struct _ => exact False.elim h
  | _ => rintro ⟨⟩

end Value

namespace TypeTable

variable {t : TypeTable} {b : Bindings}

/-! ## Filled values -/

/-- A value of a struct has all its required fields. -/
def HasRequired (t : TypeTable) (name : String) (w : Value) : Prop :=
  ∀ s, t.struct? name = some s → ∀ fields, w.toFields = .ok fields →
    ∀ f ∈ s.fields, f.required = true → (fields.get f.name).isPresent = true

/-- Every struct in a value has all its required fields. -/
def Filled (t : TypeTable) (framed : Bool) (name : String) (w : Value) : Prop :=
  ∀ framed' other u, t.Visits framed name w framed' other u → t.HasRequired other u

/-- Every field of a struct has a step. -/
theorem exists_step (t : TypeTable) (fqn : String) {s : StructBody} {f : Field}
    (hf : f ∈ s.fields) : ∃ flag, t.fieldStep f flag ∈ (t.layout fqn s).steps := by
  rw [← StructBody.map_fst_assignFlags 0 s.fields] at hf
  obtain ⟨p, hp, rfl⟩ := List.mem_map.mp hf
  exact ⟨p.2, List.mem_map.mpr ⟨p, hp, rfl⟩⟩

section Filled

variable {framed framed' : Bool} {name child : String} {w u : Value}

theorem filled_iff (framed : Bool) (name : String) (w : Value) :
    t.Filled framed name w ↔ t.HasRequired name w ∧
      ∀ framed' child u, t.Passes framed name w framed' child u → t.Filled framed' child u := by
  constructor
  · intro h
    exact ⟨h framed name w (.here framed name w),
      fun _ _ _ hp framed' other u hu => h framed' other u (.step hp hu)⟩
  · rintro ⟨hhere, hrest⟩ framed' other u hu
    cases hu with
    | here => exact hhere
    | step hp hu => exact hrest _ _ _ hp _ _ _ hu

theorem filled_of_undeclared (h : ∀ d, t.resolve? name ≠ some (.declared d)) :
    t.Filled framed name w := by
  refine (filled_iff _ _ _).mpr ⟨fun s hs => ?_, fun _ _ _ hp => ?_⟩
  · obtain ⟨d, hd, -⟩ := struct?_eq_some.mp hs
    exact absurd hd (h d)
  · obtain ⟨d, hd, -⟩ := hp.mem_refNames
    exact absurd hd (h d)

/-- What a value is passed to, by the kind of the declaration. -/
theorem Passes.of_declared {d : Declaration} (hr : t.resolve? name = some (.declared d))
    (h : t.Passes framed name w framed' child u) :
    match d.body with
    | .alias target => framed' = framed ∧ child = target ∧ u = w
    | .struct s => ∃ fields, w.toFields = .ok fields ∧ ∃ f ∈ s.fields,
      framed' = t.isFrameable f.typeName ∧ child = f.typeName ∧ (fields.get f.name).Part f.array u
    | .array element => framed' = t.isFrameable element ∧ child = element ∧ w.Part true u
    | .versioned entries => ∃ e, Codec.latestEntry d.fqn entries = .ok e ∧
      framed' = framed ∧ child = e.typeName ∧ u = w
    | _ => False := by
  cases h with
  | along h =>
    cases h with
    | target hd hb =>
      cases hr.symm.trans hd
      rw [hb]
      exact ⟨rfl, rfl, rfl⟩
    | latest hd hb he =>
      cases hr.symm.trans hd
      rw [hb]
      exact ⟨_, he, rfl, rfl, rfl⟩
  | into h =>
    cases h with
    | item hd hb hu =>
      cases hr.symm.trans hd
      rw [hb]
      exact ⟨rfl, rfl, hu⟩
    | field hd hb hw hf hu =>
      cases hr.symm.trans hd
      rw [hb]
      exact ⟨_, hw, _, hf, rfl, rfl, hu⟩

section Declared

variable {d : Declaration} (hr : t.resolve? name = some (.declared d))

include hr

theorem hasRequired_of_body (hb : ∀ s, d.body ≠ .struct s) : t.HasRequired name w := by
  intro s hs
  obtain ⟨d', hd', hb'⟩ := struct?_eq_some.mp hs
  cases hr.symm.trans hd'
  exact absurd hb' (hb s)

theorem filled_alias {target : String} (hb : d.body = .alias target) :
    t.Filled framed target w ↔ t.Filled framed name w := by
  rw [filled_iff framed name]
  refine ⟨fun h => ⟨hasRequired_of_body hr (by simp [hb]), fun framed' child u hp => ?_⟩,
    fun h => ?_⟩
  · have hcase := hp.of_declared hr
    rw [hb] at hcase
    obtain ⟨rfl, rfl, rfl⟩ := hcase
    exact h
  · exact h.2 _ _ _ (.along (.target hr hb))

theorem filled_enum {e : EnumBody} (hb : d.body = .enum e) : t.Filled framed name w := by
  refine (filled_iff _ _ _).mpr
    ⟨hasRequired_of_body hr (by simp [hb]), fun framed' child u hp => ?_⟩
  have hcase := hp.of_declared hr
  rw [hb] at hcase
  exact hcase.elim

theorem filled_array {element : String} (hb : d.body = .array element) :
    (∀ u, w.Part true u → t.Filled (t.isFrameable element) element u) ↔
      t.Filled framed name w := by
  rw [filled_iff framed name]
  refine ⟨fun h => ⟨hasRequired_of_body hr (by simp [hb]), fun framed' child u hp => ?_⟩,
    fun h u hu => ?_⟩
  · have hcase := hp.of_declared hr
    rw [hb] at hcase
    obtain ⟨rfl, rfl, hu⟩ := hcase
    exact h u hu
  · exact h.2 _ _ _ (.into (.item hr hb hu))

theorem filled_versioned {entries : List VersionEntry} (hb : d.body = .versioned entries) :
    (∀ e, Codec.latestEntry d.fqn entries = .ok e → t.Filled framed e.typeName w) ↔
      t.Filled framed name w := by
  rw [filled_iff framed name]
  refine ⟨fun h => ⟨hasRequired_of_body hr (by simp [hb]), fun framed' child u hp => ?_⟩,
    fun h e he => ?_⟩
  · have hcase := hp.of_declared hr
    rw [hb] at hcase
    obtain ⟨e, he, rfl, rfl, rfl⟩ := hcase
    exact h e he
  · exact h.2 _ _ _ (.along (.latest hr hb he))

/-- A struct is filled when its required fields are there and all its fields are filled. -/
theorem filled_struct {s : StructBody} (hb : d.body = .struct s) :
    (∀ fields, w.toFields = .ok fields → (t.layout d.fqn s).Full
      (fun step x => ∀ u, x.Part step.array u → t.Filled step.framed step.typeName u) fields) ↔
      t.Filled framed name w := by
  rw [filled_iff framed name]
  constructor
  · intro h
    refine ⟨fun s' hs' fields hw f hf hrequired => ?_, fun framed' child u hp => ?_⟩
    · obtain ⟨d', hd', hb'⟩ := struct?_eq_some.mp hs'
      cases hr.symm.trans hd'
      cases hb.symm.trans hb'
      obtain ⟨flag, hmem⟩ := t.exists_step d.fqn hf
      exact (h fields hw _ hmem).1 (by rw [fieldStep, hrequired]; rfl)
    · have hcase := hp.of_declared hr
      rw [hb] at hcase
      obtain ⟨fields, hw, f, hf, rfl, rfl, hu⟩ := hcase
      obtain ⟨flag, hmem⟩ := t.exists_step d.fqn hf
      exact (h fields hw _ hmem).2 u hu
  · rintro ⟨hhere, hrest⟩ fields hw step hmem
    obtain ⟨f, hf, flag, rfl⟩ := mem_steps hmem
    refine ⟨fun ho => ?_, fun u hu => hrest _ _ _ (.into (.field hr hb hw hf hu))⟩
    exact hhere s (struct?_eq_some.mpr ⟨d, hr, hb⟩) fields hw f hf (by simpa [fieldStep] using ho)

end Declared

/-- A value that holds no others is passed on whole. -/
theorem Passes.of_atom (hw : w.IsAtom) (h : t.Passes framed name w framed' child u) : u = w := by
  cases h with
  | along _ => rfl
  | into h =>
    cases h with
    | item _ _ hu =>
      obtain ⟨items, hitems, -⟩ := hu
      exact absurd hitems (hw.toItems_ne items)
    | field _ _ hfields _ _ => exact absurd hfields (hw.toFields_ne _)

theorem filled_atom (hw : w.IsAtom) : t.Filled framed name w := by
  intro framed' other u hu
  induction hu with
  | here => exact fun s _ fields hfields => absurd hfields (hw.toFields_ne fields)
  | step hp _ ih =>
    cases hp.of_atom hw
    exact ih hw

/-- The same of a field and of the items of an array field. -/
theorem filled_part_atom {array : Bool} {x : Value} (hx : x.IsAtom) (hu : x.Part array u) :
    t.Filled framed name u := by
  cases array with
  | false => exact hu.one ▸ filled_atom hx
  | true =>
    obtain ⟨items, hitems, -⟩ := hu
    exact absurd hitems (hx.toItems_ne items)

end Filled

/-! ## Types that are read as null -/

/-- The types whose values may be read as null: `buffer`, for the empty one, and `none`, and what is
written as one of them. -/
inductive Blank (t : TypeTable) : String → Prop
  | primitive {name : String} {p : Primitive} (hr : t.resolve? name = some (.primitive p))
      (hp : p = .buffer ∨ p = .none) : Blank t name
  | forwards {name child : String} (h : t.Forwards name child) (hc : Blank t child) : Blank t name

/-- No required field of a struct can be read as null. -/
def Solid (t : TypeTable) (name : String) : Prop :=
  ∀ s, t.struct? name = some s → ∀ f ∈ s.fields, f.required = true → f.array = false →
    ¬ t.Blank f.typeName

theorem not_blank_primitive {name : String} {p : Primitive}
    (hr : t.resolve? name = some (.primitive p)) (hp : p ≠ .buffer ∧ p ≠ .none) :
    ¬ t.Blank name := by
  intro h
  cases h with
  | primitive hr' hp' =>
    cases hr.symm.trans hr'
    exact hp'.elim hp.1 hp.2
  | forwards h _ =>
    obtain ⟨d, hd, -⟩ := h.mem_needs
    cases hr.symm.trans hd

section Default

variable {name : String}

theorem defaultValue_primitive {p : Primitive} (hr : t.resolve? name = some (.primitive p)) :
    t.defaultValue name = p.defaultValue := by
  have hself : t.unalias name = name := unalias_self fun d target hd => by
    cases hr.symm.trans hd
  rw [defaultValue, hself, hr]

theorem defaultValue_alias (hfin : t.Finite) {d : Declaration} {target : String}
    (hr : t.resolve? name = some (.declared d)) (hb : d.body = .alias target) :
    t.defaultValue name = t.defaultValue target := by
  rw [defaultValue, defaultValue, unalias_alias hfin hr hb]

theorem defaultValue_declared {d : Declaration} (hr : t.resolve? name = some (.declared d))
    (hb : ∀ target, d.body ≠ .alias target) : t.defaultValue name = .null := by
  have hself : t.unalias name = name := unalias_self fun d' target hd' => by
    cases hr.symm.trans hd'
    exact hb target
  rw [defaultValue, hself, hr]

/-- Null is the default of a type that may be read as null. -/
theorem Blank.defaultValue_eq (hfin : t.Finite) (h : t.Blank name) :
    t.defaultValue name = .null := by
  induction h with
  | primitive hr hp =>
    rw [defaultValue_primitive hr]
    rcases hp with rfl | rfl <;> rfl
  | forwards h _ ih =>
    cases h with
    | target hd hb => rw [defaultValue_alias hfin hd hb, ih]
    | latest hd hb _ => exact defaultValue_declared hd (by simp [hb])

end Default

/-! ## Types -/

/-- What lets the values of a type be written again after they were read, as far as its own
declaration goes: it is not external, not `raw` and not `float32`, the names of a struct's fields
are distinct, the latest shape of a versioned type is not migrated, and the items of arrays are not
empty. -/
structure Reproducible (t : TypeTable) (b : Bindings) (name : String) : Prop where
  portable : t.Portable name
  double : t.resolve? name ≠ some (.primitive .float32)
  distinct : ∀ s, t.struct? name = some s → s.Distinct
  fields : ∀ s, t.struct? name = some s → ∀ f ∈ s.fields, f.array = true →
    t.FilledItems b f.typeName
  items : ∀ d element, t.resolve? name = some (.declared d) → d.body = .array element →
    t.FilledItems b element

/-- What can be read back can be written again, `float32` apart. -/
theorem Restorable.reproducible {name : String} (h : t.Restorable b name)
    (hdouble : t.resolve? name ≠ some (.primitive .float32)) : t.Reproducible b name := by
  have hstruct (s : StructBody) (hs : t.struct? name = some s) :
      s.Distinct ∧ ∀ f ∈ s.fields, f.array = true → t.FilledItems b f.typeName := by
    obtain ⟨d, hd, hb⟩ := struct?_eq_some.mp hs
    simpa only [Restorable, hd, hb] using h
  refine ⟨h.portable, hdouble, fun s hs => (hstruct s hs).1, fun s hs => (hstruct s hs).2, ?_⟩
  intro d element hd hb
  simpa only [Restorable, hd, hb] using h

theorem FilledItems.not_yields {element : String} (h : t.FilledItems b element)
    (hframed : t.isFrameable element = false) (u : Value) :
    ¬ (t.typeCodec b element).Yields u [] := by
  intro hy
  rcases h with h | h
  · rw [hframed] at h
    cases h
  · exact h u (Codec.encode_of_yields hy)

theorem blank_of_norm {p : Primitive} {v : Value} (h : p.norm v = .ok .null) :
    p = .buffer ∨ p = .none := by
  cases p with
  | buffer => exact .inl rfl
  | none => exact .inr rfl
  | json => cases h
  | hex =>
    obtain ⟨s, -, h⟩ := ok_of_bind h
    split at h <;> cases h
  | _ => obtain ⟨_, -, ⟨⟩⟩ := ok_of_bind h

/-- What is read from the bytes of a primitive value is written as the same bytes. -/
theorem settles_primitive {p : Primitive} (hraw : p ≠ .raw) (hdouble : p ≠ .float32) {v : Value}
    (hj : p = .json → v.toJson.Plain ∧ v.toJson.depth ≤ 127) (solid : Prop) :
    p.codec.Settles (fun _ => True) (p = .buffer ∨ p = .none) solid v := by
  intro bytes hfits hy rest w k hp
  obtain ⟨w', hw, hback⟩ := restores_primitive hraw hj bytes hfits hy
  cases (hback rest).symm.trans hp
  obtain ⟨ps, hps, rfl⟩ := Primitive.pieces_of_yields hy
  obtain ⟨qs, hqs, hflat⟩ := Primitive.pieces_norm hdouble hps hw
  have hagain := Primitive.yields_codec hqs
  rw [hflat] at hagain
  refine ⟨rfl, ⟨fun _ => ⟨_, hagain, fun _ => hback⟩, fun h => absurd trivial h⟩, ?_,
    fun _ => trivial⟩
  rintro rfl
  exact blank_of_norm hw

theorem reproduces_default_primitive {p : Primitive} (hraw : p ≠ .raw) (hdouble : p ≠ .float32)
    (hnull : p.defaultValue ≠ .null) : p.codec.Reproduces True p.defaultValue := by
  obtain ⟨ps, hps, hnorm⟩ := Primitive.pieces_defaultValue hdouble hnull
  have hy := Primitive.yields_codec hps
  refine ⟨fun _ => ⟨_, hy, fun hfits => ?_⟩, fun h => absurd trivial h⟩
  obtain ⟨w, hw, hback⟩ := restores_primitive hraw (fun hp => absurd (by rw [hp]; rfl) hnull)
    _ hfits hy
  cases hw.symm.trans hnorm
  exact hback

section Layer

variable {framed : Bool} {name : String} {v : Value}

theorem Portable.not_raw {p : Primitive} (h : t.Portable name)
    (hr : t.resolve? name = some (.primitive p)) : p ≠ .raw := by
  simpa only [Portable, hr] using h

theorem Throughout.reproducible_closed (h : t.Throughout (t.Reproducible b) name) :
    t.Throughout (t.IsClosed b) name := (h.imp fun _ ho => ho.portable).closed

/-- The default of a type, where it is not null, is written and read back as itself. -/
theorem reproduces_default (hs : t.Sound) (hT : t.Throughout (t.Reproducible b) name)
    (hnull : t.defaultValue name ≠ .null) :
    (t.typeCodec b name).Reproduces True (t.defaultValue name) := by
  -- along the aliases, whose defaults are those of their targets
  induction hrank : t.rank name using Nat.strong_induction_on generalizing name with
  | _ n ih =>
  have hlayer : (t.codecLayer b (t.typeCodec b) name).Reproduces True (t.defaultValue name) := by
    cases hr : t.resolve? name with
    | none =>
      have hself : t.unalias name = name := unalias_self fun d target hd => by
        cases hr.symm.trans hd
      exact absurd (by rw [defaultValue, hself, hr]) hnull
    | some target =>
      cases target with
      | primitive p =>
        rw [defaultValue_primitive hr] at hnull ⊢
        rw [layer_primitive hr]
        exact reproduces_default_primitive (hT.here.portable.not_raw hr)
          (fun hp => hT.here.double (hp ▸ hr)) hnull
      | declared d =>
        by_cases hb : ∃ target, d.body = .alias target
        · obtain ⟨target, hb⟩ := hb
          have hlt : t.rank target < t.rank name := rank_lt hs.finite
            (resolve?_eq_declared.mp hr).2 (by simp [Declaration.needs, hb])
          rw [defaultValue_alias hs.finite hr hb] at hnull ⊢
          rw [layer_alias hr hb]
          exact ih _ (hrank ▸ hlt) (hT.child hr (Declaration.mem_refNames_alias hb)) hnull rfl
        · exact absurd (defaultValue_declared hr fun target h => hb ⟨target, h⟩) hnull
  exact hlayer.congr (samePasses_typeCodec_layer hs.finite name _)
    (parse_typeCodec hs.finite hT.reproducible_closed)

/-- What the fields of a struct that were not written are read as is written again. -/
theorem idle_layout (hs : t.Sound) {d : Declaration} {s : StructBody}
    (hT : ∀ f ∈ s.fields, t.Throughout (t.Reproducible b) f.typeName) :
    (t.layout d.fqn s).Idle
      (fun step => (t.typeCodec b step.typeName).member step.framed step.array)
      (fun step x => ∀ u, x.Part step.array u → t.Filled step.framed step.typeName u)
      (fun step => step.array = false ∧ t.Blank step.typeName) where
  null _ _ _ hu := filled_part_atom (show Value.null.IsAtom from trivial) hu
  bool _ _ x _ hu := filled_part_atom (show (Value.bool x).IsAtom from trivial) hu
  blank step hstep hblank := by
    obtain ⟨f, -, flag, rfl⟩ := mem_steps hstep
    obtain ⟨harray, hblank⟩ := hblank
    rw [← hblank.defaultValue_eq hs.finite]
    exact if_neg (by rw [show f.array = false from harray]; decide)
  default step hstep hnull := by
    obtain ⟨f, hf, flag, rfl⟩ := mem_steps hstep
    have hatom : (t.fieldStep f flag).default.IsAtom := t.isAtom_absent f
    have hfilled (u : Value) (hu : (t.fieldStep f flag).default.Part f.array u) :
        t.Filled (t.isFrameable f.typeName) f.typeName u := filled_part_atom hatom hu
    refine ⟨hfilled, ?_⟩
    cases harray : f.array with
    | true => exact absurd (if_pos harray) hnull
    | false =>
      have hdefault : (t.fieldStep f flag).default = t.defaultValue f.typeName :=
        if_neg (by rw [harray]; decide)
      rw [hdefault] at hnull ⊢
      have hagain := Codec.reproduces_member (confined_typeCodec (hT f hf).reproducible_closed)
        (reproduces_default hs (hT f hf) hnull) (t.isFrameable f.typeName)
      rw [← harray] at hagain
      exact hagain.imp ⟨fun _ => hdefault ▸ hfilled, fun _ => trivial⟩

/-- A struct settles a value when its fields are settled. -/
theorem settles_struct (hs : t.Sound) {d : Declaration} {s : StructBody}
    (hr : t.resolve? name = some (.declared d)) (hb : d.body = .struct s)
    (hT : t.Throughout (t.Reproducible b) name)
    (hpassed : ∀ framed' c u, t.Passes framed name v framed' c u →
      (t.typeCodec b c).Settles (t.Filled framed' c) (t.Blank c) (t.Throughout t.Solid c) u) :
    ((t.layout d.fqn s).codec fun step =>
      (t.typeCodec b step.typeName).member step.framed step.array).Settles (t.Filled framed name)
        (t.Blank name) (t.Throughout t.Solid name) v := by
  have hstruct : t.struct? name = some s := struct?_eq_some.mpr ⟨d, hr, hb⟩
  have hchild {f : Field} (hf : f ∈ s.fields) : t.Throughout (t.Reproducible b) f.typeName :=
    hT.child hr (Declaration.mem_refNames_of_field hb hf)
  have hreg {f : Field} (hf : f ∈ s.fields) : (t.typeCodec b f.typeName).Regular :=
    regular_typeCodec (hchild hf).reproducible_closed
  have hconf {f : Field} (hf : f ∈ s.fields) : Confined (t.typeCodec b f.typeName).read :=
    confined_typeCodec (hchild hf).reproducible_closed
  have hmember (fields : Fields) (hv : v.toFields = .ok fields) (step : FieldStep)
      (hstep : step ∈ (t.layout d.fqn s).steps) :
      ((t.typeCodec b step.typeName).member step.framed step.array).Settles
        (fun x => ∀ u, x.Part step.array u → t.Filled step.framed step.typeName u)
        (step.array = false ∧ t.Blank step.typeName) (t.Throughout t.Solid step.typeName)
        (fields.get step.name) := by
    obtain ⟨f, hf, flag, rfl⟩ := mem_steps hstep
    exact Codec.settles_member (hreg hf) (hconf hf)
      (fun harray hframed => (hT.here.fields s hstruct f hf harray).not_yields hframed)
      fun u hu => hpassed _ _ u (.into (.field hr hb hv hf hu))
  refine (RecordLayout.settles_record
    (layout_sound hs (mem_of_resolve? hr).1 hb (hT.here.distinct s hstruct))
    (fun step hstep => ?_) (fun step hstep => ?_) hmember (idle_layout hs fun f => hchild)).imp
    (fun w => filled_struct hr hb) False.elim fun hsolid step hstep => ?_
  all_goals obtain ⟨f, hf, flag, rfl⟩ := mem_steps hstep
  · exact Codec.regular_member (hreg hf) _ _
  · exact Codec.confined_member (hconf hf) _ _
  · refine ⟨hsolid.child hr (Declaration.mem_refNames_of_field hb hf), fun ho hblank => ?_⟩
    exact hsolid.here s hstruct f hf (by simpa [fieldStep] using ho) hblank.1 hblank.2

/-- A layer settles a value when what it passes on is settled. -/
theorem settles_layer (hs : t.Sound) (hT : t.Throughout (t.Reproducible b) name)
    (hpassed : ∀ framed' c u, t.Passes framed name v framed' c u →
      (t.typeCodec b c).Settles (t.Filled framed' c) (t.Blank c) (t.Throughout t.Solid c) u)
    (hj : t.PlainJson framed name v) :
    (t.codecLayer b (t.typeCodec b) name).Settles (t.Filled framed name) (t.Blank name)
      (t.Throughout t.Solid name) v := by
  cases hr : t.resolve? name with
  | none =>
    rw [layer_unknown hr]
    exact fun _ _ hy => ((barren_throw _).not_yields hy).elim
  | some target =>
    cases target with
    | primitive p =>
      rw [layer_primitive hr]
      refine (settles_primitive (hT.here.portable.not_raw hr) (fun hp => hT.here.double (hp ▸ hr))
        (fun hp => hj framed name v (.here framed name v) (hp ▸ hr)) _).imp
        (fun w => ⟨fun _ => ?_, fun _ => trivial⟩) (.primitive hr) id
      exact filled_of_undeclared (by simp [hr])
    | declared d =>
      obtain ⟨hmem, -⟩ := mem_of_resolve? hr
      have hchild {c : String} (hc : c ∈ d.refNames) : t.Throughout (t.Reproducible b) c :=
        hT.child hr hc
      have hreg {c : String} (hc : c ∈ d.refNames) : (t.typeCodec b c).Regular :=
        regular_typeCodec (hchild hc).reproducible_closed
      have hconf {c : String} (hc : c ∈ d.refNames) : Confined (t.typeCodec b c).read :=
        confined_typeCodec (hchild hc).reproducible_closed
      cases hb : d.body with
      | «alias» target =>
        rw [layer_alias hr hb]
        exact (hpassed framed target v (.along (.target hr hb))).imp
          (fun w => filled_alias hr hb) (.forwards (.target hr hb))
          fun hsolid => hsolid.child hr (Declaration.mem_refNames_alias hb)
      | enum e =>
        rw [layer_enum hr hb]
        exact (Choice.settles_choice _ v _).imp
          (fun w => ⟨fun _ => filled_enum hr hb, fun _ => trivial⟩) False.elim id
      | struct s =>
        rw [layer_struct hr hb]
        exact settles_struct hs hr hb hT hpassed
      | array element =>
        have href := Declaration.mem_refNames_array hb
        rw [layer_array hr hb]
        exact (Codec.settles_member (hreg href) (hconf href)
          (fun _ hframed => (hT.here.items d element hr hb).not_yields hframed)
          fun u hu => hpassed _ _ u (.into (.item hr hb hu))).imp (fun w => filled_array hr hb)
          (fun hblank => absurd hblank.1 (by decide)) fun hsolid => hsolid.child hr href
      | versioned entries =>
        have href {e : VersionEntry} (he : e ∈ entries) : e.typeName ∈ d.refNames :=
          Declaration.mem_refNames_of_entry hb he
        have hmap := hT.here.portable
        simp only [Portable, hr, hb] at hmap
        rw [layer_versioned hr hb]
        refine (Codec.settles_tagged (fun e he => hreg (href he)) (fun e he => hconf (href he))
          (hs.ascending hmem hb) fun e he =>
            ⟨hmap e he, hpassed framed e.typeName v (.along (.latest hr hb he))⟩).imp
          (fun w => filled_versioned hr hb) ?_
          fun hsolid e he => hsolid.child hr (href (Codec.latestEntry_mem he))
        rintro ⟨e, he, hblank⟩
        exact .forwards (.latest hr hb he) hblank
      | external symbol => exact absurd hb (hT.here.portable.not_external hr)

/-- What is read from the bytes of a value is written again if it has its required fields, and is
then read as itself. -/
theorem settles_typeCodec (hs : t.Sound) (hT : t.Throughout (t.Reproducible b) name)
    (hj : t.PlainJson framed name v) :
    (t.typeCodec b name).Settles (t.Filled framed name) (t.Blank name) (t.Throughout t.Solid name)
      v := by
  induction hn : t.enough name v.depth using Nat.strong_induction_on generalizing framed name v with
  | _ n ih =>
  refine (settles_layer hs hT (fun framed' c u hp => ?_) hj).congr
    (samePasses_typeCodec_layer hs.finite name) (parse_typeCodec hs.finite hT.reproducible_closed)
  exact ih _ (hn ▸ hp.enough_lt hs.finite) (hT.passes hp) (hj.passes hp) rfl

end Layer

end TypeTable

end WireSchema
