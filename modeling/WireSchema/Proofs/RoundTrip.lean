import WireSchema.Proofs.Layout
import WireSchema.Proofs.NormalForm

/-!
# What is written is read back

A value that was written is read back as its normal form, up to the last byte that was written and
whatever stands behind it (`readsBack_of_yields`).  The proof goes along the depth to which the
writer was built; what one layer asks of the layers below it is the same statement for the types
that the declaration names.
-/

namespace WireSchema

open CursorM

/-! ## Members -/

namespace Codec

variable {c c' : Codec} {g : Value → Except CodecError Value}

/-- What a writer yields for a value is read back as the value's normal form. -/
def Restores (c c' : Codec) (g : Value → Except CodecError Value) (v : Value) : Prop :=
  ∀ b : Bytes, b.Fits → c.Yields v b → ∃ w, g v = .ok w ∧ c'.ReadsBack b w

theorem restores_frame (hc : c.Regular) (hc' : Confined c'.read) {v : Value}
    (h : Restores c c' g v) : Restores c.frame c'.frame g v := by
  intro bytes hfits hy
  obtain ⟨b, rfl, hb⟩ := frame_yields_inv hc hy
  obtain ⟨w, hw, hback⟩ := h b hfits.right hb
  refine ⟨w, hw, fun s => ?_⟩
  have halone := hback []
  rw [List.append_nil] at halone
  rw [parse_frame_append hc' hfits.right, halone]
  rfl

theorem readsItems_of_yields {items : List Value} {bs : List Bytes} (h : YieldsItems c items bs)
    (hfits : Bytes.Fits bs.flatten) (hr : ∀ u ∈ items, Restores c c' g u)
    (hpos : ∀ u ∈ items, ¬ c.Yields u []) :
    ∃ ws, items.mapM g = .ok ws ∧ ws.length = items.length ∧ ReadsItems c' bs ws := by
  induction h with
  | nil => exact ⟨[], rfl, rfl, .nil⟩
  | @cons u b items bs head _ ih =>
    rw [List.flatten_cons] at hfits
    obtain ⟨ws, hws, hlen, htail⟩ := ih hfits.right (fun u hu => hr u (List.mem_cons_of_mem _ hu))
      fun u hu => hpos u (List.mem_cons_of_mem _ hu)
    obtain ⟨w, hw, hback⟩ := hr u List.mem_cons_self b hfits.left head
    have hne : b ≠ [] := fun hb => hpos u List.mem_cons_self (hb ▸ head)
    refine ⟨w :: ws, ?_, congrArg (· + 1) hlen, .cons hback hne htail⟩
    rw [List.mapM_cons, hw, ok_bind, hws]
    rfl

theorem restores_sequence (hc : c.Regular) (hc' : Confined c'.read) {v : Value}
    (hr : ∀ u, v.Part true u → Restores c c' g u) (hpos : ∀ u, v.Part true u → ¬ c.Yields u []) :
    Restores c.sequence c'.sequence (Value.eachPart true g) v := by
  intro bytes hfits hy
  obtain ⟨items, bs, hv, rfl, hbs⟩ := sequence_yields_inv hc hy
  obtain ⟨ws, hws, hlen, hback⟩ := readsItems_of_yields hbs hfits.right
    (fun u hu => hr u (.of_item hv hu)) fun u hu => hpos u (.of_item hv hu)
  refine ⟨.array ws, ?_, ?_⟩
  · rw [Value.eachPart, if_pos rfl, hv, ok_bind, hws]
    rfl
  · rw [← hlen]
    exact parse_sequence_append hc' hback (Nat.lt_of_le_of_lt hback.length_le hfits.right)

/-- A field, or an array field item by item, is read back when its type is. -/
theorem restores_member (hc : c.Regular) (hc' : Confined c'.read) {v : Value} {framed array : Bool}
    (hr : ∀ u, v.Part array u → Restores c c' g u)
    (hpos : array = true → framed = false → ∀ u, v.Part array u → ¬ c.Yields u []) :
    Restores (c.member framed array) (c'.member framed array) (Value.eachPart array g) v := by
  have helement (u : Value) (hu : v.Part array u) :
      Restores (if framed then c.frame else c) (if framed then c'.frame else c') g u := by
    split
    · exact restores_frame hc hc' (hr u hu)
    · exact hr u hu
  cases array with
  | false => exact helement v rfl
  | true =>
    refine restores_sequence ?_ ?_ helement fun u hu => ?_
    · split
      · exact regular_frame hc
      · exact hc
    · split
      · exact confined_frame hc'
      · exact hc'
    · cases framed with
      | false => exact hpos rfl rfl u hu
      | true => exact not_yields_frame hc u

end Codec

/-! ## Structs -/

namespace TypeTable

variable {t : TypeTable} {b : Bindings}

/-- The fields that were written are read back as their normal forms, with the flags and the
defaults standing in for the rest. -/
theorem readsSteps_of_yields {child : String → Value → Except CodecError Value}
    {member member' : FieldStep → Codec} {flags : Nat} {fields : Fields} {fs : List (Field × Nat)}
    {bs : List Bytes}
    (hy : RecordLayout.YieldsSteps member flags fields (fs.map fun p => t.fieldStep p.1 p.2) bs)
    (hfits : ∀ x ∈ bs, x.Fits)
    (hwritten : ∀ p ∈ fs, (t.fieldStep p.1 p.2).isWritten flags =
      (!(t.fieldStep p.1 p.2).flagOnly && (fields.get p.1.name).isPresent))
    (hflag : ∀ p ∈ fs, (t.fieldStep p.1 p.2).flagOnly = true →
      decide (flags &&& p.2 ≠ 0) = (fields.get p.1.name).isTrue)
    (hr : ∀ p ∈ fs, Codec.Restores (member (t.fieldStep p.1 p.2)) (member' (t.fieldStep p.1 p.2))
      (Value.eachPart p.1.array (child p.1.typeName)) (fields.get p.1.name)) :
    ∃ ws, t.normFields child fields (fs.map Prod.fst) =
        .ok (RecordLayout.heldFields flags (fs.map fun p => t.fieldStep p.1 p.2) ws) ∧
      ∀ position more i, RecordLayout.ReadsSteps member' position flags more i
        (fs.map fun p => t.fieldStep p.1 p.2) bs ws := by
  induction fs generalizing bs with
  | nil =>
    cases hy
    exact ⟨[], rfl, fun _ _ _ => .nil⟩
  | cons p rest ih =>
    have hw := hwritten p List.mem_cons_self
    have hf := hflag p List.mem_cons_self
    have hrest {bs' : List Bytes} (hy' : RecordLayout.YieldsSteps member flags fields
        (rest.map fun p => t.fieldStep p.1 p.2) bs') (hfits' : ∀ x ∈ bs', x.Fits) :=
      ih hy' hfits' (fun q hq => hwritten q (List.mem_cons_of_mem _ hq))
        (fun q hq => hflag q (List.mem_cons_of_mem _ hq))
        fun q hq => hr q (List.mem_cons_of_mem _ hq)
    have hflagOnly : (t.fieldStep p.1 p.2).flagOnly = (!p.1.array && t.isBool p.1.typeName) := rfl
    cases hy with
    | written hs head tail =>
      rw [hs] at hw
      obtain ⟨ws, htable, hsteps⟩ := hrest tail
        fun x hx => hfits x (List.mem_cons_of_mem _ hx)
      obtain ⟨w, hnorm, hback⟩ := hr p List.mem_cons_self _ (hfits _ List.mem_cons_self) head
      obtain ⟨honly, hpresent⟩ : (t.fieldStep p.1 p.2).flagOnly = false ∧
          (fields.get p.1.name).isPresent = true := by simpa using hw.symm
      have hfield : t.normField child p.1 (fields.get p.1.name) = .ok w := by
        rw [normField, ← hflagOnly, honly, if_neg (by decide), if_pos hpresent, hnorm]
      have hheld : RecordLayout.heldValue flags (t.fieldStep p.1 p.2) (some w) = w := by
        rw [RecordLayout.heldValue, honly]
        rfl
      refine ⟨some w :: ws, ?_, fun _ _ _ => .written hs (hback _) (hsteps _ _ _)⟩
      rw [List.map_cons, normFields, hfield, ok_bind, htable, List.map_cons,
        RecordLayout.heldFields_cons, hheld]
      rfl
    | skipped hs tail =>
      rw [hs] at hw
      obtain ⟨ws, htable, hsteps⟩ := hrest tail
        fun x hx => hfits x (List.mem_cons_of_mem _ hx)
      have hfield : t.normField child p.1 (fields.get p.1.name) =
          .ok (RecordLayout.heldValue flags (t.fieldStep p.1 p.2) none) := by
        rw [normField, RecordLayout.heldValue, ← hflagOnly]
        cases honly : (t.fieldStep p.1 p.2).flagOnly with
        | true => rw [if_pos rfl, if_pos rfl, ← hf honly]; rfl
        | false =>
          rw [honly] at hw
          have habsent : (fields.get p.1.name).isPresent = false := by simpa using hw.symm
          rw [habsent]
          rfl
      refine ⟨none :: ws, ?_, fun _ _ _ => .skipped hs (hsteps _ _ _)⟩
      rw [List.map_cons, normFields, hfield, ok_bind, htable]
      rfl

/-- A struct of a sound table is read back when its fields are. -/
theorem restores_struct (hs : t.Sound) {d : Declaration} (hd : d ∈ t) {s : StructBody}
    (hb : d.body = .struct s) (hdistinct : s.Distinct)
    {child : String → Value → Except CodecError Value} {member member' : FieldStep → Codec}
    (hreg : ∀ step ∈ (t.layout d.fqn s).steps, (member step).Regular)
    (hc : ∀ step ∈ (t.layout d.fqn s).steps, Confined (member' step).read) {v : Value}
    (hr : ∀ fields, v.toFields = .ok fields → ∀ f ∈ s.fields, ∀ flag,
      Codec.Restores (member (t.fieldStep f flag)) (member' (t.fieldStep f flag))
        (Value.eachPart f.array (child f.typeName)) (fields.get f.name)) :
    Codec.Restores ((t.layout d.fqn s).codec member) ((t.layout d.fqn s).codec member')
      (fun v => do
        let fields ← v.toFields
        return .struct (Assoc.ofList (← t.normFields child fields s.fields))) v := by
  intro bytes hfits hy
  have hl := layout_sound hs hd hb hdistinct
  obtain ⟨fields, bs, hv, hreq, rfl, hbs⟩ := RecordLayout.record_yields_inv hreg hy
  have hmem {p : Field × Nat} (hp : p ∈ StructBody.assignFlags 0 s.fields) :
      t.fieldStep p.1 p.2 ∈ (t.layout d.fqn s).steps := List.mem_map.mpr ⟨p, hp, rfl⟩
  have hflag : ∀ p ∈ StructBody.assignFlags 0 s.fields, (t.fieldStep p.1 p.2).flagOnly = true →
      decide ((t.layout d.fqn s).flags fields &&& p.2 ≠ 0) = (fields.get p.1.name).isTrue := by
    intro p hp honly
    have hopt : (t.fieldStep p.1 p.2).optional = true := by
      by_contra hno
      have := hl.written _ (hmem hp) (by simpa using hno)
      rw [honly] at this
      cases this
    have hiff := RecordLayout.flags_and_ne_zero_iff hl.bits fields (hmem hp) hopt
    rw [FieldStep.isSet, honly, if_pos rfl] at hiff
    rw [Bool.eq_iff_iff, decide_eq_true_eq]
    exact hiff
  obtain ⟨ws, htable, hsteps⟩ := readsSteps_of_yields hbs
    (fun x hx => hfits.of_le (RecordLayout.length_le_stepBytes _ _ 0 hx))
    (fun p hp => hl.isWritten_eq hreq (hmem hp)) hflag
    fun p hp => hr fields hv p.1 (mem_assignFlags hp) p.2
  rw [StructBody.map_fst_assignFlags] at htable
  refine ⟨_, ?_, fun more =>
    RecordLayout.parse_record_append hl hc (hl.flags_lt fields) (hsteps _ _ _)⟩
  dsimp only
  rw [hv, ok_bind, htable]
  rfl

/-! ## Types -/

/-- Items of a type are framed, or none of its values is written as no bytes at all. -/
def FilledItems (t : TypeTable) (b : Bindings) (element : String) : Prop :=
  t.isFrameable element = true ∨ ∀ v, (t.typeCodec b element).encode v ≠ .ok []

/-- What lets the values of a type be carried over, as far as its own declaration goes: it is not
external and not `raw`, and the latest shape of a versioned type is not migrated. -/
def Portable (t : TypeTable) (name : String) : Prop :=
  match t.resolve? name with
  | none => True
  | some (.primitive p) => p ≠ .raw
  | some (.declared d) =>
    match d.body with
    | .versioned entries => ∀ e, Codec.latestEntry d.fqn entries = .ok e → e.map = none
    | .external _ => False
    | _ => True

theorem Portable.not_external {name : String} (h : t.Portable name) {d : Declaration}
    {symbol : String} (hr : t.resolve? name = some (.declared d)) :
    d.body ≠ .external symbol := by
  intro hb
  simp only [Portable, hr, hb] at h

theorem Portable.closed {name : String} (h : t.Portable name) : t.IsClosed b name :=
  fun _ _ hr hb => absurd hb (h.not_external hr)

theorem Throughout.closed {name : String} (hT : t.Throughout t.Portable name) :
    t.Throughout (t.IsClosed b) name :=
  hT.imp fun _ ho => ho.closed

/-- What lets the values of a type be read back, as far as its own declaration goes: it is not
external and not `raw`, the names of a struct's fields are distinct, the numbers of an enum are
numbers of 64 bits, the latest shape of a versioned type is not migrated, and the items of arrays
are not empty. -/
def Restorable (t : TypeTable) (b : Bindings) (name : String) : Prop :=
  match t.resolve? name with
  | none => True
  | some (.primitive p) => p ≠ .raw
  | some (.declared d) =>
    match d.body with
    | .alias _ => True
    | .enum e => Choice.Numbered ⟨d.fqn, e.keys, e.offset, e.strings⟩
    | .struct s => s.Distinct ∧ ∀ f ∈ s.fields, f.array = true → t.FilledItems b f.typeName
    | .array element => t.FilledItems b element
    | .versioned entries => ∀ e, Codec.latestEntry d.fqn entries = .ok e → e.map = none
    | .external _ => False

theorem Restorable.portable {name : String} (h : t.Restorable b name) : t.Portable name := by
  unfold Restorable at h
  unfold Portable
  split at h
  · trivial
  · exact h
  · rename_i d _
    cases hb : d.body <;> rw [hb] at h <;> trivial

/-- The values of a struct are read back when its names are distinct and its arrays hold framed
items. -/
theorem restorable_struct {name : String} {d : Declaration} {s : StructBody}
    (hd : t.resolve? name = some (.declared d)) (hb : d.body = .struct s) (hdistinct : s.Distinct)
    (hframed : ∀ f ∈ s.fields, f.array = true → t.isFrameable f.typeName = true) :
    t.Restorable b name := by
  simp only [Restorable, hd, hb]
  exact ⟨hdistinct, fun f hf ha => .inl (hframed f hf ha)⟩

theorem readsBack_typeCodec (hfin : t.Finite) {name : String} (h : t.Throughout (t.IsClosed b) name)
    {bytes : Bytes} {w : Value} (hback : (t.codecLayer b (t.typeCodec b) name).ReadsBack bytes w) :
    (t.typeCodec b name).ReadsBack bytes w := fun s => by
  rw [parse_typeCodec hfin h, hback]

theorem restores_primitive {p : Primitive} (hraw : p ≠ .raw) {v : Value}
    (hj : p = .json → v.toJson.Plain ∧ v.toJson.depth ≤ 127) :
    Codec.Restores p.codec p.codec p.norm v := by
  intro bytes hfits hy
  obtain ⟨ps, hps, rfl⟩ := Primitive.pieces_of_yields hy
  by_cases hjson : p = .json
  · subst hjson
    cases hps
    obtain ⟨hplain, hdepth⟩ := hj rfl
    refine ⟨.json v.toJson, rfl, fun s => ?_⟩
    have hp := Primitive.parse_pieces_json hfits s
    rw [Json.parse_compact hplain hdepth] at hp
    exact hp
  · obtain ⟨w, hw, -⟩ := Primitive.parse_pieces hraw hjson hps hfits []
    refine ⟨w, hw, fun s => ?_⟩
    obtain ⟨w', hw', hp⟩ := Primitive.parse_pieces hraw hjson hps hfits s
    rw [← Except.ok.inj (hw'.symm.trans hw)]
    exact hp

theorem restores_choice {e : Choice} (hn : e.Numbered) (v : Value) :
    Codec.Restores e.codec e.codec e.norm v := by
  intro bytes hfits hy
  obtain ⟨w, hw, -⟩ := Choice.parse_choice hn hy hfits []
  refine ⟨w, hw, fun s => ?_⟩
  obtain ⟨w', hw', hp⟩ := Choice.parse_choice hn hy hfits s
  rw [← Except.ok.inj (hw'.symm.trans hw)]
  exact hp

theorem restores_tagged {fqn : String} {entries : List VersionEntry}
    {payload payload' : VersionEntry → Codec} {migration : String → Option (Value → Value)}
    {child : String → Value → Except CodecError Value} {v : Value}
    (hreg : ∀ e ∈ entries, (payload e).Regular)
    (hc : ∀ e ∈ entries, Confined (payload' e).read) (hasc : Codec.Ascending entries)
    (hr : ∀ e, Codec.latestEntry fqn entries = .ok e →
      e.map = none ∧ Codec.Restores (payload e) (payload' e) (child e.typeName) v) :
    Codec.Restores (.tagged fqn entries payload migration) (.tagged fqn entries payload' migration)
      (fun v => do
        let e ← Codec.latestEntry fqn entries
        child e.typeName v) v := by
  intro bytes hfits hy
  obtain ⟨e, x, he, rfl, hx⟩ := Codec.tagged_yields_inv hreg hy
  have hmem := Codec.latestEntry_mem he
  obtain ⟨hmap, hr⟩ := hr e he
  obtain ⟨w, hw, hback⟩ := hr x hfits.right hx
  refine ⟨w, ?_, fun s => ?_⟩
  · dsimp only
    rw [he, ok_bind, hw]
  have htag := Varint.parse_varint_append e.version.toNat_lt (x ++ s)
  rw [← Varint.length_bytes] at htag
  rw [List.append_assoc, Codec.parse_tagged hc htag (Codec.entryOfTag_of_mem hasc hmem),
    List.drop_left, parse_bind_ok (hc e hmem) (fun _ => confined_ofExcept _) (hback s),
    Codec.migrate, hmap, List.length_append]
  rfl

section Layer

variable {child : String → Codec} {framed : Bool} {name : String} {v : Value}

/-- A layer is read back when what it passes on is, and nothing that it writes as an item without a
frame is empty. -/
theorem restores_layer (hs : t.Sound) (hself : t.Restorable b name)
    (hreg : ∀ d c, t.resolve? name = some (.declared d) → c ∈ d.refNames → (child c).Regular)
    (hconf : ∀ d c, t.resolve? name = some (.declared d) → c ∈ d.refNames →
      Confined (t.typeCodec b c).read)
    (hencode : ∀ framed' c u bytes, t.Passes framed name v framed' c u →
      (child c).Yields u bytes → (t.typeCodec b c).encode u = .ok bytes)
    (hpassed : ∀ framed' c u, t.Passes framed name v framed' c u →
      Codec.Restores (child c) (t.typeCodec b c) (t.norm c) u)
    (hj : t.PlainJson framed name v) :
    Codec.Restores (t.codecLayer b child name) (t.codecLayer b (t.typeCodec b) name)
      (t.normLayer t.norm name) v := by
  cases hr : t.resolve? name with
  | none =>
    rw [layer_unknown hr]
    exact fun _ _ hy => ((barren_throw _).not_yields hy).elim
  | some target =>
    cases target with
    | primitive p =>
      simp only [Restorable, hr] at hself
      rw [layer_primitive hr, layer_primitive hr, normLayer_primitive hr]
      exact restores_primitive hself fun hp => hj framed name v (.here framed name v) (hp ▸ hr)
    | declared d =>
      obtain ⟨hmem, -⟩ := mem_of_resolve? hr
      -- an item that is not framed is not empty
      have hfilled {framed' : Bool} {element : String} {u : Value}
          (hp : t.Passes framed name v framed' element u) (hel : t.FilledItems b element)
          (hframed : t.isFrameable element = false) : ¬ (child element).Yields u [] := by
        intro hempty
        rcases hel with hel | hel
        · rw [hframed] at hel
          cases hel
        · exact hel u (hencode framed' element u [] hp hempty)
      cases hb : d.body with
      | «alias» target =>
        rw [layer_alias hr hb, layer_alias hr hb, normLayer_alias hr hb]
        exact hpassed framed target v (.along (.target hr hb))
      | enum e =>
        rw [layer_enum hr hb, layer_enum hr hb, normLayer_enum hr hb]
        simp only [Restorable, hr, hb] at hself
        exact restores_choice hself v
      | struct s =>
        have hname {step : FieldStep} (hstep : step ∈ (t.layout d.fqn s).steps) :
            step.typeName ∈ d.refNames := by
          obtain ⟨f, hf, flag, rfl⟩ := mem_steps hstep
          exact Declaration.mem_refNames_of_field hb hf
        simp only [Restorable, hr, hb] at hself
        rw [layer_struct hr hb, layer_struct hr hb, normLayer_struct hr hb]
        refine restores_struct hs hmem hb hself.1
          (fun step hstep => Codec.regular_member (hreg d _ hr (hname hstep)) _ _)
          (fun step hstep => Codec.confined_member (hconf d _ hr (hname hstep)) _ _)
          fun fields hv f hf flag => ?_
        have href := Declaration.mem_refNames_of_field hb hf
        exact Codec.restores_member (hreg d _ hr href) (hconf d _ hr href)
          (fun u hu => hpassed _ _ u (.into (.field hr hb hv hf hu))) fun harray hframed u hu =>
            hfilled (.into (.field hr hb hv hf hu)) (hself.2 f hf harray) hframed
      | array element =>
        simp only [Restorable, hr, hb] at hself
        have href := Declaration.mem_refNames_array hb
        rw [layer_array hr hb, layer_array hr hb, normLayer_array hr hb]
        exact Codec.restores_member (hreg d _ hr href) (hconf d _ hr href)
          (fun u hu => hpassed _ _ u (.into (.item hr hb hu))) fun _ hframed u hu =>
            hfilled (.into (.item hr hb hu)) hself hframed
      | versioned entries =>
        simp only [Restorable, hr, hb] at hself
        rw [layer_versioned hr hb, layer_versioned hr hb, normLayer_versioned hr hb]
        exact restores_tagged (fun e he => hreg d _ hr (Declaration.mem_refNames_of_entry hb he))
          (fun e he => hconf d _ hr (Declaration.mem_refNames_of_entry hb he))
          (hs.ascending hmem hb) fun e he =>
            ⟨hself e he, hpassed framed e.typeName v (.along (.latest hr hb he))⟩
      | external symbol => exact absurd hb (hself.portable.not_external hr)

/-- A value that was written is read back as its normal form, whatever stands behind it. -/
theorem readsBack_of_yields (hs : t.Sound) {n : Nat} (h : t.Throughout (t.Restorable b) name)
    (hn : t.enough name v.depth ≤ n) (hj : t.PlainJson framed name v) :
    Codec.Restores (t.codecWithin b n name) (t.typeCodec b name) (t.norm name) v := by
  induction n generalizing framed name v with
  | zero => unfold enough at hn; omega
  | succ n ih =>
    have hclosed : t.Throughout (t.IsClosed b) name := (h.imp fun _ ho => ho.portable).closed
    have hdeep {framed' : Bool} {c : String} {u : Value}
        (hp : t.Passes framed name v framed' c u) : t.enough c u.depth ≤ n :=
      Nat.le_of_lt_succ (Nat.lt_of_lt_of_le (hp.enough_lt hs.finite) hn)
    have hlayer := restores_layer hs h.here
      (fun d c hd hc => regular_codecWithin (b := b) (hclosed.child hd hc) n)
      (fun d c hd hc => confined_typeCodec (hclosed.child hd hc))
      (fun _ c u bytes hp hy =>
        Codec.encode_of_yields ((typeCodec_yields_iff hs.finite (hdeep hp)).mpr hy))
      (fun _ c u hp => ih (h.passes hp) (hdeep hp) (hj.passes hp)) hj
    intro bytes hfits hy
    obtain ⟨w, hw, hback⟩ := hlayer bytes hfits hy
    exact ⟨w, (norm_eq hs.finite name v).trans hw, readsBack_typeCodec hs.finite hclosed hback⟩

end Layer

end TypeTable

end WireSchema
