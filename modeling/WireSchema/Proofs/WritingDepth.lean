import WireSchema.Proofs.TypeCodec

/-!
# The depth of a codec in writing

Writing goes into a struct or an array, which makes the value less deep, or it passes to a type that
every value must hold.  So enough layers for the depth of a value measure and write it alike,
whatever stands below them (`samePasses_layersOver`), and the codec of a type measures and writes
like its own layer (`samePasses_typeCodec_layer`).  A function of a type and a value that goes the
same way is likewise its own layer, however deep it was unrolled (`unrolled_eq`).
-/

namespace WireSchema

open CursorM

/-! ## Depth of values -/

namespace Value

theorem depth_le_depthItems {v : Value} {items : List Value} (h : v ∈ items) :
    v.depth ≤ depthItems items := by
  induction items with
  | nil => cases h
  | cons x rest ih =>
    rw [depthItems]
    rcases List.mem_cons.mp h with rfl | h
    · exact Nat.le_max_left _ _
    · exact Nat.le_trans (ih h) (Nat.le_max_right _ _)

theorem depth_le_depthFields {fields : Fields} {p : String × Value} (h : p ∈ fields) :
    p.2.depth ≤ depthFields fields := by
  induction fields with
  | nil => cases h
  | cons q rest ih =>
    rw [depthFields]
    rcases List.mem_cons.mp h with rfl | h
    · exact Nat.le_max_left _ _
    · exact Nat.le_trans (ih h) (Nat.le_max_right _ _)

theorem mem_of_lookup {fields : Fields} {name : String} {v : Value}
    (h : fields.lookup name = some v) : (name, v) ∈ fields := by
  obtain ⟨before, after, rfl, -⟩ := List.lookup_eq_some_iff.mp h
  simp

/-- An item is less deep than its list. -/
theorem depth_lt_of_toItems {v item : Value} {items : List Value} (h : v.toItems = .ok items)
    (hi : item ∈ items) : item.depth < v.depth := by
  cases v with
  | array items' =>
    cases h
    rw [depth]
    have := depth_le_depthItems hi
    omega
  | _ => cases h

/-- A field is less deep than its struct. -/
theorem depth_get_lt {v : Value} {fields : Fields} (h : v.toFields = .ok fields) (name : String) :
    (fields.get name).depth < v.depth := by
  cases v with
  | struct fields' =>
    cases h
    rw [depth, Fields.get]
    cases hl : fields.lookup name with
    | none => exact Nat.succ_pos _
    | some u =>
      exact Nat.lt_succ_of_le (depth_le_depthFields (mem_of_lookup hl))
  | _ => cases h

end Value

/-! ## Passes that do not differ -/

namespace Codec

/-- Two codecs measure and write a value alike. -/
def SamePasses (c c' : Codec) (v : Value) : Prop :=
  c.reserve v = c'.reserve v ∧ c.write v = c'.write v

theorem SamePasses.yields_iff {c c' : Codec} {v : Value} (h : SamePasses c c' v) {b : Bytes} :
    c.Yields v b ↔ c'.Yields v b := by
  rw [Yields, Yields, h.1, h.2]

theorem SamePasses.encode_eq {c c' : Codec} {v : Value} (h : SamePasses c c' v) :
    c.encode v = c'.encode v := by
  rw [encode, encode, h.1, h.2]

theorem SamePasses.symm {c c' : Codec} {v : Value} (h : SamePasses c c' v) :
    SamePasses c' c v := ⟨h.1.symm, h.2.symm⟩

theorem SamePasses.trans {c c' c'' : Codec} {v : Value} (h : SamePasses c c' v)
    (h' : SamePasses c' c'' v) : SamePasses c c'' v := ⟨h.1.trans h'.1, h.2.trans h'.2⟩

theorem samePasses_frame {c c' : Codec} {v : Value} (h : SamePasses c c' v) :
    SamePasses c.frame c'.frame v := by
  constructor
  · simp only [frame, h.1]
  · simp only [frame, frameLength, measure, h.1, h.2]

theorem samePasses_items {c c' : Codec} {items : List Value}
    (h : ∀ v ∈ items, SamePasses c c' v) :
    c.reserveItems items = c'.reserveItems items ∧ c.writeItems items = c'.writeItems items := by
  induction items with
  | nil => exact ⟨rfl, rfl⟩
  | cons v rest ih =>
    obtain ⟨hr, hw⟩ := ih fun u hu => h u (List.mem_cons_of_mem _ hu)
    obtain ⟨hr', hw'⟩ := h v List.mem_cons_self
    exact ⟨by rw [reserveItems, reserveItems, hr, hr'], by rw [writeItems, writeItems, hw, hw']⟩

theorem samePasses_sequence {c c' : Codec} {v : Value}
    (h : ∀ items, v.toItems = .ok items → ∀ u ∈ items, SamePasses c c' u) :
    SamePasses c.sequence c'.sequence v := by
  unfold SamePasses sequence
  dsimp only
  cases hv : v.toItems with
  | error e => exact ⟨rfl, rfl⟩
  | ok items =>
    obtain ⟨hr, hw⟩ := samePasses_items (h items hv)
    rw [ofExcept_ok, pure_bind, pure_bind, pure_bind, pure_bind, hr, hw]
    exact ⟨rfl, rfl⟩

theorem samePasses_member {c c' : Codec} {v : Value} {array : Bool}
    (hone : array = false → SamePasses c c' v)
    (hall : array = true → ∀ items, v.toItems = .ok items → ∀ u ∈ items, SamePasses c c' u)
    (framed : Bool) : SamePasses (c.member framed array) (c'.member framed array) v := by
  have he (u : Value) (h : SamePasses c c' u) :
      SamePasses (if framed then c.frame else c) (if framed then c'.frame else c') u := by
    split
    · exact samePasses_frame h
    · exact h
  cases array with
  | false => exact he v (hone rfl)
  | true => exact samePasses_sequence fun items hv u hu => he u (hall rfl items hv u hu)

theorem samePasses_tagged {fqn : String} {entries : List VersionEntry}
    {payload payload' : VersionEntry → Codec} {migration : String → Option (Value → Value)}
    {v : Value} (h : ∀ e ∈ entries, SamePasses (payload e) (payload' e) v) :
    SamePasses (tagged fqn entries payload migration)
      (tagged fqn entries payload' migration) v := by
  unfold SamePasses tagged
  dsimp only
  cases he : latestEntry fqn entries with
  | error err => exact ⟨rfl, rfl⟩
  | ok e =>
    obtain ⟨hr, hw⟩ := h e (latestEntry_mem he)
    rw [ofExcept_ok, pure_bind, pure_bind, pure_bind, pure_bind, hr, hw]
    exact ⟨rfl, rfl⟩

end Codec

namespace RecordLayout

theorem putSteps_congr {position : Option Nat} {putFlags : CursorM Unit}
    {put put' : FieldStep → CursorM Unit} {steps : List FieldStep}
    (h : ∀ s ∈ steps, put s = put' s) (i : Nat) :
    putSteps position putFlags put i steps = putSteps position putFlags put' i steps := by
  induction steps generalizing i with
  | nil => rfl
  | cons s rest ih =>
    rw [putSteps_cons, putSteps_cons, h s List.mem_cons_self,
      ih (fun s' hs' => h s' (List.mem_cons_of_mem _ hs')) (i + 1)]

theorem samePasses_record {l : RecordLayout} {member member' : FieldStep → Codec} {v : Value}
    (h : ∀ fields, v.toFields = .ok fields → ∀ s ∈ l.steps,
      Codec.SamePasses (member s) (member' s) (fields.get s.name)) :
    Codec.SamePasses (l.codec member) (l.codec member') v := by
  unfold Codec.SamePasses codec putValue
  dsimp only
  cases hv : v.toFields with
  | error e => exact ⟨rfl, rfl⟩
  | ok fields =>
    have hs := h fields hv
    simp only [ofExcept_ok, pure_bind]
    exact ⟨by rw [putSteps_congr (fun s hmem => by rw [(hs s hmem).1]) 0],
      by rw [putSteps_congr (fun s hmem => by rw [(hs s hmem).2]) 0]⟩

end RecordLayout

namespace TypeTable

variable {t : TypeTable} {b : Bindings}

/-- A layer passes a value to the types that it must hold, and less deep values to all others. -/
theorem samePasses_layer {child child' : String → Codec} {name : String} {v : Value}
    (hneed : ∀ d, t.resolve? name = some (.declared d) → ∀ c ∈ d.needs,
      Codec.SamePasses (child c) (child' c) v)
    (hrest : ∀ d, t.resolve? name = some (.declared d) → ∀ c ∈ d.refNames, ∀ u : Value,
      u.depth < v.depth → Codec.SamePasses (child c) (child' c) u) :
    Codec.SamePasses (t.codecLayer b child name) (t.codecLayer b child' name) v := by
  cases hr : t.resolve? name with
  | none =>
    rw [layer_unknown hr, layer_unknown hr]
    exact ⟨rfl, rfl⟩
  | some target =>
    cases target with
    | primitive p =>
      rw [layer_primitive hr, layer_primitive hr]
      exact ⟨rfl, rfl⟩
    | declared d =>
      have hneed := hneed d hr
      have hrest := hrest d hr
      cases hb : d.body with
      | «alias» target =>
        rw [layer_alias hr hb, layer_alias hr hb]
        exact hneed target (by simp [Declaration.needs, hb])
      | enum e =>
        rw [layer_enum hr hb, layer_enum hr hb]
        exact ⟨rfl, rfl⟩
      | struct s =>
        rw [layer_struct hr hb, layer_struct hr hb]
        refine RecordLayout.samePasses_record fun fields hf step hs => ?_
        obtain ⟨f, hmem, flag, rfl⟩ := mem_steps hs
        have hlt := Value.depth_get_lt hf (t.fieldStep f flag).name
        have hname : (t.fieldStep f flag).typeName ∈ d.refNames :=
          Declaration.mem_refNames_of_field hb hmem
        refine Codec.samePasses_member (fun _ => hrest _ hname _ hlt) (fun _ items hi u hu => ?_) _
        have := Value.depth_lt_of_toItems hi hu
        exact hrest _ hname u (by omega)
      | array element =>
        rw [layer_array hr hb, layer_array hr hb]
        have hitems (_ : true = true) (items : List Value) (hi : v.toItems = .ok items)
            (u : Value) (hu : u ∈ items) : Codec.SamePasses (child element) (child' element) u :=
          hrest _ (Declaration.mem_refNames_array hb) u (Value.depth_lt_of_toItems hi hu)
        exact Codec.samePasses_member (fun h : true = false => absurd h.symm Bool.false_ne_true) hitems _
      | versioned entries =>
        rw [layer_versioned hr hb, layer_versioned hr hb]
        refine Codec.samePasses_tagged fun e he => hneed _ ?_
        rw [Declaration.needs, hb]
        exact List.mem_map.mpr ⟨e, he, rfl⟩
      | external symbol =>
        rw [layer_external hr hb, layer_external hr hb]
        exact ⟨rfl, rfl⟩

/-- Once there are enough layers for a value, neither more of them nor what stands below them shows
in measuring and writing. -/
theorem samePasses_layersOver (hfin : t.Finite) {base base' : String → Codec} {name : String}
    {v : Value} {m n : Nat} (hm : t.enough name v.depth ≤ m) (hn : t.enough name v.depth ≤ n) :
    Codec.SamePasses (t.layersOver b base m name) (t.layersOver b base' n name) v :=
  depth_induction (R := fun m n name v =>
      Codec.SamePasses (t.layersOver b base m name) (t.layersOver b base' n name) v)
    Value.depth hfin
    (fun _ _ _ v hneed hrest => samePasses_layer
      (fun d hd c hc => hneed d c v hd hc (Nat.le_refl _))
      (fun d hd c hc u hu => hrest d c u hd hc hu)) hm hn

/-- Once the depth is enough for a value, more depth measures and writes the same. -/
theorem samePasses_codecWithin (hfin : t.Finite) {name : String} {v : Value} {m n : Nat}
    (hm : t.enough name v.depth ≤ m) (hn : t.enough name v.depth ≤ n) :
    Codec.SamePasses (t.codecWithin b m name) (t.codecWithin b n name) v := by
  rw [codecWithin_eq_layersOver, codecWithin_eq_layersOver]
  exact samePasses_layersOver hfin hm hn

/-- The codec of a type measures and writes a value like enough layers over whatever codecs. -/
theorem samePasses_typeCodec (hfin : t.Finite) {base : String → Codec} {name : String} {v : Value}
    {n : Nat} (hn : t.enough name v.depth ≤ n) :
    Codec.SamePasses (t.layersOver b base n name) (t.typeCodec b name) v := by
  have h : Codec.SamePasses (t.layersOver b base n name)
      (t.layersOver b (fun name => .fail (.tooDeep name)) (t.depthFor v.depth) name) v :=
    samePasses_layersOver hfin hn (enough_le_depthFor hfin name v.depth)
  rw [← codecWithin_eq_layersOver] at h
  exact h

/-- The codec of a type measures and writes like its layer over the codecs of all types. -/
theorem samePasses_typeCodec_layer (hfin : t.Finite) (name : String) (v : Value) :
    Codec.SamePasses (t.typeCodec b name) (t.codecLayer b (t.typeCodec b) name) v := by
  have hdeep : Codec.SamePasses (t.codecLayer b (t.layersOver b (t.typeCodec b)
      (t.enough name v.depth)) name) (t.typeCodec b name) v :=
    samePasses_typeCodec hfin (Nat.le_succ _)
  have hlayer : Codec.SamePasses (t.codecLayer b (t.layersOver b (t.typeCodec b)
      (t.enough name v.depth)) name) (t.codecLayer b (t.typeCodec b) name) v := by
    refine samePasses_layer (fun d hd c hc => samePasses_typeCodec hfin ?_)
      (fun d hd c hc u hu => samePasses_typeCodec hfin ?_)
    · have hle := enough_need hfin hd hc (Nat.le_refl v.depth)
      omega
    · have hle := enough_lt hfin name c hu
      omega
  exact hdeep.symm.trans hlayer

/-- The codec of a type writes a value like a codec that is deep enough for it. -/
theorem typeCodec_yields_iff (hfin : t.Finite) {name : String} {v : Value} {n : Nat}
    (hn : t.enough name v.depth ≤ n) {bytes : Bytes} :
    (t.typeCodec b name).Yields v bytes ↔ (t.codecWithin b n name).Yields v bytes :=
  (samePasses_codecWithin hfin (enough_le_depthFor hfin name v.depth) hn).yields_iff

/-! ## Functions along a type -/

section Unrolled

variable {β : Type} (layer : (String → Value → β) → String → Value → β)

/-- A function of a type and a value that looks at the types that a value must hold, and at less
deep values of the types that are referred to. -/
def Descends (t : TypeTable) : Prop := ∀ f g name v,
  (∀ d c, t.resolve? name = some (.declared d) → c ∈ d.needs → f c v = g c v) →
  (∀ d c u, t.resolve? name = some (.declared d) → c ∈ d.refNames → u.depth < v.depth →
    f c u = g c u) → layer f name v = layer g name v

/-- The layers of a function, at most so many types deep. -/
def unrolledWithin (base : String → Value → β) : Nat → String → Value → β
  | 0 => base
  | n + 1 => layer (unrolledWithin base n)

/-- The layers of a function, as deep as a value asks for. -/
def unrolled (t : TypeTable) (base : String → Value → β) (name : String) (v : Value) : β :=
  unrolledWithin layer base (t.depthFor v.depth) name v

variable {layer} {base : String → Value → β}

theorem unrolledWithin_eq (hfin : t.Finite) (hl : t.Descends layer) {name : String} {v : Value}
    {m n : Nat} (hm : t.enough name v.depth ≤ m) (hn : t.enough name v.depth ≤ n) :
    unrolledWithin layer base m name v = unrolledWithin layer base n name v :=
  depth_induction (R := fun m n name v =>
      unrolledWithin layer base m name v = unrolledWithin layer base n name v) Value.depth hfin
    (fun _ _ name v hneed hrest => hl _ _ name v (fun d c hd hc => hneed d c v hd hc (Nat.le_refl _))
      hrest) hm hn

/-- An unrolled function is its own layer. -/
theorem unrolled_eq (hfin : t.Finite) (hl : t.Descends layer) (name : String) (v : Value) :
    t.unrolled layer base name v = layer (t.unrolled layer base) name v := by
  have hdepth (c : String) (u : Value) : t.enough c u.depth ≤ t.depthFor u.depth :=
    enough_le_depthFor hfin c u.depth
  have hsucc : t.unrolled layer base name v =
      layer (unrolledWithin layer base (t.depthFor v.depth)) name v :=
    unrolledWithin_eq hfin hl (hdepth name v) (Nat.le_succ_of_le (hdepth name v))
  rw [hsucc]
  refine hl _ _ name v (fun d c hd hc => rfl) (fun d c u hd hc hu => ?_)
  have hlt := enough_lt hfin name c hu
  exact unrolledWithin_eq hfin hl (Nat.le_trans (by omega) (hdepth name v)) (hdepth c u)

end Unrolled

end TypeTable

end WireSchema
