import WireSchema.TypeTable.Codec
import WireSchema.Proofs.Codec.Choice
import WireSchema.Proofs.Codec.Record
import WireSchema.Proofs.Codec.Tagged
import WireSchema.Proofs.Finite

/-!
# Codecs of declared types

A codec of a declared type is one layer of the type's declaration over the codecs of the types that
it refers to (`codecLayer`).  The depth to which a codec is built does not show when it is read
with: reading takes a byte or comes closer to a primitive at every step, as long as the codecs that
are bound to external types only move on.  So the codec of a type reads like enough layers over
whatever codecs (`runFrom_layersOver_eq`), and like its own layer over the codecs of all types
(`runFrom_typeCodec_layer`).
-/

namespace WireSchema

open CursorM

namespace Declaration

/-- The types that a declaration names. -/
def refNames (d : Declaration) : List String := d.references.map Prod.fst

theorem mem_refNames_of_field {d : Declaration} {s : StructBody} (hd : d.body = .struct s)
    {f : Field} (hf : f ∈ s.fields) : f.typeName ∈ d.refNames := by
  rw [refNames, references, hd]
  simp only [List.map_map, List.mem_map]
  exact ⟨f, hf, rfl⟩

theorem mem_refNames_of_entry {d : Declaration} {entries : List VersionEntry}
    (hd : d.body = .versioned entries) {e : VersionEntry} (he : e ∈ entries) :
    e.typeName ∈ d.refNames := by
  rw [refNames, references, hd]
  simp only [List.map_map, List.mem_map]
  exact ⟨e, he, rfl⟩

theorem mem_refNames_alias {d : Declaration} {target : String} (hd : d.body = .alias target) :
    target ∈ d.refNames := by
  simp [refNames, references, hd]

theorem mem_refNames_array {d : Declaration} {element : String} (hd : d.body = .array element) :
    element ∈ d.refNames := by
  simp [refNames, references, hd]

/-- What a value must hold is named by the declaration. -/
theorem needs_subset_refNames (d : Declaration) : d.needs ⊆ d.refNames := by
  intro name h
  unfold needs at h
  split at h
  · rename_i target hb
    exact List.mem_singleton.mp h ▸ mem_refNames_alias hb
  · rename_i element hb
    exact List.mem_singleton.mp h ▸ mem_refNames_array hb
  · rename_i s hb
    obtain ⟨f, hf, rfl⟩ := List.mem_map.mp h
    exact mem_refNames_of_field hb (List.mem_filter.mp hf).1
  · rename_i entries hb
    obtain ⟨e, he, rfl⟩ := List.mem_map.mp h
    exact mem_refNames_of_entry hb he
  · cases h
  · cases h

end Declaration

/-! ## What codecs take over from their parts -/

/-- A property of codecs that every way of building one takes over from the parts. -/
structure Codec.Inherited (P : Codec → Prop) : Prop where
  fail (e : CodecError) : P (.fail e)
  primitive (p : Primitive) : P p.codec
  choice (e : Choice) : P e.codec
  frame {c : Codec} : P c → P c.frame
  sequence {c : Codec} : P c → P c.sequence
  record {l : RecordLayout} {member : FieldStep → Codec} :
    (∀ s ∈ l.steps, P (member s)) → P (l.codec member)
  tagged {fqn : String} {entries : List VersionEntry} {payload : VersionEntry → Codec}
    {migration : String → Option (Value → Value)} :
    (∀ e ∈ entries, P (payload e)) → P (.tagged fqn entries payload migration)

theorem Codec.Inherited.member {P : Codec → Prop} (hP : Inherited P) {c : Codec} (h : P c)
    (framed array : Bool) : P (c.member framed array) :=
  member_induction (P := P) (fun _ => hP.frame) (fun _ => hP.sequence) h framed array

theorem Codec.inherited_regular : Inherited Regular where
  fail := regular_fail
  primitive := Primitive.regular_codec
  choice := Choice.regular_choice
  frame := regular_frame
  sequence := regular_sequence
  record := RecordLayout.regular_record
  tagged := regular_tagged

theorem Codec.inherited_confined : Inherited fun c => Confined c.read where
  fail := confined_throw
  primitive := Primitive.confined_primitive
  choice := Choice.confined_choice
  frame := confined_frame
  sequence := confined_sequence
  record := RecordLayout.confined_record
  tagged := confined_tagged

theorem Codec.inherited_onward : Inherited fun c => Onward c.read where
  fail e := (confined_throw e).onward
  primitive p := (Primitive.confined_primitive p).onward
  choice e := (Choice.confined_choice e).onward
  frame := onward_frame
  sequence := onward_sequence
  record := RecordLayout.onward_record
  tagged := onward_tagged

namespace TypeTable

/-! ## Reached types -/

/-- A type reaches itself and what the types that its declaration names reach. -/
inductive Reaches (t : TypeTable) : String → String → Prop
  | refl (name : String) : Reaches t name name
  | step {name child other : String} {d : Declaration}
      (hd : t.resolve? name = some (.declared d)) (hc : child ∈ d.refNames)
      (h : Reaches t child other) : Reaches t name other

/-- A condition on every type that a type reaches. -/
def Throughout (t : TypeTable) (P : String → Prop) (name : String) : Prop :=
  ∀ other, t.Reaches name other → P other

theorem Throughout.here {t : TypeTable} {P : String → Prop} {name : String}
    (h : t.Throughout P name) : P name := h name (.refl name)

theorem Throughout.child {t : TypeTable} {P : String → Prop} {name child : String}
    {d : Declaration} (h : t.Throughout P name) (hd : t.resolve? name = some (.declared d))
    (hc : child ∈ d.refNames) : t.Throughout P child := fun other ho => h other (.step hd hc ho)

theorem Throughout.imp {t : TypeTable} {P Q : String → Prop} {name : String}
    (h : t.Throughout P name) (hPQ : ∀ other, P other → Q other) : t.Throughout Q name :=
  fun other ho => hPQ other (h other ho)

/-- The names hold every name that the declaration of one of them names. -/
def encloses (t : TypeTable) (names : List String) : Bool :=
  names.all fun name =>
    match t.resolve? name with
    | some (.declared d) => d.refNames.all names.contains
    | _ => true

/-- What holds of names that enclose all that they refer to holds throughout. -/
theorem throughout_of_encloses {t : TypeTable} {P : String → Prop} {names : List String}
    (hclosed : t.encloses names = true) (hP : ∀ name ∈ names, P name) {name : String}
    (hname : name ∈ names) : t.Throughout P name := by
  intro other hreach
  induction hreach with
  | refl name => exact hP name hname
  | @step name child _ d hd hc _ ih =>
    refine ih ?_
    have hall := List.all_eq_true.mp hclosed name hname
    rw [hd] at hall
    exact List.contains_iff_mem.mp (List.all_eq_true.mp hall child hc)

/-- Nothing is left to a binding: the type is not external, or no codec is bound to it. -/
def IsClosed (t : TypeTable) (b : Bindings) (name : String) : Prop :=
  ∀ d symbol, t.resolve? name = some (.declared d) → d.body = .external symbol →
    b.external? d.fqn = none

/-- A codec that is bound to the type, if any, has the property. -/
def Binds (t : TypeTable) (b : Bindings) (P : Codec → Prop) (name : String) : Prop :=
  ∀ d symbol c, t.resolve? name = some (.declared d) → d.body = .external symbol →
    b.external? d.fqn = some c → P c

theorem Throughout.binds {t : TypeTable} {b : Bindings} {P : Codec → Prop} {name : String}
    (h : t.Throughout (t.IsClosed b) name) : t.Throughout (t.Binds b P) name :=
  h.imp fun _ hclosed d symbol c hd hb hc => by
    rw [hclosed d symbol hd hb] at hc
    cases hc

/-! ## Layouts -/

theorem mem_assignFlags {bit : Nat} {fields : List Field} {p : Field × Nat}
    (h : p ∈ StructBody.assignFlags bit fields) : p.1 ∈ fields := by
  induction fields generalizing bit with
  | nil => cases h
  | cons f rest ih =>
    unfold StructBody.assignFlags at h
    split at h
    · rcases List.mem_cons.mp h with rfl | h
      · exact List.mem_cons_self
      · exact List.mem_cons_of_mem _ (ih h)
    · rcases List.mem_cons.mp h with rfl | h
      · exact List.mem_cons_self
      · exact List.mem_cons_of_mem _ (ih h)

/-- Every step of a layout is that of a field. -/
theorem mem_steps {t : TypeTable} {fqn : String} {s : StructBody} {step : FieldStep}
    (h : step ∈ (t.layout fqn s).steps) : ∃ f ∈ s.fields, ∃ flag, step = t.fieldStep f flag := by
  obtain ⟨p, hp, rfl⟩ := List.mem_map.mp h
  exact ⟨p.1, mem_assignFlags hp, p.2, rfl⟩

/-! ## Layers -/

variable {t : TypeTable} {b : Bindings}

/-- The codec of a field over given codecs of the types. -/
def stepCodec (child : String → Codec) (step : FieldStep) : Codec :=
  (child step.typeName).member step.framed step.array

/-- The codec of a type over given codecs of the types that it refers to. -/
def codecLayer (t : TypeTable) (b : Bindings) (child : String → Codec) (name : String) : Codec :=
  match t.resolve? name with
  | none => .fail (.unknownType name)
  | some (.primitive p) => p.codec
  | some (.declared d) =>
    match d.body with
    | .alias target => child target
    | .enum e => Choice.codec ⟨d.fqn, e.keys, e.offset, e.strings⟩
    | .struct s =>
      (t.layout d.fqn s).codec fun step => (child step.typeName).member step.framed step.array
    | .array element => (child element).member (t.isFrameable element) true
    | .versioned entries => .tagged d.fqn entries (fun e => child e.typeName) b.migration?
    | .external _ => (b.external? d.fqn).getD (.fail (.unboundExternal d.fqn))

theorem codecWithin_succ (t : TypeTable) (b : Bindings) (n : Nat) (name : String) :
    t.codecWithin b (n + 1) name = t.codecLayer b (t.codecWithin b n) name := rfl

section Layer

variable {child child' : String → Codec} {name : String}

theorem layer_unknown (h : t.resolve? name = none) :
    t.codecLayer b child name = .fail (.unknownType name) := by
  delta codecLayer
  rw [h]

theorem layer_primitive {p : Primitive} (h : t.resolve? name = some (.primitive p)) :
    t.codecLayer b child name = p.codec := by
  delta codecLayer
  rw [h]

variable {d : Declaration} (hd : t.resolve? name = some (.declared d))

include hd

theorem layer_alias {target : String} (h : d.body = .alias target) :
    t.codecLayer b child name = child target := by
  delta codecLayer
  rw [hd]
  simp only [h]

theorem layer_enum {e : EnumBody} (h : d.body = .enum e) :
    t.codecLayer b child name = Choice.codec ⟨d.fqn, e.keys, e.offset, e.strings⟩ := by
  delta codecLayer
  rw [hd]
  simp only [h]

theorem layer_struct {s : StructBody} (h : d.body = .struct s) :
    t.codecLayer b child name =
      (t.layout d.fqn s).codec fun step =>
        (child step.typeName).member step.framed step.array := by
  delta codecLayer
  rw [hd]
  simp only [h]

theorem layer_array {element : String} (h : d.body = .array element) :
    t.codecLayer b child name = (child element).member (t.isFrameable element) true := by
  delta codecLayer
  rw [hd]
  simp only [h]

theorem layer_versioned {entries : List VersionEntry} (h : d.body = .versioned entries) :
    t.codecLayer b child name =
      .tagged d.fqn entries (fun e => child e.typeName) b.migration? := by
  delta codecLayer
  rw [hd]
  simp only [h]

theorem layer_external {symbol : String} (h : d.body = .external symbol) :
    t.codecLayer b child name = (b.external? d.fqn).getD (.fail (.unboundExternal d.fqn)) := by
  delta codecLayer
  rw [hd]
  simp only [h]

theorem layer_unbound (hclosed : t.IsClosed b name) {symbol : String}
    (h : d.body = .external symbol) :
    t.codecLayer b child name = .fail (.unboundExternal d.fqn) := by
  rw [layer_external hd h, hclosed d symbol hd h, Option.getD_none]

end Layer

section Laws

variable {child child' : String → Codec} {name : String}

/-- What every way of building a codec takes over from the parts, a layer takes over from the layers
below. -/
theorem layer_of_inherited {P : Codec → Prop} (hP : Codec.Inherited P) (hbinds : t.Binds b P name)
    (h : ∀ d, t.resolve? name = some (.declared d) → ∀ c ∈ d.refNames, P (child c)) :
    P (t.codecLayer b child name) := by
  cases hr : t.resolve? name with
  | none =>
    rw [layer_unknown hr]
    exact hP.fail _
  | some target =>
    cases target with
    | primitive p =>
      rw [layer_primitive hr]
      exact hP.primitive p
    | declared d =>
      have hc := h d hr
      cases hb : d.body with
      | «alias» target =>
        rw [layer_alias hr hb]
        exact hc target (Declaration.mem_refNames_alias hb)
      | enum e =>
        rw [layer_enum hr hb]
        exact hP.choice _
      | struct s =>
        rw [layer_struct hr hb]
        refine hP.record fun step hs => hP.member ?_ _ _
        obtain ⟨f, hf, flag, rfl⟩ := mem_steps hs
        exact hc f.typeName (Declaration.mem_refNames_of_field hb hf)
      | array element =>
        rw [layer_array hr hb]
        exact hP.member (hc element (Declaration.mem_refNames_array hb)) _ _
      | versioned entries =>
        rw [layer_versioned hr hb]
        exact hP.tagged fun e he => hc e.typeName (Declaration.mem_refNames_of_entry hb he)
      | external symbol =>
        rw [layer_external hr hb]
        cases hbound : b.external? d.fqn with
        | none => exact hP.fail _
        | some c => exact hbinds d symbol c hr hb hbound

/-- A layer reads the types that a value must hold from where it stands or further on, and all
others behind a byte. -/
theorem runFrom_layer_congr
    (hc : ∀ d, t.resolve? name = some (.declared d) → ∀ c ∈ d.refNames, Onward (child c).read)
    {cursor : Cursor} (hcursor : cursor.WellFormed)
    (hneed : ∀ d, t.resolve? name = some (.declared d) → ∀ c ∈ d.needs, ∀ ahead,
      cursor.Ahead 0 ahead → (child' c).read.runFrom ahead = (child c).read.runFrom ahead)
    (hrest : ∀ d, t.resolve? name = some (.declared d) → ∀ c ∈ d.refNames, ∀ ahead,
      cursor.Ahead 1 ahead → (child' c).read.runFrom ahead = (child c).read.runFrom ahead) :
    (t.codecLayer b child' name).read.runFrom cursor =
      (t.codecLayer b child name).read.runFrom cursor := by
  cases hr : t.resolve? name with
  | none => rw [layer_unknown hr, layer_unknown hr]
  | some target =>
    cases target with
    | primitive p => rw [layer_primitive hr, layer_primitive hr]
    | declared d =>
      have hc := hc d hr
      have hrest := hrest d hr
      have hneed := hneed d hr
      cases hb : d.body with
      | «alias» target =>
        rw [layer_alias hr hb, layer_alias hr hb]
        exact hneed target (by simp [Declaration.needs, hb]) cursor hcursor.ahead
      | enum e => rw [layer_enum hr hb, layer_enum hr hb]
      | struct s =>
        have hmem {step : FieldStep} (hs : step ∈ (t.layout d.fqn s).steps) :
            step.typeName ∈ d.refNames := by
          obtain ⟨f, hf, flag, rfl⟩ := mem_steps hs
          exact Declaration.mem_refNames_of_field hb hf
        rw [layer_struct hr hb, layer_struct hr hb]
        refine RecordLayout.runFrom_record_congr
          (fun step hs => Codec.onward_member (hc _ (hmem hs)) _ _) hcursor
          (fun step hs hreq d' hd' => ?_) (fun step hs _ d' hd' => ?_)
        · have hwf := hd'.wellFormed hcursor
          cases ha : step.array with
          | true =>
            exact Codec.runFrom_array_congr (hc _ (hmem hs)) hwf
              (fun d'' hd'' => hrest _ (hmem hs) d'' (hd'.trans hd'')) _
          | false =>
            refine Codec.runFrom_member_congr (hc _ (hmem hs)) hwf
              (fun d'' hd'' => hneed _ ?_ d'' (hd'.trans hd'')) _ _
            obtain ⟨f, hf, flag, rfl⟩ := mem_steps hs
            have hfr : f.required = true := by simpa [fieldStep] using hreq
            have hfa : f.array = false := ha
            rw [Declaration.needs, hb]
            exact List.mem_map.mpr ⟨f, List.mem_filter.mpr ⟨hf, by simp [hfr, hfa]⟩, rfl⟩
        · exact Codec.runFrom_member_congr (hc _ (hmem hs)) (hd'.wellFormed hcursor)
            (fun d'' hd'' => hrest _ (hmem hs) d'' (hd'.trans hd'')) _ _
      | array element =>
        have hmem := Declaration.mem_refNames_array hb
        rw [layer_array hr hb, layer_array hr hb]
        exact Codec.runFrom_array_congr (hc _ hmem) hcursor (hrest _ hmem) _
      | versioned entries =>
        rw [layer_versioned hr hb, layer_versioned hr hb]
        exact Codec.runFrom_tagged_congr hcursor fun e he =>
          hrest _ (Declaration.mem_refNames_of_entry hb he)
      | external symbol => rw [layer_external hr hb, layer_external hr hb]

end Laws

/-! ## Depth -/

theorem codecWithin_of_inherited {P : Codec → Prop} (hP : Codec.Inherited P) {name : String}
    (h : t.Throughout (t.Binds b P) name) (n : Nat) : P (t.codecWithin b n name) := by
  induction n generalizing name with
  | zero => exact hP.fail _
  | succ n ih => exact layer_of_inherited hP h.here fun d hd c hc => ih (h.child hd hc)

theorem regular_codecWithin {name : String} (h : t.Throughout (t.IsClosed b) name) (n : Nat) :
    (t.codecWithin b n name).Regular :=
  codecWithin_of_inherited Codec.inherited_regular h.binds n

theorem confined_codecWithin {name : String} (h : t.Throughout (t.IsClosed b) name) (n : Nat) :
    Confined (t.codecWithin b n name).read :=
  codecWithin_of_inherited Codec.inherited_confined h.binds n

/-- A depth that is enough to read a type from a number of bytes. -/
def enough (t : TypeTable) (name : String) (size : Nat) : Nat :=
  (t.length + 1) * size + t.rank name + 1

theorem enough_need (hfin : t.Finite) {name child : String} {d : Declaration}
    (hd : t.resolve? name = some (.declared d)) (hc : child ∈ d.needs) {m n : Nat} (h : m ≤ n) :
    t.enough child m + 1 ≤ t.enough name n := by
  have hdecl : t.declaration? name = some d := by
    unfold resolve? at hd
    split at hd
    · cases hd
    · obtain ⟨d', hd', ⟨⟩⟩ := Option.map_eq_some_iff.mp hd
      exact hd'
  have hrank := rank_lt hfin hdecl hc
  have hmul := Nat.mul_le_mul_left (t.length + 1) h
  unfold enough
  omega

theorem enough_lt (hfin : t.Finite) (name child : String) {m n : Nat} (h : m < n) :
    t.enough child m + 1 ≤ t.enough name n := by
  have hrank := rank_le hfin child
  have hmul := Nat.mul_le_mul_left (t.length + 1) (show m + 1 ≤ n from h)
  rw [Nat.mul_add, Nat.mul_one] at hmul
  unfold enough
  omega

/-- What holds at two depths when it holds one less deep, of what a thing must hold at no greater
size and of all that is referred to at a smaller size, holds at any two depths that are enough. -/
theorem depth_induction {α : Type} (size : α → Nat) (hfin : t.Finite)
    {R : Nat → Nat → String → α → Prop}
    (step : ∀ m n name x,
      (∀ d c y, t.resolve? name = some (.declared d) → c ∈ d.needs → size y ≤ size x →
        R m n c y) →
      (∀ d c y, t.resolve? name = some (.declared d) → c ∈ d.refNames → size y < size x →
        R m n c y) →
      R (m + 1) (n + 1) name x)
    {m n : Nat} {name : String} {x : α} (hm : t.enough name (size x) ≤ m)
    (hn : t.enough name (size x) ≤ n) : R m n name x := by
  induction m generalizing n name x with
  | zero => unfold enough at hm; omega
  | succ m ih =>
    obtain ⟨n, rfl⟩ : ∃ k, n = k + 1 := ⟨n - 1, by unfold enough at hn; omega⟩
    refine step m n name x (fun d c y hd hc hy => ?_) (fun d c y hd hc hy => ?_)
    · have hlt := enough_need hfin hd hc hy
      exact ih (by omega) (by omega)
    · have hlt := enough_lt hfin name c hy
      exact ih (by omega) (by omega)

/-- A number of layers over given codecs. -/
def layersOver (t : TypeTable) (b : Bindings) (base : String → Codec) : Nat → String → Codec
  | 0 => base
  | n + 1 => t.codecLayer b (t.layersOver b base n)

theorem codecWithin_eq_layersOver (t : TypeTable) (b : Bindings) (n : Nat) :
    t.codecWithin b n = t.layersOver b (fun name => .fail (.tooDeep name)) n := by
  induction n with
  | zero =>
    funext name
    rfl
  | succ n ih =>
    funext name
    rw [codecWithin_succ, ih, layersOver]

/-- Once there are enough layers, neither more of them nor what stands below them shows in
reading. -/
theorem runFrom_layersOver (hfin : t.Finite) {name : String}
    (h : t.Throughout (t.Binds b fun c => Onward c.read) name)
    {base : String → Codec} {m n : Nat} {c : Cursor} (hc : c.WellFormed)
    (hm : t.enough name c.remaining ≤ m) (hn : t.enough name c.remaining ≤ n) :
    (t.layersOver b base n name).read.runFrom c = (t.codecWithin b m name).read.runFrom c := by
  refine depth_induction (R := fun m n name (c : Cursor) =>
    t.Throughout (t.Binds b fun c => Onward c.read) name → c.WellFormed →
      (t.layersOver b base n name).read.runFrom c = (t.codecWithin b m name).read.runFrom c)
    Cursor.remaining hfin (fun m n name c hneed hrest h hc => ?_) hm hn h hc
  exact runFrom_layer_congr
    (fun d hd x hx => codecWithin_of_inherited Codec.inherited_onward (h.child hd hx) m) hc
    (fun d hd x hx e he => hneed d x e hd hx he.remaining
      (h.child hd (Declaration.needs_subset_refNames d hx)) (he.wellFormed hc))
    (fun d hd x hx e he => hrest d x e hd hx he.remaining (h.child hd hx) (he.wellFormed hc))

/-! ## The codec of a type -/

theorem enough_le_depthFor (hfin : t.Finite) (name : String) (size : Nat) :
    t.enough name size ≤ t.depthFor size := by
  have hrank := rank_le hfin name
  unfold enough depthFor
  rw [Nat.mul_add, Nat.mul_one]
  omega

theorem regular_typeCodec {name : String} (h : t.Throughout (t.IsClosed b) name) :
    (t.typeCodec b name).Regular := fun v => regular_codecWithin h (t.depthFor v.depth) v

theorem outcome_typeCodec {name : String} (h : t.Throughout (t.IsClosed b) name) :
    Outcome (t.typeCodec b name).read
      (fun w => (t.codecWithin b (t.depthFor w.length) name).read.parse w)
      fun w => (t.codecWithin b (t.depthFor w.length) name).read.passed w := by
  refine outcome_get (g := fun w => (t.codecWithin b (t.depthFor w.length) name).read)
    (fun c hc => ?_) fun w => confined_codecWithin h _
  rw [Cursor.remaining_eq hc]

theorem confined_typeCodec {name : String} (h : t.Throughout (t.IsClosed b) name) :
    Confined (t.typeCodec b name).read := (outcome_typeCodec h).confined

theorem runFrom_typeCodec (name : String) (c : Cursor) :
    (t.typeCodec b name).read.runFrom c =
      (t.codecWithin b (t.depthFor c.remaining) name).read.runFrom c :=
  runFrom_bind_ok (runFrom_get c)

theorem onward_typeCodec {name : String}
    (h : t.Throughout (t.Binds b fun c => Onward c.read) name) :
    Onward (t.typeCodec b name).read := fun c a c' hc hrun =>
  codecWithin_of_inherited Codec.inherited_onward h _ c a c' hc (runFrom_typeCodec name c ▸ hrun)

/-- The codec of a type reads like enough layers over whatever codecs. -/
theorem runFrom_layersOver_eq (hfin : t.Finite) {name : String}
    (h : t.Throughout (t.Binds b fun c => Onward c.read) name) {base : String → Codec} {n : Nat}
    {c : Cursor} (hc : c.WellFormed) (hn : t.enough name c.remaining ≤ n) :
    (t.layersOver b base n name).read.runFrom c = (t.typeCodec b name).read.runFrom c := by
  rw [runFrom_typeCodec]
  exact runFrom_layersOver hfin h hc (enough_le_depthFor hfin name c.remaining) hn

/-- The codec of a type runs like its layer over the codecs of all types. -/
theorem runFrom_typeCodec_layer (hfin : t.Finite) {name : String}
    (h : t.Throughout (t.Binds b fun c => Onward c.read) name) {c : Cursor} (hc : c.WellFormed) :
    (t.typeCodec b name).read.runFrom c =
      (t.codecLayer b (t.typeCodec b) name).read.runFrom c := by
  have hdeep : (t.codecLayer b (t.layersOver b (t.typeCodec b) (t.enough name c.remaining))
      name).read.runFrom c = (t.typeCodec b name).read.runFrom c :=
    runFrom_layersOver_eq hfin h hc (Nat.le_succ _)
  rw [← hdeep]
  refine runFrom_layer_congr (fun d hd x hx => onward_typeCodec (h.child hd hx)) hc
    (fun d hd x hx e he => ?_) (fun d hd x hx e he => ?_)
  · have hle := enough_need hfin hd hx (show e.remaining ≤ c.remaining from he.remaining)
    exact runFrom_layersOver_eq hfin (h.child hd (Declaration.needs_subset_refNames d hx))
      (he.wellFormed hc) (by omega)
  · have hle := enough_lt hfin name x he.remaining
    exact runFrom_layersOver_eq hfin (h.child hd hx) (he.wellFormed hc) (by omega)

/-- The codec of a type reads like its layer over the codecs of all types. -/
theorem parse_typeCodec (hfin : t.Finite) {name : String} (h : t.Throughout (t.IsClosed b) name)
    (w : Bytes) :
    (t.typeCodec b name).read.parse w = (t.codecLayer b (t.typeCodec b) name).read.parse w :=
  parse_congr (runFrom_typeCodec_layer hfin h.binds (Cursor.wellFormed_ofBytes w))

end TypeTable

end WireSchema
