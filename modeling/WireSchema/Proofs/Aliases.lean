import WireSchema.Proofs.Built
import WireSchema.Proofs.Growth
import WireSchema.Proofs.Names
import WireSchema.Proofs.WritingDepth

/-!
# Aliases

An alias is its target under another name.  The codec of a type measures, writes and reads like that
of the type at the end of its aliases (`samePasses_unalias`, `sameReads_unalias`), and whether a
field is framed, stands in the flags, or has a default is told by that type as well, so how a struct
is written follows from the ends of the aliases in its fields alone (`samePasses_struct`,
`sameReads_struct`).  Two structs whose fields differ only by aliases then have the same wire
format, and so have two arrays (`Schema.aliases_transparent`).
-/

namespace WireSchema

open CursorM

/-! ## Fields of other types -/

/-- The step of a field of another type that is written in the same way. -/
def FieldStep.retype (g : String → String) (s : FieldStep) : FieldStep :=
  { s with typeName := g s.typeName }

namespace RecordLayout

/-- The layout with other types of the fields. -/
def retype (g : String → String) (l : RecordLayout) : RecordLayout :=
  { l with steps := l.steps.map (FieldStep.retype g) }

/-- The layout under another name. -/
def named (fqn : String) (l : RecordLayout) : RecordLayout := { l with fqn := fqn }

variable (l : RecordLayout) (g : String → String) (member : FieldStep → Codec)

theorem flags_retype (fields : Fields) : (l.retype g).flags fields = l.flags fields := by
  simp only [flags, retype, List.filter_map, List.foldl_map]
  rfl

theorem defaults_retype : (l.retype g).defaults = l.defaults := by
  simp only [defaults, retype, List.map_map]
  rfl

theorem requireAll_retype (fields : Fields) (steps : List FieldStep) :
    (l.retype g).requireAll fields (steps.map (FieldStep.retype g)) =
      l.requireAll fields steps := by
  induction steps with
  | nil => rfl
  | cons s rest ih =>
    rw [List.map_cons, requireAll_cons, requireAll_cons, ih]
    rfl

theorem putSteps_retype (position : Option Nat) (putFlags : CursorM Unit)
    (put : FieldStep → CursorM Unit) (i : Nat) (steps : List FieldStep) :
    putSteps position putFlags put i (steps.map (FieldStep.retype g)) =
      putSteps position putFlags (fun s => put (s.retype g)) i steps := by
  induction steps generalizing i with
  | nil => rfl
  | cons s rest ih => rw [List.map_cons, putSteps_cons, putSteps_cons, ih]

theorem putValue_retype (putFlags : Nat → CursorM Unit) (put : FieldStep → Value → CursorM Unit)
    (v : Value) :
    (l.retype g).putValue putFlags put v =
      l.putValue putFlags (fun s => put (s.retype g)) v := by
  unfold putValue
  simp only [flags_retype]
  simp only [retype, putSteps_retype]
  congr 1
  funext fields
  rw [← requireAll_retype l g fields l.steps]
  rfl

theorem readSteps_retype (i flags : Nat) (fields : Fields) (steps : List FieldStep) :
    (l.retype g).readSteps member i flags fields (steps.map (FieldStep.retype g)) =
      l.readSteps (fun s => member (s.retype g)) i flags fields steps := by
  induction steps generalizing i flags fields with
  | nil => rfl
  | cons s rest ih =>
    simp only [List.map_cons, readSteps_cons, ih]
    rfl

/-- Only the codecs of the fields know the types of the fields. -/
theorem codec_retype :
    (l.retype g).codec member = l.codec fun s => member (s.retype g) := by
  unfold codec
  rw [defaults_retype]
  congr 1
  · funext v
    exact putValue_retype l g _ _ v
  · funext v
    exact putValue_retype l g _ _ v
  · exact congrArg (· >>= fun fields => pure (Value.struct fields))
      (readSteps_retype l g member 0 0 l.defaults l.steps)

/-! ## Names of records -/

theorem readSteps_named (fqn : String) (i flags : Nat) (fields : Fields) (steps : List FieldStep) :
    (l.named fqn).readSteps member i flags fields steps =
      l.readSteps member i flags fields steps := by
  induction steps generalizing i flags fields with
  | nil => rfl
  | cons s rest ih =>
    simp only [readSteps_cons, ih]
    rfl

/-- A reader does not know the name of its record. -/
theorem read_named (fqn : String) :
    ((l.named fqn).codec member).read = (l.codec member).read :=
  congrArg (· >>= fun fields => pure (Value.struct fields))
    (readSteps_named l member fqn 0 0 l.defaults l.steps)

end RecordLayout

namespace Codec

/-- Measuring and writing the value end at a field that the type requires. -/
def Wants (c : Codec) (fqn field : String) (v : Value) : Prop :=
  c.reserve v = throw (.missingRequiredField fqn field) ∧
    c.write v = throw (.missingRequiredField fqn field)

/-- Two codecs read alike, from wherever they may be asked to. -/
def SameReads (c c' : Codec) : Prop :=
  ∀ d : Cursor, d.WellFormed → c.read.runFrom d = c'.read.runFrom d

theorem Wants.congr {c c' : Codec} {fqn field : String} {v : Value} (h : c'.Wants fqn field v)
    (hsame : SamePasses c c' v) : c.Wants fqn field v := ⟨hsame.1.trans h.1, hsame.2.trans h.2⟩

theorem Wants.encode_eq {c : Codec} {fqn field : String} {v : Value} (h : c.Wants fqn field v) :
    c.encode v = .error (.missingRequiredField fqn field) := by
  rw [encode, h.1]
  rfl

theorem SameReads.trans {c c' c'' : Codec} (h : SameReads c c') (h' : SameReads c' c'') :
    SameReads c c'' := fun d hd => (h d hd).trans (h' d hd)

theorem SameReads.symm {c c' : Codec} (h : SameReads c c') : SameReads c' c :=
  fun d hd => (h d hd).symm

theorem sameReads_member {c c' : Codec} (hc : Onward c'.read) (h : SameReads c c')
    (framed array : Bool) : SameReads (c.member framed array) (c'.member framed array) :=
  fun _ hd => runFrom_member_congr hc hd (fun d' hd' => h d' (hd'.wellFormed hd)) framed array

end Codec

/-- The name of a record shows only where a required field is missing. -/
theorem RecordLayout.passes_named (l : RecordLayout) (member : FieldStep → Codec) (fqn : String)
    (v : Value) :
    Codec.SamePasses ((l.named fqn).codec member) (l.codec member) v ∨
      ∃ field, ((l.named fqn).codec member).Wants fqn field v ∧
        (l.codec member).Wants l.fqn field v := by
  unfold Codec.SamePasses Codec.Wants codec
  simp only [putValue_eq, named]
  cases v.toFields with
  | error e => exact .inl ⟨rfl, rfl⟩
  | ok fields =>
    dsimp only
    cases l.steps.find? (isMissing fields) with
    | none => exact .inl ⟨rfl, rfl⟩
    | some s => exact .inr ⟨s.name, ⟨rfl, rfl⟩, rfl, rfl⟩

/-! ## Types under aliases -/

/-- The codecs that are bound only move forward when they read. -/
def Bindings.Onward (b : Bindings) : Prop :=
  ∀ fqn c, b.external? fqn = some c → CursorM.Onward c.read

namespace TypeTable

variable {t : TypeTable} {b : Bindings}

theorem throughout_onward (hb : b.Onward) (name : String) :
    t.Throughout (t.Binds b fun c => CursorM.Onward c.read) name :=
  fun _ _ d _ c _ _ hc => hb d.fqn c hc

/-- What holds of a type and itself, and of an alias when it holds of the target, holds of a type
and the end of its aliases. -/
theorem unalias_induction {P : String → String → Prop} (refl : ∀ name, P name name)
    (step : ∀ name target other d, t.resolve? name = some (.declared d) →
      d.body = .alias target → P target other → P name other)
    (name : String) : P name (t.unalias name) := by
  unfold unalias
  generalize t.length = n
  induction n generalizing name with
  | zero => exact refl name
  | succ n ih =>
    unfold unaliasWithin
    split
    · rename_i d hr
      split
      · rename_i target hbody
        exact step name target _ d hr hbody (ih target)
      · exact refl name
    · exact refl name

/-- A type measures and writes like what it is an alias of. -/
theorem samePasses_unalias (hfin : t.Finite) (name : String) (v : Value) :
    Codec.SamePasses (t.typeCodec b name) (t.typeCodec b (t.unalias name)) v := by
  refine unalias_induction
    (P := fun name other => Codec.SamePasses (t.typeCodec b name) (t.typeCodec b other) v)
    (fun _ => ⟨rfl, rfl⟩) (fun name target other d hr hbody ih => ?_) name
  have hlayer := samePasses_typeCodec_layer (b := b) hfin name v
  rw [layer_alias hr hbody] at hlayer
  exact hlayer.trans ih

/-- A type is read like what it is an alias of. -/
theorem sameReads_unalias (hfin : t.Finite) (hb : b.Onward) (name : String) :
    Codec.SameReads (t.typeCodec b name) (t.typeCodec b (t.unalias name)) := by
  refine unalias_induction
    (P := fun name other => Codec.SameReads (t.typeCodec b name) (t.typeCodec b other))
    (fun _ _ _ => rfl) (fun name target other d hr hbody ih => .trans (fun c hc => ?_) ih) name
  rw [runFrom_typeCodec_layer hfin (throughout_onward hb name) hc, layer_alias hr hbody]

/-! ## Structs and arrays -/

section Declared

variable {name : String} {d : Declaration} (hr : t.resolve? name = some (.declared d))

include hr

theorem samePasses_struct (hfin : t.Finite) {s : StructBody} (hs : d.body = .struct s) (v : Value) :
    Codec.SamePasses (t.typeCodec b name)
      (((t.layout d.fqn s).retype t.unalias).codec (stepCodec (t.typeCodec b))) v := by
  have hlayer := samePasses_typeCodec_layer (b := b) hfin name v
  rw [layer_struct hr hs] at hlayer
  rw [RecordLayout.codec_retype]
  refine hlayer.trans (RecordLayout.samePasses_record fun fields _ step _ => ?_)
  exact Codec.samePasses_member (fun _ => samePasses_unalias hfin _ _)
    (fun _ _ _ u _ => samePasses_unalias hfin _ u) _

theorem sameReads_struct (hfin : t.Finite) (hb : b.Onward) {s : StructBody}
    (hs : d.body = .struct s) :
    Codec.SameReads (t.typeCodec b name)
      (((t.layout d.fqn s).retype t.unalias).codec (stepCodec (t.typeCodec b))) := by
  intro c hc
  rw [runFrom_typeCodec_layer hfin (throughout_onward hb name) hc, layer_struct hr hs,
    RecordLayout.codec_retype]
  have honward (n : String) : CursorM.Onward (t.typeCodec b n).read :=
    onward_typeCodec (throughout_onward hb n)
  have hsame (step : FieldStep) : Codec.SameReads (stepCodec (t.typeCodec b) step)
      (stepCodec (t.typeCodec b) (step.retype t.unalias)) :=
    Codec.sameReads_member (honward _) (sameReads_unalias hfin hb step.typeName) _ _
  exact RecordLayout.runFrom_record_congr (fun step _ => Codec.onward_member (honward _) _ _) hc
    (fun step _ _ d' hd' => hsame step d' (hd'.wellFormed hc))
    (fun step _ _ d' hd' => hsame step d' (hd'.wellFormed hc))

theorem samePasses_array (hfin : t.Finite) {element : String} (he : d.body = .array element)
    (v : Value) :
    Codec.SamePasses (t.typeCodec b name)
      ((t.typeCodec b (t.unalias element)).member (t.isFrameable element) true) v := by
  have hlayer := samePasses_typeCodec_layer (b := b) hfin name v
  rw [layer_array hr he] at hlayer
  refine hlayer.trans ?_
  exact Codec.samePasses_member (fun _ => samePasses_unalias hfin _ v)
    (fun _ _ _ u _ => samePasses_unalias hfin _ u) _

theorem sameReads_array (hfin : t.Finite) (hb : b.Onward) {element : String}
    (he : d.body = .array element) :
    Codec.SameReads (t.typeCodec b name)
      ((t.typeCodec b (t.unalias element)).member (t.isFrameable element) true) := by
  refine .trans (fun c hc => ?_) (Codec.sameReads_member (onward_typeCodec (throughout_onward hb _))
    (sameReads_unalias hfin hb element) _ true)
  rw [runFrom_typeCodec_layer hfin (throughout_onward hb name) hc, layer_array hr he]

end Declared

/-- What the format of a field depends on: its name, whether it is required and whether it is an
array, and the type at the end of its aliases. -/
def fieldFormat (t : TypeTable) (f : Field) : String × Bool × Bool × String :=
  (f.name, f.required, f.array, t.unalias f.typeName)

theorem isFrameable_congr {name other : String} (h : t.unalias name = t.unalias other) :
    t.isFrameable name = t.isFrameable other := by
  rw [isFrameable, isFrameable, h]

theorem fieldStep_retype {f f' : Field} (h : t.fieldFormat f = t.fieldFormat f') (flag : Nat) :
    (t.fieldStep f flag).retype t.unalias = (t.fieldStep f' flag).retype t.unalias := by
  simp only [fieldFormat, Prod.mk.injEq] at h
  obtain ⟨hname, hrequired, harray, htype⟩ := h
  simp only [fieldStep, FieldStep.retype, isBool, defaultValue, isFrameable_congr htype, hname,
    hrequired, harray, htype]

/-- The bits of the flags go by what is required, so fields of one format take the same steps. -/
theorem steps_retype {fields fields' : List Field}
    (h : fields.map t.fieldFormat = fields'.map t.fieldFormat) (bit : Nat) :
    (StructBody.assignFlags bit fields).map (fun p => (t.fieldStep p.1 p.2).retype t.unalias) =
      (StructBody.assignFlags bit fields').map fun p =>
        (t.fieldStep p.1 p.2).retype t.unalias := by
  induction fields generalizing bit fields' with
  | nil =>
    obtain rfl := List.map_eq_nil_iff.mp h.symm
    rfl
  | cons f rest ih =>
    obtain ⟨f', rest', rfl, hf, hrest⟩ := List.map_eq_cons_iff.mp h.symm
    have hrequired : f'.required = f.required := congrArg (·.2.1) hf
    unfold StructBody.assignFlags
    rw [hrequired]
    split
    · rw [List.map_cons, List.map_cons, fieldStep_retype hf, ih hrest.symm bit]
    · rw [List.map_cons, List.map_cons, fieldStep_retype hf, ih hrest.symm (bit + 1)]

theorem layout_retype {s s' : StructBody} (hposition : s.flagsPosition = s'.flagsPosition)
    (hfields : s.fields.map t.fieldFormat = s'.fields.map t.fieldFormat) (fqn fqn' : String) :
    (t.layout fqn s).retype t.unalias = ((t.layout fqn' s').retype t.unalias).named fqn := by
  simp only [layout, RecordLayout.retype, RecordLayout.named, List.map_map, hposition]
  congr 1
  exact steps_retype hfields 0

end TypeTable

/-- Aliases do not show on the wire.  An alias ends where its target does; two structs with the same
position of the flags whose fields differ at most by aliases measure and write every value alike,
but for the name that is given to the struct when a field is missing, and they read alike; and so do
two arrays whose elements differ at most by aliases. -/
theorem Schema.aliases_transparent {s : Schema} (hs : s.Built) (b : Bindings) {d d' : Declaration}
    (hd : d ∈ s.types) (hd' : d' ∈ s.types) :
    (∀ target, d.body = .alias target → s.types.unalias d.fqn = s.types.unalias target) ∧
    ∃ c c', s.codec? b d.fqn = .ok c ∧ s.codec? b d'.fqn = .ok c' ∧
      (∀ body body', d.body = .struct body → d'.body = .struct body' →
        body.flagsPosition = body'.flagsPosition →
        body.fields.map s.types.fieldFormat = body'.fields.map s.types.fieldFormat →
        (∀ v, Codec.SamePasses c c' v ∨
          ∃ field, c.Wants d.fqn field v ∧ c'.Wants d'.fqn field v) ∧
        (b.Onward → Codec.SameReads c c')) ∧
      ∀ element element', d.body = .array element → d'.body = .array element' →
        s.types.unalias element = s.types.unalias element' →
        (∀ v, Codec.SamePasses c c' v) ∧ (b.Onward → Codec.SameReads c c') := by
  have hfin := hs.sound.finite
  have hr := hs.sound.wellFormed.resolve?_of_mem hd
  have hr' := hs.sound.wellFormed.resolve?_of_mem hd'
  refine ⟨fun target hbody => TypeTable.unalias_alias hfin hr hbody, s.types.typeCodec b d.fqn,
    s.types.typeCodec b d'.fqn, if_pos (by rw [hr]; rfl), if_pos (by rw [hr']; rfl), ?_, ?_⟩
  · intro body body' hbody hbody' hposition hfields
    have hlayout := TypeTable.layout_retype hposition hfields d.fqn d'.fqn
    refine ⟨fun v => ?_, fun hb => ?_⟩
    · have hpasses := TypeTable.samePasses_struct (b := b) hr hfin hbody v
      have hpasses' := TypeTable.samePasses_struct (b := b) hr' hfin hbody' v
      rw [hlayout] at hpasses
      rcases RecordLayout.passes_named ((s.types.layout d'.fqn body').retype s.types.unalias)
        (TypeTable.stepCodec (s.types.typeCodec b)) d.fqn v with hsame | ⟨field, hwant, hwant'⟩
      · exact .inl ((hpasses.trans hsame).trans hpasses'.symm)
      · exact .inr ⟨field, hwant.congr hpasses, hwant'.congr hpasses'⟩
    · have hreads := TypeTable.sameReads_struct hr hfin hb hbody
      have hreads' := TypeTable.sameReads_struct hr' hfin hb hbody'
      rw [hlayout] at hreads
      refine .trans (fun c hc => ?_) hreads'.symm
      rw [hreads c hc, RecordLayout.read_named]
  · intro element element' hbody hbody' hunalias
    have hframed := TypeTable.isFrameable_congr hunalias
    refine ⟨fun v => ?_, fun hb => ?_⟩
    · have hpasses := TypeTable.samePasses_array (b := b) hr hfin hbody v
      rw [hunalias, hframed] at hpasses
      exact hpasses.trans (TypeTable.samePasses_array hr' hfin hbody' v).symm
    · have hreads := TypeTable.sameReads_array hr hfin hb hbody
      rw [hunalias, hframed] at hreads
      exact hreads.trans (TypeTable.sameReads_array hr' hfin hb hbody').symm

/-! A plan and a draft of it: the draft refers to a place, to a bool and to a stamp by aliases, one
of which is an alias of an alias. -/

/-- The calls that register the two. -/
def atlasCalls : List Builder.Call :=
  [.declareNamespace "a", .registerIn "a" (.aliasOf "flag" "bool"),
    .registerIn "a" (.structOf "place" [{ name := "x", typeName := "uint", required := true }]),
    .registerIn "a" (.aliasOf "spot" "@a/place"), .registerIn "a" (.aliasOf "corner" "@a/spot"),
    .registerIn "a" { name := "stamp", external := some "STAMP" },
    .registerIn "a" (.aliasOf "seal" "@a/stamp"),
    .registerIn "a" (.structOf "plan" [
      { name := "at", typeName := "@a/place", required := true },
      { name := "on", typeName := "bool" }, { name := "mark", typeName := "@a/stamp" },
      { name := "others", typeName := "@a/place", array := true }]),
    .registerIn "a" (.structOf "draft" [
      { name := "at", typeName := "@a/corner", required := true },
      { name := "on", typeName := "@a/flag" }, { name := "mark", typeName := "@a/seal" },
      { name := "others", typeName := "@a/spot", array := true }])]

/-- The schema of the two. -/
def atlas : Schema :=
  ⟨1, true, true,
    [⟨"flag", "a", 1, .alias "bool"⟩,
      ⟨"place", "a", 1, .struct ⟨false, none, [⟨"x", "uint", true, false, 1⟩]⟩⟩,
      ⟨"spot", "a", 1, .alias "@a/place"⟩, ⟨"corner", "a", 1, .alias "@a/spot"⟩,
      ⟨"stamp", "a", 1, .external "STAMP"⟩, ⟨"seal", "a", 1, .alias "@a/stamp"⟩,
      ⟨"plan", "a", 1, .struct ⟨false, some 1, [⟨"at", "@a/place", true, false, 1⟩,
        ⟨"on", "bool", false, false, 1⟩, ⟨"mark", "@a/stamp", false, false, 1⟩,
        ⟨"others", "@a/place", false, true, 1⟩]⟩⟩,
      ⟨"draft", "a", 1, .struct ⟨false, some 1, [⟨"at", "@a/corner", true, false, 1⟩,
        ⟨"on", "@a/flag", false, false, 1⟩, ⟨"mark", "@a/seal", false, false, 1⟩,
        ⟨"others", "@a/spot", false, true, 1⟩]⟩⟩],
    [("a", none)],
    [⟨.typeAdded, "@a/flag", none, 1⟩, ⟨.typeAdded, "@a/place", none, 1⟩,
      ⟨.typeAdded, "@a/spot", none, 1⟩, ⟨.typeAdded, "@a/corner", none, 1⟩,
      ⟨.typeAdded, "@a/stamp", none, 1⟩, ⟨.typeAdded, "@a/seal", none, 1⟩,
      ⟨.typeAdded, "@a/plan", none, 1⟩, ⟨.typeAdded, "@a/draft", none, 1⟩]⟩

theorem atlas_built : atlas.Built :=
  ⟨(Builder.fresh true).after atlasCalls, (Builder.Reachable.fresh true).after _,
    by decide +kernel⟩

/-- A stamp is written as a number. -/
def atlasBindings : Bindings := { externals := [("@a/stamp", Primitive.uint.codec)] }

theorem atlasBindings_onward : atlasBindings.Onward := by
  intro fqn c h
  unfold atlasBindings Bindings.external? at h
  rw [List.lookup_cons] at h
  split at h
  · cases h
    exact (Primitive.confined_primitive .uint).onward
  · cases h

/-- A plan with everything. -/
def atlasPlan : Value :=
  .struct [("at", .struct [("x", .uint 5)]), ("mark", .uint 7), ("on", .bool true),
    ("others", .array [.struct [("x", .uint 1)]])]

/-- The draft is written and read like the plan, and only the type that lacks a place is told
apart. -/
theorem Schema.aliases_transparent_atlas :
    atlas.types.unalias "@a/corner" = "@a/place" ∧
      ∃ c c', atlas.codec? atlasBindings "@a/plan" = .ok c ∧
        atlas.codec? atlasBindings "@a/draft" = .ok c' ∧
        c.encode atlasPlan = .ok [1, 5, 7, 7, 1, 1, 1] ∧
        c'.encode atlasPlan = .ok [1, 5, 7, 7, 1, 1, 1] ∧
        Codec.SameReads c c' ∧
        c.Wants "@a/plan" "at" (.struct []) ∧ c'.Wants "@a/draft" "at" (.struct []) := by
  refine ⟨by decide +kernel, ?_⟩
  obtain ⟨-, c, c', hc, hc', hstruct, -⟩ := aliases_transparent atlas_built atlasBindings
    (show atlas.types.get ⟨6, by decide⟩ ∈ atlas.types from List.get_mem _ _)
    (show atlas.types.get ⟨7, by decide⟩ ∈ atlas.types from List.get_mem _ _)
  obtain ⟨hpasses, hreads⟩ := hstruct _ _ rfl rfl rfl (by decide +kernel)
  have hplan : atlas.encode atlasBindings "@a/plan" atlasPlan = .ok [1, 5, 7, 7, 1, 1, 1] := by
    decide +kernel
  have hlacking : atlas.encode atlasBindings "@a/plan" (.struct []) =
      .error (.missingRequiredField "@a/plan" "at") := by decide +kernel
  have hlacking' : atlas.encode atlasBindings "@a/draft" (.struct []) =
      .error (.missingRequiredField "@a/draft" "at") := by decide +kernel
  rw [encode, show atlas.codec? atlasBindings "@a/plan" = .ok c from hc] at hplan hlacking
  rw [encode, show atlas.codec? atlasBindings "@a/draft" = .ok c' from hc'] at hlacking'
  refine ⟨c, c', hc, hc', hplan, ?_, hreads atlasBindings_onward, ?_⟩
  · rcases hpasses atlasPlan with hsame | ⟨field, hwant, -⟩
    · exact hsame.encode_eq ▸ hplan
    · exact absurd (hwant.encode_eq.symm.trans hplan) nofun
  · rcases hpasses (.struct []) with hsame | ⟨field, hwant, hwant'⟩
    · have heq := hlacking.symm.trans (hsame.encode_eq.trans hlacking')
      exact absurd heq (by decide)
    · obtain rfl : field = "at" := by
        have heq := hwant.encode_eq.symm.trans hlacking
        cases heq
        rfl
      exact ⟨hwant, hwant'⟩

end WireSchema
