import WireSchema.Proofs.Restriction
import WireSchema.Proofs.SchemaCompatibility

/-!
# Earlier schemas read new bytes

A schema reads what a revision of it reads, from the same bytes: it gets the value without the
fields that it does not have (`decode_recalled`).  It makes no difference whether the fields that
were added are optional or required, but every key must be one that the schema has, and no number
that it does not have may stand for such a key (`decode_repeated_key`).
-/

namespace WireSchema

open CursorM

/-- A field, or an array field item by item, is recalled when its type is. -/
theorem Codec.recalls_member {c c' : Codec} {down : Value → Value} {test : Value → Bool}
    {framed : Bool} (hc : Confined c.read) (hc' : Confined c'.read)
    (h : Recalls framed c c' down fun u => test u = true) (array : Bool) :
    Recalls false (c.member framed array) (c'.member framed array) (Value.mapPart array down)
      fun v => v.allParts array test = true := by
  have helement : Recalls false (if framed then c.frame else c) (if framed then c'.frame else c')
      down fun u => test u = true := by
    cases framed with
    | false => exact h
    | true => exact recalls_frame hc hc' h
  cases array with
  | false => exact helement
  | true =>
    have hitems := recalls_sequence (confined_member hc framed false)
      (confined_member hc' framed false) helement
    apply hitems.of_known
    rintro v hv items rfl u hu
    exact List.all_eq_true.mp hv u hu

namespace TypeTable

variable {t t' : TypeTable} {b b' : Bindings} {name : String}

/-! ## Tables with more -/

/-- The enum of a name. -/
def enum? (t : TypeTable) (name : String) : Option EnumBody :=
  match t.resolve? name with
  | some (.declared d) => d.body.enum?
  | _ => none

/-- No key that an enum of numbers gains in another table is one that it has. -/
def FreshKeys (t t' : TypeTable) : Prop :=
  ∀ d ∈ t, ∀ e ∈ d.body.enum?, ∀ e' ∈ t'.enum? d.fqn, e.strings = false →
    ∀ key ∈ e'.keys.drop e.keys.length, key ∉ e.keys

instance (t t' : TypeTable) : Decidable (t.FreshKeys t') :=
  inferInstanceAs (Decidable (∀ d ∈ t, ∀ e ∈ d.body.enum?, ∀ e' ∈ t'.enum? d.fqn,
    e.strings = false → ∀ key ∈ e'.keys.drop e.keys.length, key ∉ e.keys))

/-- A table extends another in a way that the other need not know of. -/
structure Outgrows (t t' : TypeTable) : Prop where
  sound : t.Sound
  sound' : t'.Sound
  grown : t.Extends t'
  plain : t.Plain
  plain' : t'.Plain
  distinct : t'.DistinctFields
  compact : t.SteadyCompact t'
  fresh : t.FreshKeys t'

theorem Plain.closed (h : t.Plain) (b : Bindings) (name : String) :
    t.Throughout (t.IsClosed b) name := by
  intro other _ d symbol hd hb
  exact absurd (congrArg Body.kind hb) (h.external d (mem_of_resolve? hd).1)

/-- The layout of a struct and of what has become of it. -/
theorem Outgrows.struct (h : t.Outgrows t') {d : Declaration} {s : StructBody}
    (hd : t.resolve? name = some (.declared d)) (hb : d.body = .struct s) :
    ∃ d' s' extra, t'.resolve? name = some (.declared d') ∧ d'.body = .struct s' ∧ s.Distinct ∧
      (t.layout d.fqn s).Continues (t'.layout d'.fqn s') extra ∧
      (s.compact = true → extra = [] ∧ s'.flagsPosition = s.flagsPosition) := by
  obtain ⟨d', hd', hdecl⟩ := h.grown.resolve? h.sound'.wellFormed hd
  obtain ⟨s', hb', hs⟩ := (hb ▸ hdecl.body : (Body.struct s).Extends d'.body).of_struct
  obtain ⟨hmem, rfl⟩ := mem_of_resolve? hd
  have hdistinct' : s'.Distinct :=
    h.distinct d' (mem_of_resolve? hd').1 s' (Body.struct?_eq_some.mpr hb')
  have hdistinct : s.Distinct := by
    have hnames := hs.fields.map FieldShape.name
    rw [StructBody.shapes, StructBody.shapes, List.map_map, List.map_map] at hnames
    exact hnames.sublist.nodup hdistinct'
  obtain ⟨bit, hsteps⟩ := layout_steps_extends h.sound h.sound' h.grown hd hb hs d.fqn d'.fqn
  have hposition : s'.flagsPosition = s.flagsPosition ∨
      s.flagsPosition = none ∧ ∀ p, s'.flagsPosition = some p → s.fields.length ≤ p := by
    cases hp : s.flagsPosition with
    | some p => exact .inl (hs.kept p hp)
    | none => exact .inr ⟨rfl, fun p hp' => s.length_shapes ▸ hs.gained p hp hp'⟩
  refine ⟨d', s', _, hd', hb', hdistinct, ⟨hsteps, ?_, ?_⟩, ?_⟩
  · rw [map_steps t' d'.fqn s' (·.name) (·.name) fun _ _ => rfl]
    exact hdistinct'
  · rw [length_steps]
    exact hposition
  · intro hcompact
    have hadded : s.added s' = [] := by
      have hlen := congrArg List.length (hs.frozen hcompact)
      rw [StructBody.length_shapes, StructBody.length_shapes] at hlen
      exact List.drop_eq_nil_iff.mpr (Nat.le_of_eq hlen)
    refine ⟨by rw [hadded]; rfl, ?_⟩
    cases hp : s.flagsPosition with
    | some p => exact hs.kept p hp
    | none =>
      exact h.compact d hmem s (Body.struct?_eq_some.mpr hb) hcompact s
        (struct?_eq_some.mpr ⟨d, hd, hb⟩) s' (struct?_eq_some.mpr ⟨d', hd', hb'⟩) hp

/-! ## Types -/

section Layer

variable {framed : Bool} {reader reader' : String → Codec}

/-- The table knows the keys in what a field holds. -/
def KnowsStep (t : TypeTable) (step : FieldStep) (u : Value) : Prop :=
  u.allParts step.array (t.recognizes step.typeName) = true

theorem Outgrows.recalls_struct (h : t.Outgrows t') (hc : ∀ c, Confined (reader c).read)
    (hc' : ∀ c, Confined (reader' c).read) {d : Declaration} {s : StructBody}
    (hd : t.resolve? name = some (.declared d)) (hb : d.body = .struct s)
    (hframed : framed = false → t.isFrameable name = false)
    (hchild : ∀ c ∈ d.refNames, Codec.Recalls (t.isFrameable c) (reader c) (reader' c)
      (t.restrict c) fun u => t.recognizes c u = true) :
    Codec.Recalls framed (t.codecLayer b reader name) (t'.codecLayer b' reader' name)
      (t.restrictLayer t.restrict name) fun u => t.recognizesLayer t.recognizes name u = true := by
  obtain ⟨d', s', extra, hd', hb', hdistinct, hcontinues, hcompact⟩ := h.struct hd hb
  rw [layer_struct hd hb, layer_struct hd' hb', restrictLayer_struct hd hb,
    ← map_steps t d.fqn s (·.name) (·.name) fun _ _ => rfl]
  have hknown (v : Value) (hv : t.recognizesLayer t.recognizes name v = true) (fields : Fields)
      (heq : v = .struct fields) (step : FieldStep) (hstep : step ∈ (t.layout d.fqn s).steps) :
      t.KnowsStep step (fields.get step.name) := by
    obtain ⟨f, hf, flag, rfl⟩ := mem_steps hstep
    rw [heq, recognizesLayer_struct hd hb, List.all_eq_true] at hv
    exact hv f hf
  refine (hcontinues.recalls_record (fun step _ => Codec.confined_member (hc _) _ _)
    (fun step _ => Codec.confined_member (hc' _) _ _) ?_ ?_ ?_ ?_).of_known hknown
  · intro step hstep
    obtain ⟨f, hf, flag, rfl⟩ := mem_steps hstep
    have hname : upgradeField t.restrict s (t.fieldStep f flag).name =
        Value.mapPart f.array (t.restrict f.typeName) := upgradeField_eq hdistinct hf _
    rw [hname]
    exact Codec.recalls_member (hc _) (hc' _)
      (hchild f.typeName (Declaration.mem_refNames_of_field hb hf)) f.array
  · intro step hstep bit
    obtain ⟨f, hf, flag, rfl⟩ := mem_steps hstep
    exact restrictField_atom hdistinct hf trivial
  · intro step hstep
    obtain ⟨f, hf, flag, rfl⟩ := mem_steps hstep
    exact restrictField_atom hdistinct hf (t.isAtom_absent f)
  · intro hfalse
    have hframeable := hframed hfalse
    rw [isFrameable_struct hd hb, Bool.not_eq_false'] at hframeable
    exact hcompact hframeable

/-- A layer is recalled when the types that it refers to are. -/
theorem Outgrows.recalls_layer (h : t.Outgrows t') (hc : ∀ c, Confined (reader c).read)
    (hc' : ∀ c, Confined (reader' c).read)
    (hframed : framed = false → t.isFrameable name = false)
    (hresolves : ∃ target, t.resolve? name = some target)
    (hchild : ∀ d, t.resolve? name = some (.declared d) → ∀ c ∈ d.refNames, ∀ framed,
      (framed = false → t.isFrameable c = false) →
        Codec.Recalls framed (reader c) (reader' c) (t.restrict c)
          fun u => t.recognizes c u = true) :
    Codec.Recalls framed (t.codecLayer b reader name) (t'.codecLayer b' reader' name)
      (t.restrictLayer t.restrict name) fun u => t.recognizesLayer t.recognizes name u = true := by
  obtain ⟨target, hr⟩ := hresolves
  cases target with
  | primitive p =>
    rw [layer_primitive hr, restrictLayer_primitive hr,
      layer_primitive (resolve?_eq_primitive.mpr (resolve?_eq_primitive.mp hr))]
    exact fun w v k hp _ => ⟨k, hp, fun _ => rfl⟩
  | declared d =>
    obtain ⟨d', hr', hdecl⟩ := h.grown.resolve? h.sound'.wellFormed hr
    have hmem := (mem_of_resolve? hr).1
    cases hb : d.body with
    | «alias» target =>
      have hbody := (hb ▸ hdecl.body : (Body.alias target).Extends d'.body)
      rw [layer_alias hr hb, layer_alias hr' hbody.of_alias, restrictLayer_alias hr hb]
      apply (hchild d hr target (Declaration.mem_refNames_alias hb) framed ?_).of_known
      · intro v hv
        rwa [recognizesLayer_alias hr hb] at hv
      · intro hfalse
        exact (isFrameable_alias h.sound.finite hr hb).symm.trans (hframed hfalse)
    | enum e =>
      obtain ⟨e', hb', hoffset, hstrings, hkeys⟩ :=
        (hb ▸ hdecl.body : (Body.enum e).Extends d'.body).of_enum
      have henum : t'.enum? d.fqn = some e' := by
        obtain ⟨-, rfl⟩ := mem_of_resolve? hr
        simp only [enum?, hr', hb', Body.enum?]
      have hfresh := h.fresh d hmem e (by rw [hb]; rfl) e' henum
      rw [layer_enum hr hb, layer_enum hr' hb', restrictLayer_enum hr hb]
      apply (Choice.recalls_choice hstrings hoffset hkeys hfresh).weaken.of_known
      rintro v hv key rfl
      rw [recognizesLayer_enum hr hb] at hv
      exact List.contains_iff_mem.mp hv
    | struct s =>
      exact h.recalls_struct hc hc' hr hb hframed fun c href => hchild d hr c href _ id
    | array element =>
      have hbody := (hb ▸ hdecl.body : (Body.array element).Extends d'.body)
      have href := Declaration.mem_refNames_array hb
      rw [layer_array hr hb, layer_array hr' hbody.of_array, restrictLayer_array hr hb,
        isFrameable_extends h.sound h.sound' h.grown (h.sound.resolves hr href)]
      have helement := hchild d hr element href (t.isFrameable element) id
      apply (Codec.recalls_member (hc _) (hc' _) helement true).weaken.of_known
      intro v hv
      rwa [recognizesLayer_array hr hb] at hv
    | versioned entries => exact absurd (congrArg Body.kind hb) (h.plain.versioned d hmem)
    | external symbol => exact absurd (congrArg Body.kind hb) (h.plain.external d hmem)

/-- What a table reads, however deep it looks, a table that it extends reads as far as it knows. -/
theorem Outgrows.recalls_typeCodec (h : t.Outgrows t') (n : Nat)
    (hframed : framed = false → t.isFrameable name = false)
    (hresolves : ∃ target, t.resolve? name = some target) :
    Codec.Recalls framed (t.typeCodec b name) (t'.codecWithin b' n name) (t.restrict name)
      fun u => t.recognizes name u = true := by
  have hc (c : String) : Confined (t.typeCodec b c).read := confined_typeCodec (h.plain.closed b c)
  induction n generalizing framed name with
  | zero => exact fun w v k hp _ => nomatch hp
  | succ n ih =>
    have hc' (c : String) : Confined (t'.codecWithin b' n c).read :=
      confined_codecWithin (h.plain'.closed b' c) n
    rw [restrict_eq h.sound.finite, recognizes_eq h.sound.finite]
    intro w v k hp hv
    rw [parse_typeCodec h.sound.finite (h.plain.closed b name)]
    exact h.recalls_layer hc hc' hframed hresolves
      (fun d hd c href framed' hframed' => ih hframed' (h.sound.resolves hd href)) w v k hp hv

end Layer

end TypeTable

namespace Schema

variable {s s' : Schema} {b b' : Bindings} {name : String}

theorem Revises.outgrows (hr : s.Revises s') (hs : s.Built) (hplain : s.types.Plain)
    (hplain' : s'.types.Plain) (hdistinct : s'.types.DistinctFields)
    (hcompact : s.types.SteadyCompact s'.types) (hfresh : s.types.FreshKeys s'.types) :
    s.types.Outgrows s'.types :=
  ⟨hs.sound, hr.built.sound, hr.extends hs, hplain, hplain', hdistinct, hcompact, hfresh⟩

/-- A schema reads whatever bytes a revision of it reads, and gets the value without the fields that
it does not have.  Neither may have versioned types, external types or `raw`, field names are
distinct, no compact struct gains flags, and every key where the schema looks for one is one that it
has and that the revision has not added once more. -/
theorem decode_recalled (hs : s.Built) (hr : s.Revises s') (hplain : s.types.Plain)
    (hplain' : s'.types.Plain) (hdistinct : s'.types.DistinctFields)
    (hcompact : s.types.SteadyCompact s'.types) (hfresh : s.types.FreshKeys s'.types)
    {d : Declaration} (hname : s.types.resolve? name = some (.declared d)) {w : Value}
    {bytes : Bytes} (hdecode : s'.decode b' name bytes = .ok w)
    (hknown : s.types.recognizes name w = true) :
    s.decode b name bytes = .ok (s.types.restrict name w) := by
  have houtgrows := hr.outgrows hs hplain hplain' hdistinct hcompact hfresh
  rw [decode_eq_map, decodeFirst_eq_parse (hr.resolves hs ⟨_, hname⟩)] at hdecode
  obtain ⟨⟨u, k⟩, hp, rfl⟩ := ok_of_map hdecode
  rw [(TypeTable.outcome_typeCodec (hplain'.closed b' name)).parse_eq] at hp
  -- a value that is read from the whole input stands alone, as in a frame
  have hrecalls : Codec.Recalls true (s.types.typeCodec b name)
      (s'.types.codecWithin b' (s'.types.depthFor bytes.length) name) (s.types.restrict name)
      fun u => s.types.recognizes name u = true :=
    houtgrows.recalls_typeCodec _ (by simp) ⟨_, hname⟩
  obtain ⟨j, hj, -⟩ := hrecalls bytes u k hp hknown
  rw [decode_eq_map, decodeFirst_eq_parse ⟨_, hname⟩, hj]
  rfl

/-- The struct of a user with a rank. -/
def forumUserRanked : StructBody :=
  ⟨false, none, [⟨"id", "uint", true, false, 1⟩, ⟨"rank", "uint", true, false, 2⟩]⟩

/-- The struct of a post with a score and a time. -/
def forumPostTimed : StructBody :=
  ⟨false, some 1,
    [⟨"by", "@a/user", true, false, 2⟩, ⟨"mood", "@a/mood", false, false, 2⟩,
      ⟨"replies", "@a/post", false, true, 2⟩, ⟨"score", "uint", false, false, 2⟩,
      ⟨"time", "uint", true, false, 2⟩]⟩

/-- The forum with a mood, ranks of users, and scores and times of posts more. -/
def forumTimed : Schema :=
  ⟨2, true, true,
    [⟨"mood", "a", 2, .enum ⟨[⟨"calm", 1⟩, ⟨"glad", 2⟩], 1, false⟩⟩,
      ⟨"user", "a", 2, .struct forumUserRanked⟩, ⟨"post", "a", 2, .struct forumPostTimed⟩],
    [("a", none)],
    [⟨.enumValueAdded, "@a/mood", some "glad", 2⟩, ⟨.fieldAdded, "@a/user", some "rank", 2⟩,
      ⟨.fieldAdded, "@a/post", some "score", 2⟩, ⟨.fieldAdded, "@a/post", some "time", 2⟩]⟩

theorem forumTimed_revises : forum.Revises forumTimed :=
  ⟨by decide +kernel, { revision := ⟨1, true, false, false⟩, types := forum.types },
    forumCalls ["calm", "glad"]
      (forumUserFields ++ [{ name := "rank", typeName := "uint", required := true }])
      (forumPostFields ++ [{ name := "score", typeName := "uint" },
        { name := "time", typeName := "uint", required := true }]),
    by decide +kernel, by decide +kernel⟩

/-- A post with one reply, ranked and timed. -/
def forumThreadTimed : Value :=
  .struct [("by", .struct [("id", .uint 5), ("rank", .uint 1)]), ("mood", .string "calm"),
    ("replies", .array [.struct [("by", .struct [("id", .uint 7), ("rank", .uint 2)]),
      ("mood", .null), ("replies", .null), ("score", .uint 3), ("time", .uint 9)]]),
    ("score", .uint 0), ("time", .uint 8)]

theorem forumTimed_restorable : ∀ name ∈ forumTypes, forumTimed.types.Restorable {} name := by
  have hpost : forumTimed.types.resolve? "@a/post" =
      some (.declared ⟨"post", "a", 2, .struct forumPostTimed⟩) := rfl
  have huser : forumTimed.types.resolve? "@a/user" =
      some (.declared ⟨"user", "a", 2, .struct forumUserRanked⟩) := rfl
  have hmood : forumTimed.types.resolve? "@a/mood" =
      some (.declared ⟨"mood", "a", 2, .enum ⟨[⟨"calm", 1⟩, ⟨"glad", 2⟩], 1, false⟩⟩) :=
    rfl
  have huint : forumTimed.types.resolve? "uint" = some (.primitive .uint) := rfl
  simp only [forumTypes, List.forall_mem_cons]
  refine ⟨TypeTable.restorable_struct hpost rfl (by decide) (by decide),
    TypeTable.restorable_struct huser rfl (by decide) (by decide), ?_⟩
  simp [TypeTable.Restorable, hmood, huint, Choice.Numbered, EnumBody.keys]

/-- The first forum reads the post without ranks, scores and times. -/
theorem decode_recalled_forum :
    forumTimed.encode {} "@a/post" forumThreadTimed =
        .ok [2, 5, 1, 7, 1, 1, 6, 2, 7, 2, 4, 3, 9, 0, 8] ∧
      forumTimed.decode {} "@a/post" [2, 5, 1, 7, 1, 1, 6, 2, 7, 2, 4, 3, 9, 0, 8] =
        .ok forumThreadTimed ∧
      forum.decode {} "@a/post" [2, 5, 1, 7, 1, 1, 6, 2, 7, 2, 4, 3, 9, 0, 8] =
        .ok forumThreadRead := by
  have hplain : forum.types.Plain := ⟨by decide +kernel, by decide +kernel, by decide +kernel⟩
  have hplain' : forumTimed.types.Plain :=
    ⟨by decide +kernel, by decide +kernel, by decide +kernel⟩
  have hname : forum.types.resolve? "@a/post" =
      some (.declared ⟨"post", "a", 1, .struct forumPost⟩) := by decide +kernel
  have hencode : forumTimed.encode {} "@a/post" forumThreadTimed =
      .ok [2, 5, 1, 7, 1, 1, 6, 2, 7, 2, 4, 3, 9, 0, 8] := by decide +kernel
  have hdecode : forumTimed.decode {} "@a/post" [2, 5, 1, 7, 1, 1, 6, 2, 7, 2, 4, 3, 9, 0, 8] =
      .ok forumThreadTimed := by
    have hnorm : forumTimed.types.norm "@a/post" forumThreadTimed = .ok forumThreadTimed := by rfl
    have hclosed : forumTimed.types.encloses forumTypes = true := by decide +kernel
    obtain ⟨w, hw, hread⟩ := decodeFirst_of_encloses forumTimed_revises.built hclosed
      forumTimed_restorable (by decide +kernel) (by decide +kernel) (by decide) hencode
    obtain rfl := Except.ok.inj (hnorm.symm.trans hw)
    rw [decode_eq_map, ← List.append_nil [2, 5, 1, 7, 1, 1, 6, 2, 7, 2, 4, 3, 9, 0, 8], hread []]
    rfl
  have hrestrict : forum.types.restrict "@a/post" forumThreadTimed = forumThreadRead := by rfl
  refine ⟨hencode, hdecode, ?_⟩
  rw [← hrestrict]
  exact decode_recalled forum_built forumTimed_revises hplain hplain' (by decide +kernel)
    (by decide +kernel) (by decide +kernel) hname hdecode (by decide +kernel)

/-- The forum with its only mood once more. -/
def forumRepeated : Schema :=
  ⟨2, true, true,
    [⟨"mood", "a", 2, .enum ⟨[⟨"calm", 1⟩, ⟨"calm", 2⟩], 1, false⟩⟩,
      ⟨"user", "a", 1, .struct forumUser⟩,
      ⟨"post", "a", 2, .struct ⟨false, some 1,
        [⟨"by", "@a/user", true, false, 1⟩, ⟨"mood", "@a/mood", false, false, 2⟩,
          ⟨"replies", "@a/post", false, true, 2⟩]⟩⟩],
    [("a", none)], [⟨.enumValueAdded, "@a/mood", some "calm", 2⟩]⟩

/-- A key that an enum gains once more has a number that the earlier schema does not have: the
revision writes and reads it as a key that the earlier schema knows, and the earlier schema cannot
read it. -/
theorem decode_repeated_key :
    forum.Built ∧ forum.Revises forumRepeated ∧ forum.types.Plain ∧ forumRepeated.types.Plain ∧
      forumRepeated.types.DistinctFields ∧ forum.types.SteadyCompact forumRepeated.types ∧
      forumRepeated.encode {} "@a/mood" (.uint 2) = .ok [2] ∧
      forumRepeated.decode {} "@a/mood" [2] = .ok (.string "calm") ∧
      forum.types.recognizes "@a/mood" (.string "calm") = true ∧
      forum.decode {} "@a/mood" [2] = .error (.unknownEnumValue "@a/mood" "2") := by
  have hrevises : forum.Revises forumRepeated :=
    ⟨by decide +kernel, { revision := ⟨1, true, false, false⟩, types := forum.types },
      forumCalls ["calm", "calm"] forumUserFields forumPostFields,
      by decide +kernel, by decide +kernel⟩
  refine ⟨forum_built, hrevises, ⟨by decide +kernel, by decide +kernel, by decide +kernel⟩,
    ⟨by decide +kernel, by decide +kernel, by decide +kernel⟩, by decide +kernel, by decide +kernel,
    by decide +kernel, by rfl, by decide +kernel, by rfl⟩

end Schema

end WireSchema
