import WireSchema.Proofs.AppendOnly
import WireSchema.Proofs.Bindings
import WireSchema.Proofs.Compatibility
import WireSchema.Proofs.SchemaRoundTrip

/-!
# Revised schemas read old bytes

A schema that revises another reads what the other has written, with defaults for all fields that
were added (`decode_revised`).  Bytes that stand alone may end where flags are gained, but bytes
that others follow may not: a value keeps its extent exactly when its outermost struct does not gain
flags (`extent_kept_iff`).
-/

namespace WireSchema

namespace TypeTable

variable {t t' : TypeTable}

/-! ## Framed types -/

theorem isFrameable_alias (hfin : t.Finite) {name target : String} {d : Declaration}
    (hd : t.resolve? name = some (.declared d)) (hb : d.body = .alias target) :
    t.isFrameable name = t.isFrameable target := by
  rw [isFrameable, isFrameable, unalias_alias hfin hd hb]

theorem isFrameable_struct {name : String} {d : Declaration} {s : StructBody}
    (hd : t.resolve? name = some (.declared d)) (hb : d.body = .struct s) :
    t.isFrameable name = !s.compact := by
  have hself : t.unalias name = name := unalias_self fun d' target hd' hb' => by
    cases hd.symm.trans hd'
    cases hb.symm.trans hb'
  rw [isFrameable, hself, hd]
  simp only [hb]

/-- There are no versioned types, no external types and no `raw`. -/
structure Plain (t : TypeTable) : Prop where
  versioned : ∀ d ∈ t, d.kind ≠ .versioned
  external : ∀ d ∈ t, d.kind ≠ .external
  raw : ∀ d ∈ t, ∀ name ∈ d.refNames, t.resolve? name ≠ some (.primitive .raw)

theorem Plain.portable_declared (h : t.Plain) {name : String} {d : Declaration}
    (hd : t.resolve? name = some (.declared d)) : t.Portable name := by
  obtain ⟨hmem, -⟩ := mem_of_resolve? hd
  unfold Portable
  rw [hd]
  dsimp only
  split
  · rename_i entries hb
    exact absurd (congrArg Body.kind hb) (h.versioned d hmem)
  · rename_i symbol hb
    exact absurd (congrArg Body.kind hb) (h.external d hmem)
  · trivial

theorem Plain.portable (h : t.Plain) {name : String} {d : Declaration}
    (hd : t.resolve? name = some (.declared d)) : t.Throughout t.Portable name := by
  intro other hreach
  have hself := h.portable_declared hd
  clear hd
  induction hreach with
  | refl => exact hself
  | @step name child _ d hd hc _ ih =>
    refine ih ?_
    cases hr : t.resolve? child with
    | none => simp only [Portable, hr]
    | some target =>
      cases target with
      | declared d' => exact h.portable_declared hr
      | primitive p =>
        have hraw := h.raw d (mem_of_resolve? hd).1 child hc
        simp only [Portable, hr]
        rintro rfl
        exact hraw hr

/-- Without versioned types, what is written without a frame is of a type that is never framed. -/
theorem Plain.isFrameable_visited (h : t.Plain) (hfin : t.Finite) {framed framed' : Bool}
    {name other : String} {v u : Value} (hv : t.Visits framed name v framed' other u)
    (hname : framed = false → t.isFrameable name = false) :
    framed' = false → t.isFrameable other = false := by
  induction hv with
  | here => exact hname
  | step hp _ ih =>
    refine ih fun hframed => ?_
    cases hp with
    | along hforward =>
      cases hforward with
      | target hd hb => exact (isFrameable_alias hfin hd hb).symm.trans (hname hframed)
      | latest hd hb _ =>
        exact absurd (congrArg Body.kind hb) (h.versioned _ (mem_of_resolve? hd).1)
    | into henter =>
      cases henter with
      | item _ _ _ => exact hframed
      | field _ _ _ _ _ => exact hframed

/-- No compact struct goes from no flags to flags. -/
def SteadyCompact (t t' : TypeTable) : Prop :=
  ∀ d ∈ t, ∀ s ∈ d.body.struct?, s.compact = true → t.Steady t' d.fqn

instance (t t' : TypeTable) : Decidable (t.SteadyCompact t') :=
  inferInstanceAs (Decidable (∀ d ∈ t, ∀ s ∈ d.body.struct?, s.compact = true →
    t.Steady t' d.fqn))

/-- Where compact structs are steady, so is all that is written without a frame. -/
theorem Plain.steady (h : t.Plain) (hfin : t.Finite) (hcompact : t.SteadyCompact t')
    {name other : String} {v u : Value} (hv : t.Visits true name v false other u) :
    t.Steady t' other := by
  intro s hs
  obtain ⟨d, hd, hb⟩ := struct?_eq_some.mp hs
  obtain ⟨hmem, rfl⟩ := mem_of_resolve? hd
  have hframed := h.isFrameable_visited hfin hv (by simp) rfl
  rw [isFrameable_struct hd hb, Bool.not_eq_false'] at hframed
  exact hcompact d hmem s (Body.struct?_eq_some.mpr hb) hframed s hs

end TypeTable

namespace Schema

variable {s s' : Schema} {b b' : Bindings} {name : String}

/-- The value of a named type at the start of a byte string, and the position after it. -/
def decodeFirst (s : Schema) (b : Bindings) (name : String) (bytes : Bytes) :
    Except CodecError (Value × Nat) := do
  (← s.codec? b name).decodeFirst bytes

theorem decode_eq_map (s : Schema) (b : Bindings) (name : String) (bytes : Bytes) :
    s.decode b name bytes = (s.decodeFirst b name bytes).map Prod.fst := by
  unfold decode decodeFirst
  cases s.codec? b name <;> rfl

theorem decodeFirst_eq_parse (hr : ∃ target, s.types.resolve? name = some target) (bytes : Bytes) :
    s.decodeFirst b name bytes = (s.types.typeCodec b name).read.parse bytes := by
  have hc : s.codec? b name = .ok (s.types.typeCodec b name) :=
    if_pos (Option.isSome_iff_exists.mpr hr)
  rw [decodeFirst, hc, ← Codec.decodeFirst_eq]
  rfl

theorem resolve?_of_encode {v : Value} {bytes : Bytes} (h : s.encode b name v = .ok bytes) :
    ∃ target, s.types.resolve? name = some target := by
  obtain ⟨hc, -⟩ := codec?_of_encode h
  unfold codec? TypeTable.codec? at hc
  split at hc
  · exact Option.isSome_iff_exists.mp (by assumption)
  · cases hc

/-- Over types that refer only to each other, and that all can be read back, what was written is read
in front of anything. -/
theorem decodeFirst_of_encloses (hs : s.Built) {names : List String}
    (hclosed : s.types.encloses names = true)
    (hrestorable : ∀ other ∈ names, s.types.Restorable b other)
    (hjson : ∀ other ∈ names, s.types.resolve? other ≠ some (.primitive .json))
    (hname : name ∈ names) {v : Value} {bytes : Bytes} (hfits : bytes.Fits)
    (h : s.encode b name v = .ok bytes) :
    ∃ w, s.types.norm name v = .ok w ∧
      ∀ rest, s.decodeFirst b name (bytes ++ rest) = .ok (w, bytes.length) := by
  obtain ⟨w, hw, hback⟩ := readsBack_of_encode hs
    (TypeTable.throughout_of_encloses hclosed hrestorable hname)
    (TypeTable.plainJson_of_unreached (TypeTable.throughout_of_encloses hclosed hjson hname) _ _)
    hfits h
  refine ⟨w, hw, fun rest => ?_⟩
  rw [decodeFirst_eq_parse (resolve?_of_encode h)]
  exact hback rest

/-- A revision whose structs have distinct names and only optional additions. -/
theorem Revises.evolves (hr : s.Revises s') (hs : s.Built) (hdistinct : s'.types.DistinctFields)
    (hopt : s.types.AddsOptional s'.types) : s.types.Evolves s'.types :=
  ⟨hs.sound, hr.built.sound, hr.extends hs, hdistinct, hopt⟩

/-- A type of a schema is a type of its revisions. -/
theorem Revises.resolves (hr : s.Revises s') (hs : s.Built)
    (h : ∃ target, s.types.resolve? name = some target) :
    ∃ target, s'.types.resolve? name = some target := by
  obtain ⟨target, ht⟩ := h
  cases target with
  | primitive p =>
    exact ⟨_, TypeTable.resolve?_eq_primitive.mpr (TypeTable.resolve?_eq_primitive.mp ht)⟩
  | declared d =>
    obtain ⟨d', hd', -⟩ := (hr.extends hs).resolve? hr.built.sound.wellFormed ht
    exact ⟨_, hd'⟩

/-- A revised schema reads the bytes that a schema without versioned types, external types and `raw`
has written and reads: it gets the same value with the defaults of all fields that were added, as
long as these are optional, field names are distinct and no compact struct gains flags. -/
theorem decode_revised (hs : s.Built) (hr : s.Revises s') (hplain : s.types.Plain)
    (hdistinct : s'.types.DistinctFields) (hopt : s.types.AddsOptional s'.types)
    (hcompact : s.types.SteadyCompact s'.types) {d : Declaration}
    (hname : s.types.resolve? name = some (.declared d)) {v w : Value} {bytes : Bytes}
    (hsize : v.size < 0x10000000000000000) (hfits : bytes.Fits)
    (hencode : s.encode b name v = .ok bytes) (hdecode : s.decode b name bytes = .ok w) :
    s'.decode b' name bytes = .ok (s.types.upgrade s'.types name w) := by
  have hT := hplain.portable hname
  have hresolve := hr.resolves hs ⟨_, hname⟩
  rw [decode_eq_map, decodeFirst_eq_parse ⟨_, hname⟩] at hdecode
  cases hp : (s.types.typeCodec b name).read.parse bytes with
  | error e => rw [hp] at hdecode; cases hdecode
  | ok p =>
    obtain ⟨u, k⟩ := p
    rw [hp] at hdecode
    cases hdecode
    have hfollow := TypeTable.follows_of_yields (hr.evolves hs hdistinct hopt)
      (s'.types.isClosed_unbound b') hT
      (fun other u hv => hplain.steady hs.sound.finite hcompact hv) hsize bytes hfits
      (yields_of_encode hT hencode) [] (fun _ => rfl) u k
    rw [List.append_nil] at hfollow
    have hread := s'.types.parse_typeCodec_bound b' (hfollow hp).2
    rw [decode_eq_map, decodeFirst_eq_parse hresolve, hread]
    rfl

/-! A forum: posts of users, which hold an array of posts. -/

/-- The calls that register a forum. -/
def forumCalls (moods : List String) (user post : List FieldDescription) : List Builder.Call :=
  [.declareNamespace "a", .registerIn "a" (.enumOf "mood" moods),
    .registerIn "a" { name := "user", fields := some user },
    .registerIn "a" { name := "post", fields := some post }]

/-- The first fields of a user. -/
def forumUserFields : List FieldDescription :=
  [{ name := "id", typeName := "uint", required := true }]

/-- The first fields of a post. -/
def forumPostFields : List FieldDescription :=
  [{ name := "by", typeName := "@a/user", required := true },
    { name := "mood", typeName := "@a/mood" },
    { name := "replies", typeName := "@a/post", array := true }]

/-- The struct of a post. -/
def forumPost : StructBody :=
  ⟨false, some 1,
    [⟨"by", "@a/user", true, false, 1⟩, ⟨"mood", "@a/mood", false, false, 1⟩,
      ⟨"replies", "@a/post", false, true, 1⟩]⟩

/-- The struct of a user. -/
def forumUser : StructBody := ⟨false, none, [⟨"id", "uint", true, false, 1⟩]⟩

/-- The first forum. -/
def forum : Schema :=
  ⟨1, true, true,
    [⟨"mood", "a", 1, .enum ⟨[⟨"calm", 1⟩], 1, false⟩⟩,
      ⟨"user", "a", 1, .struct forumUser⟩, ⟨"post", "a", 1, .struct forumPost⟩],
    [("a", none)],
    [⟨.typeAdded, "@a/mood", none, 1⟩, ⟨.typeAdded, "@a/user", none, 1⟩,
      ⟨.typeAdded, "@a/post", none, 1⟩]⟩

/-- The forum with a mood, names of users and scores of posts more. -/
def forum' : Schema :=
  ⟨2, true, true,
    [⟨"mood", "a", 2, .enum ⟨[⟨"calm", 1⟩, ⟨"glad", 2⟩], 1, false⟩⟩,
      ⟨"user", "a", 2, .struct ⟨false, some 1,
        [⟨"id", "uint", true, false, 1⟩, ⟨"name", "string", false, false, 2⟩]⟩⟩,
      ⟨"post", "a", 2, .struct ⟨false, some 1,
        [⟨"by", "@a/user", true, false, 2⟩, ⟨"mood", "@a/mood", false, false, 2⟩,
          ⟨"replies", "@a/post", false, true, 2⟩, ⟨"score", "uint", false, false, 2⟩]⟩⟩],
    [("a", none)],
    [⟨.enumValueAdded, "@a/mood", some "glad", 2⟩, ⟨.fieldAdded, "@a/user", some "name", 2⟩,
      ⟨.fieldAdded, "@a/post", some "score", 2⟩]⟩

theorem forum_built : forum.Built :=
  ⟨(Builder.fresh true).after (forumCalls ["calm"] forumUserFields forumPostFields),
    (Builder.Reachable.fresh true).after _, rfl⟩

theorem forum_revised : forum.Revises forum' :=
  ⟨by decide +kernel, { revision := ⟨1, true, false, false⟩, types := forum.types },
    forumCalls ["calm", "glad"] (forumUserFields ++ [{ name := "name", typeName := "string" }])
      (forumPostFields ++ [{ name := "score", typeName := "uint" }]),
    by decide +kernel, by decide +kernel⟩

/-- A post with one reply. -/
def forumThread : Value :=
  .struct [("by", .struct [("id", .uint 5)]), ("mood", .string "calm"),
    ("replies", .array [.struct [("by", .struct [("id", .uint 7)])]])]

/-- The post as the first forum reads it. -/
def forumThreadRead : Value :=
  .struct [("by", .struct [("id", .uint 5)]), ("mood", .string "calm"),
    ("replies", .array [.struct [("by", .struct [("id", .uint 7)]), ("mood", .null),
      ("replies", .null)]])]

/-- The post as the revised forum reads it. -/
def forumThreadRevised : Value :=
  .struct [("by", .struct [("id", .uint 5), ("name", .null)]), ("mood", .string "calm"),
    ("replies", .array [.struct [("by", .struct [("id", .uint 7), ("name", .null)]),
      ("mood", .null), ("replies", .null), ("score", .uint 0)]]), ("score", .uint 0)]

/-- The types of the forum. -/
def forumTypes : List String := ["@a/post", "@a/user", "@a/mood", "uint"]

theorem forum_restorable : ∀ name ∈ forumTypes, forum.types.Restorable {} name := by
  have hpost : forum.types.resolve? "@a/post" =
      some (.declared ⟨"post", "a", 1, .struct forumPost⟩) := rfl
  have huser : forum.types.resolve? "@a/user" =
      some (.declared ⟨"user", "a", 1, .struct forumUser⟩) := rfl
  have hmood : forum.types.resolve? "@a/mood" =
      some (.declared ⟨"mood", "a", 1, .enum ⟨[⟨"calm", 1⟩], 1, false⟩⟩) := rfl
  have huint : forum.types.resolve? "uint" = some (.primitive .uint) := rfl
  simp only [forumTypes, List.forall_mem_cons]
  refine ⟨TypeTable.restorable_struct hpost rfl (by decide) (by decide),
    TypeTable.restorable_struct huser rfl (by decide) (by decide), ?_⟩
  simp [TypeTable.Restorable, hmood, huint, Choice.Numbered, EnumBody.keys]

theorem decode_revised_forum :
    forum.encode {} "@a/post" forumThread = .ok [1, 5, 3, 1, 1, 3, 1, 7, 0] ∧
      forum.decode {} "@a/post" [1, 5, 3, 1, 1, 3, 1, 7, 0] = .ok forumThreadRead ∧
      forum'.decode {} "@a/post" [1, 5, 3, 1, 1, 3, 1, 7, 0] = .ok forumThreadRevised := by
  have hplain : forum.types.Plain := ⟨by decide +kernel, by decide +kernel, by decide +kernel⟩
  have hname : forum.types.resolve? "@a/post" =
      some (.declared ⟨"post", "a", 1, .struct forumPost⟩) := by decide +kernel
  have hencode : forum.encode {} "@a/post" forumThread = .ok [1, 5, 3, 1, 1, 3, 1, 7, 0] := by
    decide +kernel
  have hdecode : forum.decode {} "@a/post" [1, 5, 3, 1, 1, 3, 1, 7, 0] = .ok forumThreadRead := by
    have hnorm : forum.types.norm "@a/post" forumThread = .ok forumThreadRead := by rfl
    have hclosed : forum.types.encloses forumTypes = true := by decide +kernel
    obtain ⟨w, hw, hread⟩ := decodeFirst_of_encloses forum_built hclosed forum_restorable
      (by decide +kernel) (by decide +kernel) (by decide) hencode
    obtain rfl := Except.ok.inj (hnorm.symm.trans hw)
    rw [decode_eq_map, ← List.append_nil [1, 5, 3, 1, 1, 3, 1, 7, 0], hread []]
    rfl
  have hupgrade : forum.types.upgrade forum'.types "@a/post" forumThreadRead =
      forumThreadRevised := by rfl
  refine ⟨hencode, hdecode, ?_⟩
  rw [← hupgrade]
  exact decode_revised forum_built forum_revised hplain (by decide +kernel) (by decide +kernel)
    (by decide +kernel) hname (by decide +kernel) (by decide) hencode hdecode

/-- A value keeps its extent in a revised schema, and itself up to the defaults of fields that were
added, exactly when no struct that it is passed along to whole gains flags.  Structs that are
embedded in it without a frame must not gain flags: one that does takes the bytes behind it for
them, and what follows may by chance still end in the same place. -/
theorem extent_kept_iff (hs : s.Built) (hr : s.Revises s')
    (hdistinct : s'.types.DistinctFields) (hopt : s.types.AddsOptional s'.types)
    (hT : s.types.Throughout s.types.Portable name) {v : Value} {bytes : Bytes}
    (hsize : v.size < 0x10000000000000000) (hfits : bytes.Fits)
    (hencode : s.encode b name v = .ok bytes)
    (hread : ∀ rest, ∃ w, s.decodeFirst b name (bytes ++ rest) = .ok (w, bytes.length))
    (hinside : ∀ other, s.types.Embeds name v other → s.types.Steady s'.types other) :
    (∀ rest w, s.decodeFirst b name (bytes ++ rest) = .ok (w, bytes.length) →
      s'.decodeFirst b' name (bytes ++ rest) =
        .ok (s.types.upgrade s'.types name w, bytes.length)) ↔
      ∀ other, Relation.ReflTransGen s.types.Forwards name other →
        s.types.Steady s'.types other := by
  have hevolves := hr.evolves hs hdistinct hopt
  have hresolve := resolve?_of_encode hencode
  have hresolve' := hr.resolves hs hresolve
  have hyields := yields_of_encode hT hencode
  have hclosed := s'.types.isClosed_unbound b'
  constructor
  · intro hkept other hlead
    by_contra hgain
    obtain ⟨w, hw⟩ := hread [0]
    have hextent := hkept [0] w hw
    rw [decodeFirst_eq_parse hresolve] at hw
    obtain ⟨w', hw'⟩ := TypeTable.parse_gained hevolves hclosed hlead hgain hT hinside hsize hfits
      hyields hw
    rw [decodeFirst_eq_parse hresolve', s'.types.parse_typeCodec_bound b' hw'] at hextent
    have hlength := (Prod.mk.inj (Except.ok.inj hextent)).2
    omega
  · intro hsteady rest w hw
    rw [decodeFirst_eq_parse hresolve] at hw
    have hall (other : String) (u : Value) (hv : s.types.Visits false name v false other u) :
        s.types.Steady s'.types other :=
      (hv.forwards_or_embeds rfl).elim (hsteady other) (hinside other)
    have hfollow := TypeTable.follows_of_yields hevolves hclosed hT hall hsize bytes hfits hyields
    rw [decodeFirst_eq_parse hresolve']
    exact s'.types.parse_typeCodec_bound b' (hfollow.unframed hw).2

/-! An archive: records whose only version is an entry with a point. -/

/-- The calls that register an archive. -/
def archiveCalls (entry : List FieldDescription) : List Builder.Call :=
  [.declareNamespace "a",
    .registerIn "a"
      { name := "point", compact := true, fields := some [coordinate "x", coordinate "y"] },
    .registerIn "a" { name := "entry", fields := some entry },
    .registerIn "a" { name := "record", versions := some [⟨"@a/entry", 1, none⟩] }]

/-- The place of an entry. -/
def archivePlace : FieldDescription := { name := "place", typeName := "@a/point", required := true }

/-- The struct of a point. -/
def archivePoint : StructBody :=
  ⟨true, none, [⟨"x", "uint", true, false, 1⟩, ⟨"y", "uint", true, false, 1⟩]⟩

/-- The struct of an entry. -/
def archiveEntry : StructBody := ⟨false, none, [⟨"place", "@a/point", true, false, 1⟩]⟩

/-- The first archive. -/
def archive : Schema :=
  ⟨1, true, true,
    [⟨"point", "a", 1, .struct archivePoint⟩, ⟨"entry", "a", 1, .struct archiveEntry⟩,
      ⟨"record", "a", 1, .versioned [⟨"@a/entry", 1, none⟩]⟩],
    [("a", none)],
    [⟨.typeAdded, "@a/point", none, 1⟩, ⟨.typeAdded, "@a/entry", none, 1⟩,
      ⟨.typeAdded, "@a/record", none, 1⟩]⟩

/-- The archive with notes. -/
def archive' : Schema :=
  ⟨2, true, true,
    [⟨"point", "a", 1, .struct archivePoint⟩,
      ⟨"entry", "a", 2, .struct ⟨false, some 1,
        [⟨"place", "@a/point", true, false, 1⟩, ⟨"note", "string", false, false, 2⟩]⟩⟩,
      ⟨"record", "a", 1, .versioned [⟨"@a/entry", 1, none⟩]⟩],
    [("a", none)],
    [⟨.fieldAdded, "@a/entry", some "note", 2⟩]⟩

theorem archive_built : archive.Built :=
  ⟨(Builder.fresh true).after (archiveCalls [archivePlace]), (Builder.Reachable.fresh true).after _,
    rfl⟩

theorem archive_revised : archive.Revises archive' :=
  ⟨by decide +kernel, { revision := ⟨1, true, false, false⟩, types := archive.types },
    archiveCalls [archivePlace, { name := "note", typeName := "string" }],
    by decide +kernel, by decide +kernel⟩

/-- The types of the archive. -/
def archiveTypes : List String := ["@a/record", "@a/entry", "@a/point", "uint"]

theorem archive_restorable : ∀ name ∈ archiveTypes, archive.types.Restorable {} name := by
  have hrecord : archive.types.resolve? "@a/record" =
      some (.declared ⟨"record", "a", 1, .versioned [⟨"@a/entry", 1, none⟩]⟩) := rfl
  have hentry : archive.types.resolve? "@a/entry" =
      some (.declared ⟨"entry", "a", 1, .struct archiveEntry⟩) := rfl
  have hpoint : archive.types.resolve? "@a/point" =
      some (.declared ⟨"point", "a", 1, .struct archivePoint⟩) := rfl
  have huint : archive.types.resolve? "uint" = some (.primitive .uint) := rfl
  simp only [archiveTypes, List.forall_mem_cons]
  refine ⟨?_, TypeTable.restorable_struct hentry rfl (by decide) (by decide),
    TypeTable.restorable_struct hpoint rfl (by decide) (by decide), ?_⟩
  · simp only [TypeTable.Restorable, hrecord]
    rintro e ⟨⟩
    rfl
  · simp [TypeTable.Restorable, huint]

/-- A record of one point. -/
def archiveRecord : Value := .struct [("place", .struct [("x", .uint 3), ("y", .uint 4)])]

theorem archive_embeds_steady {other : String}
    (h : archive.types.Embeds "@a/record" archiveRecord other) :
    archive.types.Steady archive'.types other := by
  have hclosed : archive.types.encloses ["@a/point", "uint"] = true := by decide
  have hsteady : ∀ name ∈ ["@a/point", "uint"], archive.types.Steady archive'.types name := by
    decide
  have hmembers : ∀ d ∈ archive.types, d.kind = .struct ∨ d.kind = .array →
      ∀ c ∈ d.refNames, c ∈ ["@a/point", "uint"] := by decide
  exact h.of_members fun d hd hk c hc =>
    TypeTable.throughout_of_encloses hclosed hsteady (hmembers d hd hk c hc)

theorem archive_gains_flags : ¬ ∀ other,
    Relation.ReflTransGen archive.types.Forwards "@a/record" other →
      archive.types.Steady archive'.types other := by
  intro h
  have hforwards : archive.types.Forwards "@a/record" "@a/entry" :=
    .latest (d := ⟨"record", "a", 1, .versioned [⟨"@a/entry", 1, none⟩]⟩) (by decide) rfl
      rfl
  have hgain : ¬ archive.types.Steady archive'.types "@a/entry" := by decide
  exact hgain (h _ (.single hforwards))

/-- A zero behind a record is taken for the flags that its entry has gained. -/
theorem extent_kept_iff_archive :
    archive.encode {} "@a/record" archiveRecord = .ok [1, 3, 4] ∧
      ¬ ∀ rest w, archive.decodeFirst {} "@a/record" ([1, 3, 4] ++ rest) = .ok (w, 3) →
        archive'.decodeFirst {} "@a/record" ([1, 3, 4] ++ rest) =
          .ok (archive.types.upgrade archive'.types "@a/record" w, 3) := by
  have hclosed : archive.types.encloses archiveTypes = true := by decide +kernel
  have hname : "@a/record" ∈ archiveTypes := by decide +kernel
  have hportable := (TypeTable.throughout_of_encloses hclosed archive_restorable hname).imp
    fun _ ho => ho.portable
  have hencode : archive.encode {} "@a/record" archiveRecord = .ok [1, 3, 4] := by decide +kernel
  obtain ⟨w, -, hread⟩ := decodeFirst_of_encloses archive_built hclosed archive_restorable
    (by decide +kernel) hname (by decide) hencode
  refine ⟨hencode, fun hkept => archive_gains_flags ?_⟩
  exact (extent_kept_iff archive_built archive_revised (by decide +kernel) (by decide +kernel)
    hportable (by decide +kernel) (by decide) hencode (fun rest => ⟨w, hread rest⟩)
    (fun _ => archive_embeds_steady)).mp hkept

end Schema

end WireSchema
