import Mathlib.Data.List.Perm.Subperm
import WireSchema.Proofs.RegistrationOrder
import WireSchema.Proofs.Replay
import WireSchema.Proofs.Raising

/-!
# Declaring again what was declared

A description declares a body when the body is what the description says, versions apart
(`Description.Declares`).  Whatever is admitted is declared by its description (`accept_declares`),
versions that are raised do not matter for that, and a description that is held against a body it
declares adds nothing (`accept_declared`).  So what was registered in a build can be registered
again on top of the schema that was built, all of it or a part and in any order, and the schema
stays as it was (`Builder.redeclare`).
-/

namespace WireSchema

open Admission Attempt

/-! ## Descriptions of bodies -/

/-- A struct has the fields, the compactness and the flags that a description gives it. -/
structure Description.DeclaresStruct (d : Description) (s : StructBody)
    (given : List FieldDescription) (explicit : Option Nat) : Prop where
  fields : d.fields = some given
  few : ((given.map relaxBool).countP fun f => !f.required) ≤ maxOptionals
  asked : explicitPosition d.fqn (given.map relaxBool).length d.flagsPosition = .ok explicit
  shapes : s.shapes = (given.map relaxBool).map FieldDescription.shape
  compact : s.compact = d.compact.getD false
  kept : keptPosition d.fqn s explicit (firstOptional (given.map relaxBool)) = .ok s.flagsPosition
  placed : checkPosition d.fqn s.flagsPosition (firstOptional (given.map relaxBool)) = .ok ()

/-- A body is what a description says, versions apart. -/
def Description.DeclaresBody (d : Description) : Body → Prop
  | .alias target => d.kind = .alias ∧ d.target.getD "" = target
  | .enum e => d.kind = .enum ∧ (∃ entries, d.enumEntries? = some entries ∧
      entries.map EnumEntry.keyText = e.keys) ∧ d.offset.getD 1 = e.offset ∧ d.strings = e.strings
  | .struct s => d.kind = .struct ∧ ∃ given explicit, d.DeclaresStruct s given explicit
  | .array element => d.kind = .array ∧ d.element = some element
  | .versioned entries => d.kind = .versioned ∧ d.versions.getD [] = entries ∧ entries ≠ [] ∧
      increasing entries = true
  | .external symbol => d.kind = .external ∧ d.external.getD "" = symbol

/-- A declaration is what a description says, versions apart. -/
structure Description.Declares (d : Description) (p : Declaration) : Prop where
  name : p.name = d.name
  ns : p.ns = d.ns.getD ""
  body : d.DeclaresBody p.body

namespace Admission

variable {s s' : Session} {fqn : String} {d : Description} {a : Admitted}

/-! ## What is admitted is declared -/

theorem EnumAdmitted.declares {entries : List EnumEntry} {previous : Option (UInt32 × EnumBody)}
    (hkind : d.kind = .enum) (hentries : d.enumEntries? = some entries)
    (h : EnumAdmitted s fqn d entries previous a) : d.DeclaresBody a.body := by
  cases h with
  | fresh =>
    refine ⟨hkind, ⟨entries, hentries, ?_⟩, rfl, rfl⟩
    rw [EnumBody.keys, freshValues, List.map_map]
    rfl
  | @grown version known hoffset hstrings hkeys =>
    refine ⟨hkind, ⟨entries, hentries, ?_⟩, hoffset.symm, hstrings.symm⟩
    -- the known keys come first, and the added ones are the rest
    obtain ⟨more, hmore⟩ := hkeys
    have hdrop : (entries.map EnumEntry.keyText).drop known.values.length = more := by
      rw [← hmore]
      exact List.drop_left' (List.length_map _)
    have hadded := map_zip_stamps (fun key v => (⟨key, v⟩ : EnumValue).key) id
      (length_stampMembers .enumValueAdded fqn s more) fun _ _ => rfl
    rw [List.map_id] at hadded
    rw [hdrop, EnumBody.keys, List.map_append, List.map_map, ← hmore]
    exact congrArg (known.keys ++ ·) hadded.symm

/-- A position that was found is kept. -/
theorem keptPosition_found {body : StructBody} {explicit first : Option Nat}
    (h : body.flagsPosition = explicit.or first) :
    keptPosition fqn body explicit first = .ok body.flagsPosition := by
  unfold keptPosition
  cases hp : body.flagsPosition with
  | none =>
    rw [hp] at h
    rw [← h]
  | some p =>
    rw [hp] at h
    cases explicit with
    | none => rfl
    | some q =>
      cases h
      exact if_pos rfl

/-- A position that was kept is kept again. -/
theorem keptPosition_again {known body : StructBody} {explicit first : Option Nat}
    (h : keptPosition fqn known explicit first = .ok body.flagsPosition) :
    keptPosition fqn body explicit first = .ok body.flagsPosition := by
  rcases keptPosition_cases h with ⟨was, hwas, hposition⟩ | ⟨-, hposition, -⟩
  · unfold keptPosition at h ⊢
    rw [hwas] at h
    rw [hposition] at h ⊢
    exact h
  · exact keptPosition_found hposition

theorem StructAdmitted.declares {given : List FieldDescription} {explicit : Option Nat}
    {previous : Option (UInt32 × StructBody)} (hkind : d.kind = .struct)
    (hfields : d.fields = some given)
    (hfew : ((given.map relaxBool).countP fun f => !f.required) ≤ maxOptionals)
    (hexplicit : explicitPosition d.fqn (given.map relaxBool).length d.flagsPosition =
      .ok explicit) (h : StructAdmitted s d.fqn d (given.map relaxBool) explicit previous a) :
    d.DeclaresBody a.body := by
  cases h with
  | fresh hposition =>
    refine ⟨hkind, given, explicit, hfields, hfew, hexplicit, ?_, rfl, keptPosition_found rfl,
      hposition⟩
    rw [StructBody.shapes, List.map_map]
    rfl
  | @grown version known position hlen hcompact hfrozen hknown hkept hposition =>
    obtain ⟨s', hbody, hcomp, rfl, hshapes, -⟩ :=
      shapes_grownStruct s version position hlen hknown
    rw [hbody]
    exact ⟨hkind, given, explicit, hfields, hfew, hexplicit, hshapes, hcomp.trans hcompact,
      keptPosition_again hkept, hposition⟩

theorem BodyAdmitted.declares {previous : Option (UInt32 × Body)}
    (h : BodyAdmitted s d.fqn d previous a) : d.DeclaresBody a.body := by
  cases h with
  | text hbody h =>
    rw [h.body.1]
    cases hbody with
    | target hkind | symbol hkind => exact ⟨hkind, rfl⟩
    | element hkind helement => exact ⟨hkind, helement⟩
  | enum hkind hentries h => exact h.declares hkind hentries
  | struct hkind hgiven hfew hexplicit h => exact h.declares hkind hgiven hfew hexplicit
  | versioned hkind hentries hne hinc h =>
    rw [h.body.1]
    exact ⟨hkind, hentries, hne, hinc⟩

/-- What is admitted is what its description says. -/
theorem accept_declares {previous : Option Declaration} {declaration : Declaration}
    (h : accept s previous d = .ok (declaration, s')) : d.Declares declaration := by
  obtain ⟨a, ha, rfl, -⟩ := accept_cases h
  exact ⟨rfl, rfl, ha.declares⟩

/-! ## What is declared is admitted as it is -/

theorem firstRenamed_self (i : Nat) (keys : List String) : firstRenamed i keys keys = none := by
  induction keys generalizing i with
  | nil => rfl
  | cons key keys ih => rw [firstRenamed, if_pos rfl, ih]

theorem firstChanged_self (entries : List VersionEntry) : firstChanged entries entries = none := by
  induction entries with
  | nil => rfl
  | cons e entries ih => rw [firstChanged, if_pos rfl, ih]

theorem checkKnownFields_of_shapes {known : List Field} {fields : List FieldDescription}
    (h : known.map Field.shape = fields.map FieldDescription.shape) :
    checkKnownFields fqn known fields = .ok () := by
  induction known generalizing fields with
  | nil =>
    cases fields with
    | nil => rfl
    | cons now fields => cases h
  | cons was known ih =>
    cases fields with
    | nil => cases h
    | cons now fields =>
      rw [List.map_cons, List.map_cons, List.cons.injEq] at h
      obtain ⟨hhead, hrest⟩ := h
      have hname : was.name = now.name := congrArg FieldShape.name hhead
      have htype : was.typeName = now.typeName := congrArg FieldShape.typeName hhead
      have harray : was.array = now.array := congrArg FieldShape.array hhead
      have hrequired : was.required = now.required := congrArg FieldShape.required hhead
      rw [checkKnownFields, if_neg (by simp [hname, htype, harray]), if_neg (by simp [hrequired]),
        ih hrest]

theorem admitEnum_declared {e : EnumBody} (version : UInt32) (h : d.DeclaresBody (.enum e)) :
    (admitEnum fqn (some (version, e)) d).result s = .ok ((version, .enum e), s) := by
  obtain ⟨-, ⟨entries, hentries, hkeys⟩, hoffset, hstrings⟩ := h
  have hlen : e.keys.length = e.values.length := List.length_map _
  unfold admitEnum
  rw [hentries]
  dsimp only
  rw [hkeys, hoffset, hstrings, hlen, if_neg (Nat.lt_irrefl _), if_neg (by simp),
    firstRenamed_self, ← hlen, List.drop_length]
  dsimp only
  rw [result_stampMembers_bind]
  simp [Session.stampMembers, newest]

theorem admitVersioned_declared {entries : List VersionEntry} (version : UInt32)
    (h : d.DeclaresBody (.versioned entries)) :
    (admitVersioned fqn (some (version, entries)) d).result s =
      .ok ((version, .versioned entries), s) := by
  obtain ⟨-, hentries, hne, hinc⟩ := h
  unfold admitVersioned
  rw [hentries]
  dsimp only
  rw [if_neg (by simpa using hne), if_neg (by simp [hinc]), if_neg (Nat.lt_irrefl _),
    firstChanged_self, List.drop_length]
  rfl

theorem admitStruct_declared {body : StructBody} (version : UInt32)
    (h : d.DeclaresBody (.struct body)) :
    (admitStruct d.fqn (some (version, body)) d).result s = .ok ((version, .struct body), s) := by
  obtain ⟨-, given, explicit, h⟩ := h
  have hlen : (given.map relaxBool).length = body.fields.length := by
    rw [← body.length_shapes, h.shapes]
    exact (List.length_map _).symm
  have hknown : checkKnownFields d.fqn body.fields (given.map relaxBool) = .ok () :=
    checkKnownFields_of_shapes h.shapes
  have hkept : keptPosition d.fqn body explicit ((given.map relaxBool).findIdx? fun f =>
      !f.required) = .ok body.flagsPosition := h.kept
  have hplaced : checkPosition d.fqn body.flagsPosition ((given.map relaxBool).findIdx? fun f =>
      !f.required) = .ok () := h.placed
  have hgrowth : checkGrowth d.fqn body (d.compact.getD false) explicit
      ((given.map relaxBool).findIdx? fun f => !f.required) (given.map relaxBool) =
      .ok body.flagsPosition := by
    unfold checkGrowth
    dsimp only
    rw [hlen, if_neg (Nat.lt_irrefl _), if_neg (by simp [h.compact]), hknown, ok_bind, hkept]
  have hgrown : (grownStruct d.fqn version body body.flagsPosition (given.map relaxBool)).result s =
      .ok ((version, body), s) := by
    rw [grownStruct, List.drop_of_length_le (Nat.le_of_eq hlen)]
    show Except.ok ((version, (⟨body.compact, body.flagsPosition, body.fields ++ []⟩ : StructBody)),
      s) = _
    rw [List.append_nil]
  unfold admitStruct
  rw [h.fields]
  dsimp only
  rw [if_neg (Nat.not_lt.mpr h.few), h.asked, result_check_bind, ok_bind, result_bind, stampStruct,
    result_check_bind, hgrowth, ok_bind, hgrown, ok_bind, result_check_bind, hplaced, ok_bind,
    result_pure]

/-- A description that is held against what it declares adds nothing. -/
theorem accept_declared {p : Declaration} (h : d.Declares p) :
    accept s (some p) d = .ok (p, s) := by
  obtain ⟨name, ns, version, body⟩ := p
  obtain ⟨rfl, rfl, hbody⟩ := h
  dsimp only at hbody
  have hadmitted : d.kind = body.kind ∧
      (admitBody d.fqn (some ⟨d.name, d.ns.getD "", version, body⟩) d).result s =
        .ok ((version, body), s) := by
    unfold admitBody
    cases body with
    | «alias» target =>
      rw [hbody.1]
      refine ⟨rfl, ?_⟩
      simp [earlier, Body.alias?, admitAlias, admitText, hbody.2]
    | enum e =>
      rw [hbody.1]
      exact ⟨rfl, admitEnum_declared version hbody⟩
    | struct body =>
      rw [hbody.1]
      exact ⟨rfl, admitStruct_declared version hbody⟩
    | array element =>
      rw [hbody.1]
      refine ⟨rfl, ?_⟩
      simp [earlier, Body.array?, admitArray, admitText, hbody.2]
    | versioned entries =>
      rw [hbody.1]
      exact ⟨rfl, admitVersioned_declared version hbody⟩
    | external symbol =>
      rw [hbody.1]
      refine ⟨rfl, ?_⟩
      simp [earlier, Body.external?, admitExternal, admitText, hbody.2]
  obtain ⟨hkind, hadmitted⟩ := hadmitted
  have hchecked : checkKind d.fqn (some ⟨d.name, d.ns.getD "", version, body⟩) d.kind = .ok () :=
    if_pos hkind.symm
  rw [accept_eq, hchecked, hadmitted]
  rfl

end Admission

/-! ## Raised versions -/

namespace Description

theorem DeclaresStruct.of_shapes {d : Description} {s s' : StructBody}
    {given : List FieldDescription} {explicit : Option Nat}
    (h : d.DeclaresStruct s given explicit) (hcompact : s'.compact = s.compact)
    (hposition : s'.flagsPosition = s.flagsPosition) (hshapes : s'.shapes = s.shapes) :
    d.DeclaresStruct s' given explicit where
  fields := h.fields
  few := h.few
  asked := h.asked
  shapes := hshapes.trans h.shapes
  compact := hcompact.trans h.compact
  kept := by
    have hlen : s'.fields.length = s.fields.length := by
      rw [← s'.length_shapes, hshapes, s.length_shapes]
    have hkept := h.kept
    unfold keptPosition at hkept ⊢
    rw [hposition, hlen]
    exact hkept
  placed := hposition ▸ h.placed

theorem declaresBody_shape {d : Description} {body : Body} :
    d.DeclaresBody body.shape ↔ d.DeclaresBody body := by
  cases body with
  | struct s =>
    constructor
    · rintro ⟨hkind, given, explicit, h⟩
      exact ⟨hkind, given, explicit, h.of_shapes rfl rfl s.shapes_unversioned.symm⟩
    · rintro ⟨hkind, given, explicit, h⟩
      exact ⟨hkind, given, explicit, h.of_shapes rfl rfl s.shapes_unversioned⟩
  | _ => exact Iff.rfl

/-- Raised versions leave what is declared as it is. -/
theorem Declares.of_shape {d : Description} {p p' : Declaration} (h : d.Declares p)
    (hshape : p'.shape = p.shape) : d.Declares p' where
  name := by
    have hname : p'.shape.name = p.shape.name := congrArg Declaration.name hshape
    exact hname.trans h.name
  ns := by
    have hns : p'.shape.ns = p.shape.ns := congrArg Declaration.ns hshape
    exact hns.trans h.ns
  body := by
    have hbody : p'.body.shape = p.body.shape := congrArg Declaration.body hshape
    rw [← declaresBody_shape, hbody, declaresBody_shape]
    exact h.body

end Description

/-! ## Registering -/

namespace TypeTable

/-- What was placed is found under its name. -/
theorem declaration?_place_self (t : TypeTable) (d : Declaration) :
    (Builder.place t d).declaration? d.fqn = some d := by
  cases hd : t.declaration? d.fqn with
  | none =>
    rw [Builder.place_of_none hd, declaration?, List.find?_append]
    show (t.declaration? d.fqn).or _ = _
    rw [hd, Option.none_or, List.find?_cons_of_pos (by simp)]
  | some p =>
    have hnames : ((fun e : Declaration => e.fqn == d.fqn) ∘
        fun e => if e.fqn == d.fqn then d else e) = fun e => e.fqn == d.fqn := by
      funext e
      simp only [Function.comp_apply]
      split
      · rename_i heq
        rw [heq]
        exact beq_self_eq_true _
      · rfl
    have hfqn : (p.fqn == d.fqn) = true := by simp [(mem_of_declaration? hd).2]
    rw [Builder.place_of_some hd, declaration?, List.find?_map, hnames]
    exact (congrArg (Option.map _) hd).trans (congrArg some (if_pos hfqn))

/-- Placing what is there changes nothing. -/
theorem WellFormed.place_self {t : TypeTable} (ht : t.WellFormed) {p : Declaration}
    (hp : t.declaration? p.fqn = some p) : Builder.place t p = t := by
  rw [Builder.place_of_some hp]
  refine (List.map_congr_left fun e he => ?_).trans (List.map_id t)
  split
  · rename_i heq
    have hep := ht.declaration?_of_mem he
    rw [beq_iff_eq.mp heq, hp] at hep
    exact Option.some.inj hep
  · rfl

end TypeTable

namespace Builder

variable {b b' : Builder} {ds : List Description}

/-- A description has a declared namespace and right names. -/
def Welcomes (b : Builder) (d : Description) : Prop :=
  ∃ ns, d.ns = some ns ∧ b.checkNamespace ns = .ok () ∧
    checkNames (ns :: d.name :: d.fieldNames) = .ok ()

/-- The table of a builder has what a description declares. -/
def Has (b : Builder) (d : Description) : Prop :=
  ∃ p, b.types.declaration? d.fqn = some p ∧ d.Declares p

theorem checkNamespace_eq_ok_iff {name : String} :
    b.checkNamespace name = .ok () ↔ (b.namespaces.lookup name).isSome = true := by
  unfold checkNamespace
  split <;> simp [*]

theorem checkEntry_eq_ok_iff {d : Description} :
    b.checkEntry d = .ok () ↔ b.Welcomes d ∧ d.fqn ∉ b.registered := by
  unfold checkEntry
  constructor
  · intro h
    obtain ⟨ns, hns, h⟩ := ok_of_bind h
    obtain ⟨⟨⟩, hspace, h⟩ := ok_of_bind h
    obtain ⟨⟨⟩, hnames, h⟩ := ok_of_bind h
    have hfree := checkFree_eq_ok_iff.mp h
    exact ⟨⟨ns, home_eq_ok_iff.mp hns, hspace, hnames⟩, by simpa using hfree⟩
  · rintro ⟨⟨ns, hns, hspace, hnames⟩, hfree⟩
    rw [home_eq_ok_iff.mpr hns, ok_bind, hspace, ok_bind, hnames, ok_bind, checkFree_eq_ok_iff]
    simpa using hfree

/-- What stands under other names is not touched. -/
theorem registerAll_declaration? (h : b.registerAll ds = .ok b') {name : String}
    (hname : name ∉ ds.map (·.fqn)) :
    b'.types.declaration? name = b.types.declaration? name := by
  induction ds generalizing b with
  | nil =>
    cases h
    rfl
  | cons d rest ih =>
    rw [List.map_cons, List.mem_cons, not_or] at hname
    rw [registerAll, List.foldlM_cons] at h
    obtain ⟨b₁, h₁, h⟩ := ok_of_bind h
    obtain ⟨-, declaration, session, -, -, -, haccept, htypes, -⟩ := register_inv h₁
    have hne : name ≠ declaration.fqn := by
      rw [Admission.fqn_of_accept haccept]
      exact hname.1
    rw [ih h hname.2, htypes, TypeTable.declaration?_place hne]

/-- Descriptions that are registered one after the other have distinct names that were free, each is
welcome, and the table has what each declares. -/
theorem registerAll_inv (hr : b.revision.replaying = false) (h : b.registerAll ds = .ok b') :
    (ds.map (·.fqn)).Nodup ∧ ∀ d ∈ ds, d.fqn ∉ b.registered ∧ b.Welcomes d ∧ b'.Has d := by
  induction ds generalizing b with
  | nil => exact ⟨List.nodup_nil, fun d hd => absurd hd List.not_mem_nil⟩
  | cons d rest ih =>
    rw [registerAll, List.foldlM_cons, register_eq hr] at h
    obtain ⟨_, hfirst, hall⟩ := ok_of_bind h
    obtain ⟨p, hp, rfl⟩ := ok_of_map hfirst
    obtain ⟨hrest, hothers⟩ := ih (keep_started hr hp) hall
    obtain ⟨⟨⟩, hentry, haccept⟩ := ok_of_bind hp
    have hfqn : p.1.fqn = d.fqn := Admission.fqn_of_accept haccept
    obtain ⟨hwelcome, hfree⟩ := checkEntry_eq_ok_iff.mp hentry
    have hnew : d.fqn ∉ rest.map (·.fqn) := by
      intro hmem
      obtain ⟨e, he, heq⟩ := List.mem_map.mp hmem
      refine (hothers e he).1 ?_
      rw [keep, heq, ← hfqn]
      exact List.mem_append_right _ (List.mem_singleton_self _)
    refine ⟨List.nodup_cons.mpr ⟨hnew, hrest⟩, fun e he => ?_⟩
    rcases List.mem_cons.mp he with rfl | he
    · refine ⟨hfree, hwelcome, p.1, ?_, Admission.accept_declares haccept⟩
      rw [registerAll_declaration? hall hnew, keep, ← hfqn]
      exact TypeTable.declaration?_place_self _ _
    · obtain ⟨hfree', hwelcome', hhas⟩ := hothers e he
      exact ⟨fun hmem => hfree' (List.mem_append_left _ hmem), hwelcome', hhas⟩

/-- Descriptions of what a table has are registered, and nothing is added. -/
theorem registerAll_has (hr : b.revision.replaying = false) (hwf : b.types.WellFormed)
    (hds : (ds.map (·.fqn)).Nodup)
    (h : ∀ d ∈ ds, d.fqn ∉ b.registered ∧ b.Welcomes d ∧ b.Has d) :
    b.registerAll ds = .ok { b with registered := b.registered ++ ds.map (·.fqn) } := by
  induction ds generalizing b with
  | nil =>
    rw [List.map_nil, List.append_nil]
    rfl
  | cons d rest ih =>
    rw [List.map_cons, List.nodup_cons] at hds
    obtain ⟨hfree, hwelcome, p, hp, hdeclares⟩ := h d List.mem_cons_self
    have hfqn : p.fqn = d.fqn := (TypeTable.mem_of_declaration? hp).2
    have hverdict : b.verdict d = .ok (p, { revision := b.revision }) := by
      rw [verdict, checkEntry_eq_ok_iff.mpr ⟨hwelcome, hfree⟩, ok_bind, hp,
        Admission.accept_declared hdeclares]
    have hkeep : b.keep (p, { revision := b.revision }) =
        { b with registered := b.registered ++ [d.fqn] } := by
      rw [keep, hwf.place_self (hfqn.symm ▸ hp), List.append_nil, hfqn]
    rw [registerAll, List.foldlM_cons, register_eq hr, hverdict]
    show registerAll (b.keep _) rest = _
    rw [hkeep]
    refine (ih (b := { b with registered := b.registered ++ [d.fqn] }) hr hwf hds.2
      fun e he => ?_).trans ?_
    · obtain ⟨hfree', hwelcome', hhas⟩ := h e (List.mem_cons_of_mem _ he)
      refine ⟨fun hmem => ?_, hwelcome', hhas⟩
      rcases List.mem_append.mp hmem with hmem | hmem
      · exact hfree' hmem
      · exact hds.1 (List.mem_singleton.mp hmem ▸ List.mem_map_of_mem he)
    · rw [List.append_assoc]
      rfl

/-- Namespaces that are declared one after the other are there, and nothing else is changed. -/
theorem foldlM_declareNamespace {names : List String}
    (h : names.foldlM declareNamespace b = .ok b') :
    b' = { b with namespaces := b'.namespaces } ∧
      (∀ name, (b.namespaces.lookup name).isSome = true →
        (b'.namespaces.lookup name).isSome = true) ∧
      ∀ name ∈ names, (b'.namespaces.lookup name).isSome = true := by
  induction names generalizing b with
  | nil =>
    cases h
    exact ⟨rfl, fun _ hname => hname, fun _ hname => absurd hname List.not_mem_nil⟩
  | cons name rest ih =>
    rw [List.foldlM_cons] at h
    obtain ⟨b₁, hfirst, hall⟩ := ok_of_bind h
    obtain ⟨hsame, hkept, hdeclared⟩ := ih hall
    rw [declareNamespace_eq] at hfirst
    obtain ⟨⟨⟩, -, hfirst⟩ := ok_of_bind hfirst
    split at hfirst
    · cases hfirst
    · cases hfirst
      dsimp only at hkept
      have hlookup (other : String) : ((Assoc.insert name none b.namespaces).lookup other).isSome =
          (decide (other = name) || (b.namespaces.lookup other).isSome) := by
        rw [Assoc.lookup_insert]
        split <;> simp [*]
      refine ⟨hsame, fun other hother => hkept other ?_, fun other hother => ?_⟩
      · rw [hlookup, hother, Bool.or_true]
      · rcases List.mem_cons.mp hother with rfl | hother
        · refine hkept other ?_
          rw [hlookup, decide_eq_true rfl, Bool.true_or]
        · exact hdeclared other hother

theorem Reachable.registerAll (hb : b.Reachable) (h : b.registerAll ds = .ok b') :
    b'.Reachable := by
  induction ds generalizing b with
  | nil =>
    cases h
    exact hb
  | cons d rest ih =>
    rw [Builder.registerAll, List.foldlM_cons] at h
    obtain ⟨b₁, hfirst, hall⟩ := ok_of_bind h
    exact ih (.call hb ((perform_register b d).trans hfirst)) hall

/-- Raised versions leave what a table has as it is. -/
theorem Has.of_build {s : Schema} (hs : b.build = .ok s) {d : Description} (h : b.Has d)
    (htypes : b'.types = s.types) : b'.Has d := by
  obtain ⟨p, hp, hdeclares⟩ := h
  have hfound : (s.types.declaration? d.fqn).map Declaration.shape = some p.shape := by
    rw [← TypeTable.declaration?_shape, shape_of_build hs, TypeTable.declaration?_shape, hp]
    rfl
  obtain ⟨p', hp', hshape⟩ := Option.map_eq_some_iff.mp hfound
  exact ⟨p', htypes ▸ hp', hdeclares.of_shape hshape⟩

/-- What was registered in a build can be registered again on top of the schema that was built, in
the namespaces that there were: any part of it and in any order.  Nothing is logged, the version
stays and nothing counts as changed, and what is built from there is persisted as the schema was. -/
theorem redeclare {b₁ : Builder} (hb : b.Reachable) (hds : b.registerAll ds = .ok b₁) {s : Schema}
    (hs : b₁.build = .ok s) (ha : s.Addressable) {again : List Description}
    (hagain : again.Subperm ds) :
    ∃ b₂, s.rebuild = .ok b₂ ∧ ∀ (names : List String) (b₃ : Builder),
      names.foldlM declareNamespace b₂ = .ok b₃ →
      (∀ name, (b.namespaces.lookup name).isSome = true → name ∈ names) →
      ∃ b₄ s', b₃.registerAll again = .ok b₄ ∧ b₄.changes = [] ∧
        b₄.revision.version = s.version ∧ b₄.revision.changed = false ∧ b₄.build = .ok s' ∧
        s'.toSnapshot = s.toSnapshot ∧ (∀ pretty, s'.text pretty = s.text pretty) ∧
        s'.fingerprint = s.fingerprint := by
  have hbuilt : s.Built := ⟨b₁, hb.registerAll hds, hs⟩
  refine ⟨_, Schema.rebuild_eq hbuilt ha, fun names b₃ hb₃ hnames => ?_⟩
  obtain ⟨hsame, -, hdeclared⟩ := foldlM_declareNamespace hb₃
  obtain ⟨hunique, hall⟩ := registerAll_inv hb.started hds
  have hdistinct : (again.map (·.fqn)).Nodup := by
    obtain ⟨part, hperm, hsub⟩ := hagain
    exact (hperm.map _).nodup_iff.mp (hunique.sublist (hsub.map _))
  have hthere : ∀ d ∈ again, d.fqn ∉ b₃.registered ∧ b₃.Welcomes d ∧ b₃.Has d := by
    intro d hd
    obtain ⟨-, ⟨ns, hns, hspace, hright⟩, hhas⟩ := hall d (hagain.subset hd)
    refine ⟨?_, ⟨ns, hns, ?_, hright⟩, hhas.of_build hs (by rw [hsame])⟩
    · rw [hsame]
      exact List.not_mem_nil
    · rw [checkNamespace_eq_ok_iff] at hspace ⊢
      exact hdeclared ns (hnames ns hspace)
  obtain ⟨revision, types, registered, namespaces, changes⟩ := b₃
  cases hsame
  have hregistered := registerAll_has rfl hbuilt.sound.wellFormed hdistinct hthere
  exact ⟨_, _, hregistered, rfl, rfl, rfl, build_of_settled hbuilt.sound hbuilt.settled, rfl,
    fun _ => rfl, rfl⟩

/-- Descriptions of all kinds, with an enum that is only marked as one, a required bool, and
versions that do not matter. -/
def wardrobeDescriptions : List Description :=
  [{ name := "size", ns := some "a", enum := some (.flag true),
     values := some [.key "small", .versioned "large" 9] },
    { name := "shirt", ns := some "a", version := some 12, fields := some [
        { name := "worn", typeName := "bool", required := true },
        { name := "size", typeName := "@a/size", required := true, version := some 40 }] },
    { Description.arrayOf "pile" "@a/shirt" with ns := some "a" },
    { Description.versionedOf "load" [⟨"@a/pile", 3, none⟩] with ns := some "a" },
    { Description.externalOf "label" "Label" with ns := some "a" },
    { Description.aliasOf "unit" "string" with ns := some "a", version := some 5 }]

/-- The schema that they build on top of a snapshot. -/
def wardrobe : Schema :=
  ⟨8, true, true,
    [⟨"unit", "a", 3, .alias "string"⟩,
      ⟨"size", "a", 8, .enum ⟨[⟨"small", 8⟩, ⟨"large", 8⟩], 1, false⟩⟩,
      ⟨"shirt", "a", 8, .struct ⟨false, some 0,
        [⟨"worn", "bool", false, false, 8⟩, ⟨"size", "@a/size", true, false, 8⟩]⟩⟩,
      ⟨"pile", "a", 8, .array "@a/shirt"⟩, ⟨"load", "a", 8, .versioned [⟨"@a/pile", 3, none⟩]⟩,
      ⟨"label", "a", 8, .external "Label"⟩],
    [("a", none)],
    [⟨.typeAdded, "@a/size", none, 8⟩, ⟨.typeAdded, "@a/shirt", none, 8⟩,
      ⟨.typeAdded, "@a/pile", none, 8⟩, ⟨.typeAdded, "@a/load", none, 8⟩,
      ⟨.typeAdded, "@a/label", none, 8⟩]⟩

theorem redeclare_wardrobe :
    ∃ b₂ b₃ b₄ s', wardrobe.rebuild = .ok b₂ ∧ ["a"].foldlM declareNamespace b₂ = .ok b₃ ∧
      b₃.registerAll (wardrobeDescriptions.drop 1).reverse = .ok b₄ ∧ b₄.changes = [] ∧
      b₄.revision.version = 8 ∧ b₄.revision.changed = false ∧ b₄.build = .ok s' ∧
      s'.toSnapshot = wardrobe.toSnapshot := by
  have hstart : ofSnapshot unitSnapshot true = .ok unitBuilder := by decide +kernel
  have hbuild : (crateBuilder.registerAll wardrobeDescriptions >>= build) = .ok wardrobe := by
    decide +kernel
  obtain ⟨b₁, hds, hs⟩ := ok_of_bind hbuild
  have hpart : (wardrobeDescriptions.drop 1).reverse.Subperm wardrobeDescriptions :=
    ⟨_, (List.reverse_perm _).symm, List.drop_sublist 1 _⟩
  obtain ⟨b₂, hb₂, hagain⟩ := redeclare ((Reachable.ofSnapshot hstart).after _) hds hs
    (by decide +kernel) hpart
  have hspace : wardrobe.rebuild >>= (fun b => ["a"].foldlM declareNamespace b) =
      .ok ⟨⟨8, true, false, false⟩, wardrobe.types, [], [("a", none)], []⟩ := by
    decide +kernel
  rw [hb₂, ok_bind] at hspace
  have hnames : ∀ name, (crateBuilder.namespaces.lookup name).isSome = true → name ∈ ["a"] := by
    have hdeclared : crateBuilder.namespaces = [("a", none)] := by decide +kernel
    intro name hname
    rw [hdeclared, List.lookup_cons] at hname
    cases heq : name == "a" with
    | true => exact List.mem_singleton.mpr (beq_iff_eq.mp heq)
    | false =>
      rw [heq] at hname
      cases hname
  obtain ⟨b₄, s', hb₄, hchanges, hversion, hchanged, hs', hsnapshot, -⟩ :=
    hagain ["a"] _ hspace hnames
  exact ⟨b₂, _, b₄, s', hb₂, hspace, hb₄, hchanges, hversion, hchanged, hs', hsnapshot⟩

end Builder

end WireSchema
