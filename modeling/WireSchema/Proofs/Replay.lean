import WireSchema.Proofs.Names

/-!
# Replaying a snapshot

A schema is continued by registering the descriptions of its declarations again.  A well-formed
declaration is admitted from its own description as it was (`accept_toDescription`), so the builder
that continues a built schema starts with the schema's own table and version
(`ofSnapshot_toSnapshot`).
-/

namespace WireSchema

namespace Declaration

/-- The number of fields is a signed number of 64 bits, as that of everything in memory is. -/
def Addressable (d : Declaration) : Prop :=
  match d.body with
  | .struct s => s.fields.length < 0x8000000000000000
  | _ => True

instance (d : Declaration) : Decidable d.Addressable := by
  unfold Addressable
  exact match d.body with
    | .struct _ => inferInstance
    | .alias _ | .enum _ | .array _ | .versioned _ | .external _ => isTrue trivial

theorem kind_toDescription (d : Declaration) : d.toDescription.kind = d.kind := by
  rcases d with ⟨name, ns, version, body⟩
  cases body <;> rfl

theorem name_toDescription (d : Declaration) : d.toDescription.name = d.name := by
  rcases d with ⟨name, ns, version, body⟩
  cases body <;> rfl

theorem ns_toDescription (d : Declaration) : d.toDescription.ns = some d.ns := by
  rcases d with ⟨name, ns, version, body⟩
  cases body <;> rfl

theorem fqn_toDescription (d : Declaration) : d.toDescription.fqn = d.fqn := by
  rw [Description.fqn, ns_toDescription, name_toDescription]
  rfl

end Declaration

namespace Admission

/-! ## Positions -/

theorem explicitPosition_describe {fqn : String} {count : Nat} {position : Option Nat}
    (hinside : ∀ p, position = some p → p ≤ count) (hcount : count < 0x8000000000000000) :
    explicitPosition fqn count (some (Declaration.describePosition position)) = .ok position := by
  cases position with
  | none => rfl
  | some p =>
    have hp := hinside p rfl
    have hint : (Declaration.describePosition (some p)).toInt = p := by
      rw [Declaration.describePosition]
      exact Int64.toInt_ofInt_of_le (by omega) (by omega)
    unfold explicitPosition
    dsimp only
    rw [hint, if_neg (by omega), if_pos (by omega), Int.toNat_natCast]

/-- Flags that are not set are not gained either when no field is optional. -/
theorem position_or_firstOptional {s : StructBody} (hs : s.WellFormed) :
    s.flagsPosition.or (firstOptional (s.fields.map Declaration.describeField)) =
      s.flagsPosition := by
  cases hp : s.flagsPosition with
  | some p => rfl
  | none =>
    rw [Option.none_or, firstOptional, List.findIdx?_eq_none_iff]
    intro f hf
    obtain ⟨g, hg, rfl⟩ := List.mem_map.mp hf
    obtain ⟨i, hi⟩ := List.getElem?_of_mem hg
    cases hr : g.required with
    | true => simp [Declaration.describeField, hr]
    | false =>
      have hshape : s.shapes[i]? = some g.shape := by
        rw [StructBody.shapes, List.getElem?_map, hi]
        rfl
      obtain ⟨p, -, hp'⟩ := hs.behind i g.shape hshape hr
      rw [hp] at hp'
      cases hp'

theorem checkPosition_describe {fqn : String} {s : StructBody} (hs : s.WellFormed) :
    checkPosition fqn s.flagsPosition (firstOptional (s.fields.map Declaration.describeField)) =
      .ok () := by
  unfold checkPosition
  split
  · rename_i p first hp hfirst
    rw [firstOptional, List.findIdx?_map, List.findIdx?_eq_some_iff_getElem] at hfirst
    obtain ⟨hlt, hoptional, -⟩ := hfirst
    have hshape : s.shapes[first]? = some s.fields[first].shape := by
      rw [StructBody.shapes, List.getElem?_map, List.getElem?_eq_getElem hlt]
      rfl
    obtain ⟨q, hq, hp'⟩ := hs.behind first _ hshape
      (by simpa [Declaration.describeField, Field.shape] using hoptional)
    rw [hp] at hp'
    cases hp'
    rw [if_neg (Nat.not_lt.mpr hq)]
  · rfl

theorem relaxBool_describe {s : StructBody} (hs : s.WellFormed) :
    (s.fields.map Declaration.describeField).map relaxBool =
      s.fields.map Declaration.describeField := by
  rw [List.map_map]
  refine List.map_congr_left fun f hf => ?_
  rw [Function.comp_apply, relaxBool, if_neg]
  intro hbool
  simp only [Declaration.describeField, Bool.and_eq_true, Bool.not_eq_true', beq_iff_eq] at hbool
  exact hs.relaxed f.shape (List.mem_map_of_mem hf) hbool.1.1 hbool.1.2 hbool.2

/-! ## Declarations -/

section Replay

open Attempt

variable {s : Session} (hr : s.revision.replaying = true)

include hr

theorem stamp_replaying (persisted : UInt32) (kind : ChangeKind) (fqn : String)
    (member : Option String) : s.stamp (some persisted) kind fqn member = (persisted, s) := by
  rw [Session.stamp, if_pos hr]
  rfl

theorem fresh_replaying (fqn : String) (version : UInt32) (body : Body) :
    (fresh fqn (some version) body).result s = .ok ((version, body), s) := by
  rw [fresh, result_stamp_bind, stamp_replaying hr, result_pure]

theorem freshStruct_describe (fqn : String) (version : UInt32) (body : StructBody) :
    (freshStruct fqn (some version) body.compact body.flagsPosition
      (body.fields.map Declaration.describeField)).result s = .ok ((version, body), s) := by
  have hfields : (body.fields.map Declaration.describeField).map (fun f =>
      stampedField f (if s.revision.replaying then f.version.getD version else version)) =
      body.fields := by
    rw [List.map_map]
    refine (List.map_congr_left fun f _ => ?_).trans (List.map_id _)
    simp only [Function.comp_apply, hr, if_true]
    rfl
  rw [freshStruct, result_stamp_bind, stamp_replaying hr, result_bind,
    result_of_ok (runFrom_get s), ok_bind]
  dsimp only
  rw [hfields, result_pure]

theorem freshValues_describe (version : UInt32) (values : List EnumValue) :
    freshValues s version (values.map Declaration.describeValue) = values := by
  rw [freshValues, List.map_map]
  refine (List.map_congr_left fun e _ => ?_).trans (List.map_id _)
  simp only [Function.comp_apply, hr, if_true]
  rfl

/-- A well-formed struct is admitted from its own description as it was. -/
theorem admitStruct_describe (fqn : String) (version : UInt32) {body : StructBody}
    (hs : body.WellFormed) (ha : body.fields.length < 0x8000000000000000) {d : Description}
    (hfields : d.fields = some (body.fields.map Declaration.describeField))
    (hposition : d.flagsPosition = some (Declaration.describePosition body.flagsPosition))
    (hcompact : d.compact = some body.compact) (hversion : d.version = some version) :
    (admitStruct fqn none d).result s = .ok ((version, .struct body), s) := by
  have hfew : ¬ maxOptionals <
      (body.fields.map Declaration.describeField).countP fun f => !f.required := by
    have hcount := hs.few
    rw [StructBody.shapes, List.countP_map] at hcount
    rw [List.countP_map]
    exact Nat.not_lt.mpr hcount
  have hinside : ∀ p, body.flagsPosition = some p →
      p ≤ (body.fields.map Declaration.describeField).length := by
    intro p hp
    have := hs.inside p hp
    rwa [StructBody.length_shapes, ← List.length_map Declaration.describeField] at this
  have hcount : (body.fields.map Declaration.describeField).length < 0x8000000000000000 := by
    rwa [List.length_map]
  unfold admitStruct
  rw [hfields]
  dsimp only
  rw [relaxBool_describe hs, if_neg hfew, hposition, explicitPosition_describe hinside hcount]
  rw [result_check_bind, ok_bind, result_bind, stampStruct]
  have hfirst : (body.fields.map Declaration.describeField).findIdx? (fun f => !f.required) =
      firstOptional (body.fields.map Declaration.describeField) := rfl
  rw [hfirst, position_or_firstOptional hs, hcompact, hversion, Option.getD_some,
    freshStruct_describe hr, ok_bind, result_check_bind, checkPosition_describe hs, ok_bind,
    result_pure]

/-- A well-formed declaration is admitted from its own description as it was. -/
theorem accept_toDescription {d : Declaration} (hd : d.body.WellFormed) (ha : d.Addressable) :
    accept s none d.toDescription = .ok (d, s) := by
  have hbody : (admitBody d.toDescription.fqn none d.toDescription).result s =
      .ok ((d.version, d.body), s) := by
    rw [admitBody, Declaration.kind_toDescription]
    rcases d with ⟨name, ns, version, body⟩
    cases body with
    | «alias» target => exact fresh_replaying hr _ _ _
    | external symbol => exact fresh_replaying hr _ _ _
    | array element => exact fresh_replaying hr _ _ _
    | enum e =>
      simp only [Declaration.kind, Body.kind, earlier, Option.bind_none, admitEnum,
        Description.enumEntries?, Declaration.toDescription]
      rw [result_stamp_bind, stamp_replaying hr, result_bind, result_of_ok (runFrom_get s), ok_bind,
        freshValues_describe hr]
      rfl
    | versioned entries =>
      have hentries : entries ≠ [] ∧ Codec.Ascending entries := hd
      simp only [Declaration.kind, Body.kind, earlier, Option.bind_none, admitVersioned,
        Declaration.toDescription, Option.getD_some, increasing_of_ascending hentries.2,
        List.isEmpty_iff, hentries.1]
      exact fresh_replaying hr _ _ _
    | struct body => exact admitStruct_describe hr _ version hd ha rfl rfl rfl rfl
  rw [accept_eq, hbody]
  rcases d with ⟨name, ns, version, body⟩
  cases body <;> rfl

end Replay

end Admission

namespace Builder

theorem register_toDescription {b : Builder} (hb : b.revision.replaying = true) {d : Declaration}
    (hnamed : d.Named) (hd : d.body.WellFormed) (ha : d.Addressable)
    (hfree : b.types.declaration? d.fqn = none) :
    b.register d.toDescription = .ok { b with types := b.types ++ [d] } := by
  have hnames :
      checkNames (d.ns :: d.toDescription.name :: d.toDescription.fieldNames) = .ok () := by
    rw [Declaration.name_toDescription]
    exact checkNames_eq_ok_iff.mpr hnamed
  have htaken : b.isTaken d.toDescription.fqn = false := by
    rw [isTaken, if_pos hb, Declaration.fqn_toDescription, hfree]
    rfl
  have haccept := Admission.accept_toDescription (s := { revision := b.revision }) hb hd ha
  have hhome : b.checkHome d.ns = .ok () := if_pos hb
  have hvetted : b.vetted false none d.toDescription = .ok (d, { revision := b.revision }) := by
    rw [vetted, home_eq_ok_iff.mpr (Declaration.ns_toDescription d), ok_bind, hhome, ok_bind,
      hnames, ok_bind, haccept]
    rfl
  rw [register_eq_vetted, htaken, Declaration.fqn_toDescription, hfree, hvetted]
  show Except.ok (b.commit (place b.types d) d.fqn { revision := b.revision }) = _
  rw [place_of_none hfree, commit, if_pos hb, List.append_nil]

/-- Replaying a table on top of another puts its declarations behind those of the other. -/
theorem registerAll_toDescription {b : Builder} (hb : b.revision.replaying = true) {t : TypeTable}
    (hnamed : t.Named) (hwf : TypeTable.WellFormed (b.types ++ t)) (ha : ∀ d ∈ t, d.Addressable) :
    b.registerAll (t.map (·.toDescription)) = .ok { b with types := b.types ++ t } := by
  induction t generalizing b with
  | nil => rw [List.append_nil]; rfl
  | cons d rest ih =>
    have hfree : b.types.declaration? d.fqn = none := by
      have hunique := hwf.unique
      rw [List.map_append, List.nodup_append] at hunique
      exact TypeTable.declaration?_eq_none_iff.mpr fun hmem =>
        hunique.2.2 _ hmem _ (List.mem_map_of_mem List.mem_cons_self) rfl
    have hregister := register_toDescription hb (hnamed d List.mem_cons_self)
      (hwf.bodies d (List.mem_append_right _ List.mem_cons_self)) (ha d List.mem_cons_self) hfree
    have hsplit : b.types ++ d :: rest = b.types ++ [d] ++ rest := by simp
    rw [hsplit] at hwf ⊢
    rw [registerAll, List.map_cons, List.foldlM_cons, hregister]
    exact ih hb (fun e he => hnamed e (List.mem_cons_of_mem _ he)) hwf
      (fun e he => ha e (List.mem_cons_of_mem _ he))

end Builder

/-- Every struct of a schema has an addressable number of fields. -/
def Schema.Addressable (s : Schema) : Prop := ∀ d ∈ s.types, d.Addressable

instance (s : Schema) : Decidable s.Addressable :=
  inferInstanceAs (Decidable (∀ d ∈ s.types, d.Addressable))

namespace Schema

/-- The builder on top of what a built schema is persisted as starts with its table and its version,
and nothing else. -/
theorem ofSnapshot_toSnapshot {s : Schema} (hs : s.Built) (ha : s.Addressable)
    (versioned : Bool) :
    Builder.ofSnapshot s.toSnapshot versioned =
      .ok { revision := ⟨s.version, versioned, false, false⟩, types := s.types } := by
  have hreplay := Builder.registerAll_toDescription
    (b := { revision := .resume s.version versioned }) rfl hs.named hs.sound.wellFormed ha
  unfold Builder.ofSnapshot toSnapshot
  dsimp only
  rw [hreplay]
  rfl

theorem rebuild_eq {s : Schema} (hs : s.Built) (ha : s.Addressable) :
    s.rebuild = .ok { revision := ⟨s.version, s.versioned, false, false⟩, types := s.types } :=
  ofSnapshot_toSnapshot hs ha s.versioned

theorem rebuild_types {s : Schema} (hs : s.Built) (ha : s.Addressable) {b : Builder}
    (h : s.rebuild = .ok b) : b.types = s.types := by
  rw [rebuild_eq hs ha] at h
  cases h
  rfl

/-- Built schemas that are persisted alike have one table. -/
theorem types_eq_of_toSnapshot {s s' : Schema} (hs : s.Built) (hs' : s'.Built)
    (ha : s.Addressable) (ha' : s'.Addressable) (h : s'.toSnapshot = s.toSnapshot) :
    s'.types = s.types := by
  have hreplay := ofSnapshot_toSnapshot hs ha true
  have hreplay' := ofSnapshot_toSnapshot hs' ha' true
  rw [h, hreplay] at hreplay'
  exact congrArg Builder.types (Except.ok.inj hreplay').symm

end Schema

end WireSchema
