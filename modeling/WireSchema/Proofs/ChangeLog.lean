import WireSchema.Proofs.Redeclaration
import WireSchema.Proofs.Unchanged

/-!
# The log is the difference

A type that is new is logged as such, and a type that was known is logged member by member, from the
first member that it did not have (`Body.log`).  Each admission logs that and nothing else
(`Admission.accept_changes`), and registrations in a row log one after the other
(`Builder.logged_after`).  Since a replay declares what the snapshot describes, the log of a build
can be told from the snapshot and the declarations that were registered on top of it
(`Builder.changes_after`).
-/

namespace WireSchema

open Admission

/-! ## Members -/

/-- The members of a body, each with the kind of change that adds it and its name in the log. -/
def Body.members : Body → List (ChangeKind × String)
  | .enum e => e.values.map fun v => (.enumValueAdded, v.key)
  | .struct s => s.fields.map fun f => (.fieldAdded, f.name)
  | .versioned entries => entries.map fun e => (.versionAdded, toString e.version.toNat)
  | _ => []

/-- What there is to log of a body, given how many members of it were known before. -/
def Body.log (fqn : String) (version : UInt32) (body : Body) : Option Nat → List Change
  | none => [⟨.typeAdded, fqn, none, version⟩]
  | some known => (body.members.drop known).map fun m => ⟨m.1, fqn, some m.2, version⟩

/-- What there is to log of a declaration. -/
def Declaration.log (d : Declaration) (version : UInt32) (known : Option Nat) : List Change :=
  d.body.log d.fqn version known

/-- The number of members that a description gives. -/
def Description.memberCount (d : Description) : Nat :=
  match d.kind with
  | .enum => (d.enumEntries?.getD []).length
  | .struct => (d.fields.getD []).length
  | .versioned => (d.versions.getD []).length
  | _ => 0

/-- The number of members that a snapshot gives a type, if it describes the type. -/
def Snapshot.memberCount? (p : Snapshot) (fqn : String) : Option Nat :=
  (p.declarations.find? fun d => d.fqn == fqn).map Description.memberCount

/-- The number of members that a table gives a type, if it declares the type. -/
def TypeTable.memberCount? (t : TypeTable) (fqn : String) : Option Nat :=
  (t.declaration? fqn).map fun d => d.body.members.length

theorem Body.log_eq_nil {fqn : String} {version : UInt32} {body : Body} {known : Option Nat}
    (h : body.log fqn version known = []) (version' : UInt32) :
    body.log fqn version' known = [] := by
  cases known with
  | none => cases h
  | some known =>
    have hdrop : body.members.drop known = [] := List.map_eq_nil_iff.mp h
    rw [log, hdrop]
    rfl

/-- Members that stand behind the known ones are what there is to log. -/
theorem Body.log_of_append {body : Body} (known : Body) {kind : ChangeKind} {names : List String}
    (h : body.members = known.members ++ names.map fun name => (kind, name)) (fqn : String)
    (version : UInt32) :
    body.log fqn version (some known.members.length) =
      names.map fun name => ⟨kind, fqn, some name, version⟩ := by
  rw [log, h, List.drop_left, List.map_map]
  rfl

/-- What is declared has as many members as its description. -/
theorem Description.Declares.memberCount {d : Description} {p : Declaration} (h : d.Declares p) :
    d.memberCount = p.body.members.length := by
  have hbody := h.body
  unfold Description.memberCount
  cases hb : p.body with
  | enum e =>
    rw [hb] at hbody
    obtain ⟨hkind, ⟨entries, hentries, hkeys⟩, -⟩ := hbody
    have hlength := congrArg List.length hkeys
    simp only [EnumBody.keys, List.length_map] at hlength
    simp [hkind, hentries, Body.members, hlength]
  | struct s =>
    rw [hb] at hbody
    obtain ⟨hkind, given, explicit, hs⟩ := hbody
    have hlength := congrArg List.length hs.shapes
    simp only [StructBody.length_shapes, List.length_map] at hlength
    simp [hkind, hs.fields, Body.members, hlength]
  | versioned entries =>
    rw [hb] at hbody
    obtain ⟨hkind, hentries, -⟩ := hbody
    simp [hkind, hentries, Body.members]
  | _ =>
    rw [hb] at hbody
    simp [hbody.1, Body.members]

/-! ## Admissions -/

/-- Behind the replay members are logged one after the other with the raised version. -/
theorem Session.changes_stampMembers {s : Session} (hr : s.revision.replaying = false)
    (kind : ChangeKind) (fqn : String) (members : List String) :
    (s.stampMembers kind fqn members).2.changes =
      s.changes ++ members.map fun m => ⟨kind, fqn, some m, s.revision.bump.version⟩ := by
  induction members generalizing s with
  | nil => simp [stampMembers]
  | cons m rest ih =>
    have hr' : s.revision.bump.replaying = false := (Revision.replaying_bump _).trans hr
    rw [stampMembers, stamp_of_started hr]
    simp [ih (s := ⟨s.revision.bump, _⟩) hr', Revision.bump_bump]

namespace Admission

variable {s : Session} (hr : s.revision.replaying = false) {fqn : String} {d : Description}
  {a : Admitted}

include hr

theorem changes_fresh (persisted : Option UInt32) (body : Body) :
    (Admitted.fresh s fqn persisted body).session.changes =
      s.changes ++ body.log fqn s.revision.bump.version none := by
  rw [Admitted.fresh, Session.stamp_of_started hr]
  rfl

theorem EnumAdmitted.changes {entries : List EnumEntry} {previous : Option (UInt32 × EnumBody)}
    (h : EnumAdmitted s fqn d entries previous a) :
    a.session.changes = s.changes ++ a.body.log fqn s.revision.bump.version
      ((previous.map (Prod.map id Body.enum)).map fun p => p.2.members.length) := by
  cases h with
  | fresh hstamp =>
    rw [Session.stamp_of_started hr] at hstamp
    cases hstamp
    rfl
  | @grown version known hoffset hstrings hkeys =>
    have hadded := map_zip_stamps
      (fun key v => (ChangeKind.enumValueAdded, (⟨key, v⟩ : EnumValue).key))
      (fun key => (ChangeKind.enumValueAdded, key))
      (length_stampMembers .enumValueAdded fqn s
        ((entries.map EnumEntry.keyText).drop known.values.length)) fun _ _ => rfl
    refine (Session.changes_stampMembers hr _ _ _).trans (congrArg (s.changes ++ ·) ?_)
    refine (Body.log_of_append (.enum known) ?_ _ _).symm
    simp only [Admitted.grownEnum, Body.members, List.map_append, List.map_map]
    exact congrArg (_ ++ ·) hadded

theorem StructAdmitted.changes {fields : List FieldDescription} {explicit : Option Nat}
    {previous : Option (UInt32 × StructBody)}
    (h : StructAdmitted s fqn d fields explicit previous a) :
    a.session.changes = s.changes ++ a.body.log fqn s.revision.bump.version
      ((previous.map (Prod.map id Body.struct)).map fun p => p.2.members.length) := by
  cases h with
  | fresh hposition =>
    rw [Admitted.freshStruct, Session.stamp_of_started hr]
    rfl
  | @grown version known position hlen hcompact hfrozen hknown hkept hposition =>
    have hadded := map_zip_stamps (fun f v => (ChangeKind.fieldAdded, (stampedField f v).name))
      (fun f => (ChangeKind.fieldAdded, f.name))
      (length_stampMembers_map .fieldAdded fqn s (·.name) (fields.drop known.fields.length))
      fun _ _ => rfl
    refine (Session.changes_stampMembers hr _ _ _).trans (congrArg (s.changes ++ ·) ?_)
    refine (Body.log_of_append (.struct known) ?_ _ _).symm
    simp only [Admitted.grownStruct, Body.members, List.map_append, List.map_map]
    exact congrArg (_ ++ ·) hadded

theorem VersionedAdmitted.changes {entries : List VersionEntry}
    {previous : Option (UInt32 × List VersionEntry)}
    (h : VersionedAdmitted s fqn d entries previous a) :
    a.session.changes = s.changes ++ a.body.log fqn s.revision.bump.version
      ((previous.map (Prod.map id Body.versioned)).map fun p => p.2.members.length) := by
  cases h with
  | fresh => exact changes_fresh hr _ _
  | @grown version known hknown =>
    obtain ⟨more, rfl⟩ := hknown
    refine (Session.changes_stampMembers hr _ _ _).trans (congrArg (s.changes ++ ·) ?_)
    refine (Body.log_of_append (.versioned known) ?_ _ _).symm
    simp [Admitted.grownVersioned, Body.members]

/-- What is admitted is logged from the first member that was not known. -/
theorem BodyAdmitted.changes {previous : Option (UInt32 × Body)}
    (h : BodyAdmitted s fqn d previous a) :
    a.session.changes = s.changes ++ a.body.log fqn s.revision.bump.version
      (previous.map fun p => p.2.members.length) := by
  cases h with
  | text hbody h =>
    cases h with
    | new => exact changes_fresh hr _ _
    | kept version => cases hbody <;> simp [Body.log, Body.members]
  | enum _ _ h => exact h.changes hr
  | struct _ _ _ _ h => exact h.changes hr
  | versioned _ _ _ _ h => exact h.changes hr

theorem accept_changes {s' : Session} {previous : Option Declaration} {q : Declaration}
    (h : accept s previous d = .ok (q, s')) :
    s'.changes = s.changes ++
      q.log s.revision.bump.version (previous.map fun p => p.body.members.length) := by
  obtain ⟨a, ha, rfl, rfl⟩ := accept_cases h
  have hchanges := ha.changes hr
  rw [Option.map_map] at hchanges
  exact hchanges

end Admission

/-! ## Runs of calls -/

namespace Builder

/-- The descriptions that a run of calls registers, those of calls that fail left out. -/
def registrations (b : Builder) (calls : List Call) : List Description :=
  (b.succeeding calls).filterMap Call.description?

/-- Declarations were registered one after the other, each under a free name, and their members
that the table did not have were logged. -/
structure Logged (b : Builder) (ds : List Description) (qs : List Declaration) (b' : Builder) :
    Prop where
  declares : List.Forall₂ Description.Declares ds qs
  unique : (qs.map (·.fqn)).Nodup
  free : ∀ q ∈ qs, q.fqn ∉ b.registered
  found : ∀ name, b'.types.declaration? name =
    (TypeTable.declaration? qs name).or (b.types.declaration? name)
  changes : b'.changes = b.changes ++
    qs.flatMap fun q => q.log b.revision.bump.version (b.types.memberCount? q.fqn)

variable {b b₁ b' : Builder} {ds : List Description} {qs : List Declaration}

theorem Logged.nil (b : Builder) : Logged b [] [] b where
  declares := .nil
  unique := List.nodup_nil
  free := nofun
  found _ := rfl
  changes := (List.append_nil _).symm

theorem Logged.of_idle (h : Logged b₁ ds qs b') (htypes : b₁.types = b.types)
    (hregistered : b₁.registered = b.registered) (hrevision : b₁.revision = b.revision)
    (hchanges : b₁.changes = b.changes) : Logged b ds qs b' where
  declares := h.declares
  unique := h.unique
  free := hregistered ▸ h.free
  found := htypes ▸ h.found
  changes := hchanges ▸ hrevision ▸ htypes ▸ h.changes

theorem Logged.cons (hr : b.revision.replaying = false) {d : Description} {q : Declaration}
    {session : Session} (hd : b.verdict d = .ok (q, session))
    (h : Logged (b.keep (q, session)) ds qs b') : Logged b (d :: ds) (q :: qs) b' := by
  obtain ⟨⟨⟩, hentry, haccept⟩ := ok_of_bind hd
  have hfqn : q.fqn = d.fqn := fqn_of_accept haccept
  have hfree : ∀ p ∈ qs, p.fqn ≠ q.fqn ∧ p.fqn ∉ b.registered := by
    intro p hp
    have hp := h.free p hp
    simp only [keep, List.mem_append, List.mem_singleton, not_or] at hp
    exact hp.symm
  have hother {name : String} (hne : name ≠ q.fqn) :
      (b.keep (q, session)).types.declaration? name = b.types.declaration? name :=
    TypeTable.declaration?_place hne
  refine ⟨.cons (accept_declares haccept) h.declares, ?_, ?_, ?_, ?_⟩
  · rw [List.map_cons, List.nodup_cons]
    refine ⟨fun hmem => ?_, h.unique⟩
    obtain ⟨p, hp, heq⟩ := List.mem_map.mp hmem
    exact (hfree p hp).1 heq
  · intro p hp
    rcases List.mem_cons.mp hp with rfl | hp
    · rw [hfqn]
      exact (checkEntry_eq_ok_iff.mp hentry).2
    · exact (hfree p hp).2
  · intro name
    rw [h.found, TypeTable.declaration?_cons]
    by_cases hname : q.fqn = name
    · -- nothing later has this name
      subst hname
      have hnone : TypeTable.declaration? qs q.fqn = none := by
        rw [TypeTable.declaration?_eq_none_iff]
        intro hmem
        obtain ⟨p, hp, heq⟩ := List.mem_map.mp hmem
        exact (hfree p hp).1 heq
      rw [hnone, if_pos rfl, keep, TypeTable.declaration?_place_self]
      rfl
    · rw [if_neg hname, hother (Ne.symm hname)]
  · have hlog := accept_changes (s := { revision := b.revision }) hr haccept
    have hrevision : (b.keep (q, session)).revision.bump = b.revision.bump :=
      (accept_stamps haccept).bump_eq
    rw [h.changes, List.flatMap_cons, hrevision, keep, hlog, ← hfqn, List.nil_append,
      List.append_assoc]
    refine congrArg (b.changes ++ ·) (congrArg (_ ++ ·) ?_)
    refine List.flatMap_congr fun p hp => ?_
    rw [TypeTable.memberCount?, TypeTable.memberCount?]
    exact congrArg (fun known => p.log _ (Option.map _ known)) (hother (hfree p hp).1)

/-- After any calls the log goes on with what the registered declarations add to the table. -/
theorem logged_after (hr : b.revision.replaying = false) (calls : List Call) :
    ∃ qs, Logged b (b.registrations calls) qs (b.after calls) := by
  induction calls generalizing b with
  | nil => exact ⟨[], .nil b⟩
  | cons c rest ih =>
    rw [after_cons, registrations, succeeding_cons]
    cases h : b.perform c with
    | error e => exact ih hr
    | ok b₁ =>
      obtain ⟨qs, hqs⟩ := ih (b := b₁) ((perform_stamps h).replaying_eq.trans hr)
      dsimp only
      rcases perform_cases h with ⟨d, hd, hreg⟩ | ⟨hd, htypes, hregistered, hrevision, hchanges⟩
      · rw [register_eq hr] at hreg
        obtain ⟨⟨q, session⟩, hverdict, rfl⟩ := ok_of_map hreg
        rw [List.filterMap_cons_some hd]
        exact ⟨q :: qs, hqs.cons hr hverdict⟩
      · rw [List.filterMap_cons_none hd]
        exact ⟨qs, hqs.of_idle htypes hregistered hrevision hchanges⟩

/-! ## Replays -/

/-- A replay declares what is described, in order. -/
theorem declares_of_replay (hr : b.revision.replaying = true) (h : b.registerAll ds = .ok b') :
    ∃ ts, b'.types = b.types ++ ts ∧ List.Forall₂ Description.Declares ds ts := by
  induction ds generalizing b with
  | nil =>
    cases h
    exact ⟨[], (List.append_nil _).symm, .nil⟩
  | cons d rest ih =>
    rw [registerAll, List.foldlM_cons] at h
    obtain ⟨b₁, h₁, h⟩ := ok_of_bind h
    have hr₁ : b₁.revision.replaying = true := (register_stamps h₁).replaying_eq.trans hr
    obtain ⟨ts, hts, hdeclares⟩ := ih hr₁ h
    obtain ⟨-, q, session, -, -, hfree, haccept, htypes, -⟩ := register_inv h₁
    have hnone : b.types.declaration? q.fqn = none := by
      rw [isTaken, if_pos hr] at hfree
      rw [fqn_of_accept haccept]
      simpa using hfree
    refine ⟨q :: ts, ?_, .cons (accept_declares haccept) hdeclares⟩
    rw [hts, htypes, place_of_none hnone, List.append_assoc]
    rfl

/-- A replayed table has as many members of a type as the snapshot gives it. -/
theorem memberCount?_ofSnapshot {p : Snapshot} {versioned : Bool}
    (h : ofSnapshot p versioned = .ok b) (fqn : String) :
    b.types.memberCount? fqn = p.memberCount? fqn := by
  obtain ⟨b₁, h₁, h⟩ := ok_of_bind h
  cases h
  obtain ⟨ts, hts, hdeclares⟩ := declares_of_replay rfl h₁
  have hfound : Option.Rel Description.Declares (p.declarations.find? fun d => d.fqn == fqn)
      (TypeTable.declaration? b₁.types fqn) := by
    rw [hts]
    refine find?_forall₂ (fun {d e} hd => ?_) hdeclares
    rw [Description.fqn, Declaration.fqn, hd.name, hd.ns]
  show TypeTable.memberCount? b₁.types fqn = _
  rw [TypeTable.memberCount?, Snapshot.memberCount?]
  generalize TypeTable.declaration? b₁.types fqn = found, p.declarations.find? _ = described
    at hfound
  cases hfound with
  | none => rfl
  | some hd => exact congrArg some hd.memberCount.symm

/-- The log of a build on top of a snapshot, after any calls, failing ones among them.  The calls
that succeed register declarations of distinct names, each of which is what was described, and the
table has these declarations in the place of the replayed ones.  The log tells of them in order: of
a type that the snapshot does not describe that it is new, and of any other type the members behind
those that the snapshot gives it. -/
theorem changes_after {p : Snapshot} {versioned : Bool} (h : ofSnapshot p versioned = .ok b)
    (calls : List Call) :
    ∃ qs : List Declaration,
      List.Forall₂ Description.Declares (b.registrations calls) qs ∧ (qs.map (·.fqn)).Nodup ∧
      (∀ name, (b.after calls).types.declaration? name =
        (TypeTable.declaration? qs name).or (b.types.declaration? name)) ∧
      (b.after calls).changes =
        qs.flatMap fun q => q.log (b.after calls).revision.version (p.memberCount? q.fqn) := by
  have hsession := session_ofSnapshot h
  have hr : b.revision.replaying = false :=
    congrArg (fun s : Session => s.revision.replaying) hsession
  obtain ⟨qs, hqs⟩ := logged_after hr calls
  refine ⟨qs, hqs.declares, hqs.unique, hqs.found, ?_⟩
  have hnone : b.changes = [] := congrArg Session.changes hsession
  have hlog : (b.after calls).changes =
      qs.flatMap fun q => q.log b.revision.bump.version (p.memberCount? q.fqn) := by
    rw [hqs.changes, hnone, List.nil_append]
    exact List.flatMap_congr fun q _ => by rw [memberCount?_ofSnapshot h]
  have hidle : Session.Tally b.revision b.session := by
    rw [session, hnone]
    exact .idle
  rcases (hidle.stamps hr (b.after_stamps calls)).quiet_or_bumped with hquiet | hbumped
  · -- without a change there is nothing to log, whatever the version
    have hquiet : (b.after calls).changes = [] := hquiet
    rw [hquiet] at hlog ⊢
    refine (List.flatMap_eq_nil_iff.mpr fun q hq => ?_).symm
    exact Body.log_eq_nil (List.flatMap_eq_nil_iff.mp hlog.symm q hq) _
  · rw [hlog, show (b.after calls).revision = b.revision.bump from hbumped]

/-- A snapshot with a struct, an enum, a versioned type and an alias. -/
def parcelSnapshot : Snapshot :=
  ⟨4, [
    { name := "box", ns := some "a", version := some 2,
      fields := some [
        { name := "width", typeName := "uint", required := true, version := some 1 },
        { name := "label", typeName := "string", version := some 2 }] },
    { name := "state", ns := some "a", version := some 3,
      enum := some (.values [.versioned "new" 1, .versioned "sent" 3]) },
    { name := "form", ns := some "a", version := some 4, versions := some [⟨"uint", 1, none⟩] },
    { Description.aliasOf "weight" "uint" with ns := some "a", version := some 1 }]⟩

/-- The builder on top of it. -/
def parcelBuilder : Builder :=
  { revision := ⟨4, true, false, false⟩
    types := [
      ⟨"box", "a", 2, .struct ⟨false, some 1,
        [⟨"width", "uint", true, false, 1⟩, ⟨"label", "string", false, false, 2⟩]⟩⟩,
      ⟨"state", "a", 3, .enum ⟨[⟨"new", 1⟩, ⟨"sent", 3⟩], 1, false⟩⟩,
      ⟨"form", "a", 4, .versioned [⟨"uint", 1, none⟩]⟩, ⟨"weight", "a", 1, .alias "uint"⟩] }

/-- Calls that let three types grow, declare one again and add one; the second struct and the second
enum are refused. -/
def parcelCalls : List Call :=
  let width : FieldDescription := { name := "width", typeName := "uint", required := true }
  let label : FieldDescription := { name := "label", typeName := "string" }
  [.declareNamespace "a",
    .registerIn "a" { name := "box", fields := some [width] },
    .registerIn "a" { name := "form", versions := some [⟨"uint", 1, none⟩, ⟨"@a/box", 12, none⟩] },
    .registerIn "a" { name := "box", fields := some [width, label, { width with name := "height" },
      { label with name := "note" }] },
    .registerIn "a" (.aliasOf "weight" "uint"),
    .registerIn "a" (.enumOf "state" ["new", "sent", "lost"]),
    .registerIn "a" (.enumOf "state" ["new", "sent", "lost", "found"]),
    .registerIn "a" (.arrayOf "boxes" "@a/box")]

theorem changes_after_parcels :
    ∃ qs : List Declaration, qs.length = 5 ∧ (qs.map (·.fqn)).Nodup ∧
      (qs.flatMap fun q => q.log (parcelBuilder.after parcelCalls).revision.version
        (parcelSnapshot.memberCount? q.fqn)) =
        [⟨.versionAdded, "@a/form", some "12", 5⟩, ⟨.fieldAdded, "@a/box", some "height", 5⟩,
          ⟨.fieldAdded, "@a/box", some "note", 5⟩, ⟨.enumValueAdded, "@a/state", some "lost", 5⟩,
          ⟨.typeAdded, "@a/boxes", none, 5⟩] := by
  have hstart : ofSnapshot parcelSnapshot true = .ok parcelBuilder := by decide +kernel
  have hcount : (parcelBuilder.registrations parcelCalls).length = 5 := by decide +kernel
  obtain ⟨qs, hdeclares, hunique, -, hlog⟩ := changes_after hstart parcelCalls
  refine ⟨qs, hdeclares.length_eq ▸ hcount, hunique, ?_⟩
  rw [← hlog]
  decide +kernel

end Builder

end WireSchema
