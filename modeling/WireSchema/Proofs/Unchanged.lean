import Mathlib.Data.List.Forall2
import WireSchema.Proofs.AppendOnly
import WireSchema.Proofs.Compatibility
import WireSchema.Proofs.Raising
import WireSchema.Proofs.Stamps

/-!
# Builds without a change

Everything that is added to a schema is stamped: the version counter counts it and the log names it.
What is declared again without a stamp is what was declared, but for one thing: a struct that has no
flags may be given flags behind its last field (`Declaration.Stays`).  So a revision either counts
and logs a change or leaves every declaration as it was up to such flags, and it leaves the snapshot
as it was exactly when no struct gains flags (`snapshot_kept_iff`).
-/

namespace WireSchema

/-! ## Lists that are related item by item -/

section Related

variable {α : Type} {R : α → α → Prop} {l l' l'' : List α}

theorem forall₂_trans (htrans : ∀ {a b c}, R a b → R b c → R a c) (h : List.Forall₂ R l l')
    (h' : List.Forall₂ R l' l'') : List.Forall₂ R l l'' := by
  induction h generalizing l'' with
  | nil => exact h'
  | cons hd _ ih =>
    cases h' with
    | cons hd' hrest' => exact .cons (htrans hd hd') (ih hrest')

theorem forall₂_antisymm (hantisymm : ∀ {a b}, R a b → R b a → a = b) (h : List.Forall₂ R l l')
    (h' : List.Forall₂ R l' l) : l = l' := by
  have hsame : List.Forall₂ Eq l l' :=
    List.Forall₂.mp (fun _ _ => hantisymm) h (List.Forall₂.flip (R := flip R) h')
  rwa [List.forall₂_eq_eq_eq] at hsame

theorem exists_of_mem_left {β : Type} {R : α → β → Prop} {m : List β} (h : List.Forall₂ R l m)
    {a : α} (ha : a ∈ l) : ∃ b ∈ m, R a b := by
  induction h with
  | nil => cases ha
  | cons hd _ ih =>
    rcases List.mem_cons.mp ha with rfl | hmem
    · exact ⟨_, List.mem_cons_self, hd⟩
    · obtain ⟨b, hb, hR⟩ := ih hmem
      exact ⟨b, List.mem_cons_of_mem _ hb, hR⟩

theorem exists_of_mem_right (h : List.Forall₂ R l l') {b : α} (hb : b ∈ l') : ∃ a ∈ l, R a b :=
  exists_of_mem_left (R := flip R) (List.Forall₂.flip h) hb

/-- In lists that are related item by item, tests that agree on related items find related
items. -/
theorem find?_forall₂ {β : Type} {R : α → β → Prop} {p : α → Bool} {q : β → Bool}
    (hpq : ∀ {a b}, R a b → p a = q b) {l : List α} {m : List β} (h : List.Forall₂ R l m) :
    Option.Rel R (l.find? p) (m.find? q) := by
  induction h with
  | nil => exact .none
  | @cons a b l m hR _ ih =>
    cases hp : p a with
    | true =>
      rw [List.find?_cons_of_pos hp, List.find?_cons_of_pos (hpq hR ▸ hp)]
      exact .some hR
    | false =>
      rw [List.find?_cons_of_neg (by simp [hp]), List.find?_cons_of_neg (by simp [← hpq hR, hp])]
      exact ih

end Related

/-! ## Stamps -/

namespace Session

/-- Something was added between two sessions: the counter has counted it and the log goes on. -/
structure Stamped (s s' : Session) : Prop where
  revision : s'.revision = s.revision.bump
  changes : ∃ change more, s'.changes = s.changes ++ change :: more

theorem Stamped.trans {s s' s'' : Session} (h : s.Stamped s') (h' : s'.Stamped s'') :
    s.Stamped s'' where
  revision := by rw [h'.revision, h.revision, Revision.bump_bump]
  changes := by
    obtain ⟨change, more, hc⟩ := h.changes
    obtain ⟨change', more', hc'⟩ := h'.changes
    exact ⟨change, more ++ change' :: more', by rw [hc', hc, List.append_assoc]; rfl⟩

variable {s : Session} (hr : s.revision.replaying = false)

include hr

theorem stamped_stamp (persisted : Option UInt32) (kind : ChangeKind) (fqn : String)
    (member : Option String) : s.Stamped (s.stamp persisted kind fqn member).2 := by
  rw [stamp_of_started hr]
  exact ⟨rfl, _, [], rfl⟩

/-- Members are stamped unless there are none. -/
theorem stampMembers_cases (kind : ChangeKind) (fqn : String) (members : List String) :
    members = [] ∨ s.Stamped (s.stampMembers kind fqn members).2 := by
  induction members generalizing s with
  | nil => exact .inl rfl
  | cons m rest ih =>
    right
    have hfirst := stamped_stamp hr none kind fqn (some m)
    have hr' : (s.stamp none kind fqn (some m)).2.revision.replaying = false := by
      rw [hfirst.revision, Revision.replaying_bump, hr]
    rcases ih hr' with rfl | hrest
    · exact hfirst
    · exact hfirst.trans hrest

end Session

/-! ## Declarations that are declared again -/

/-- A body that is declared again without an addition: it is as it was, or it is a struct that had
no flags and has them behind its last field. -/
inductive Body.Stays : Body → Body → Prop
  | same (body : Body) : Stays body body
  | flags (s : StructBody) (h : s.flagsPosition = none) :
      Stays (.struct s) (.struct { s with flagsPosition := some s.fields.length })

theorem Body.Stays.trans {a b c : Body} (h : a.Stays b) (h' : b.Stays c) : a.Stays c := by
  cases h with
  | same => exact h'
  | flags s hs =>
    cases h' with
    | same => exact .flags s hs
    | flags _ hs' => cases hs'

/-- A declaration that is declared again without an addition. -/
structure Declaration.Stays (d d' : Declaration) : Prop where
  name : d'.name = d.name
  ns : d'.ns = d.ns
  version : d'.version = d.version
  body : d.body.Stays d'.body

namespace Declaration

theorem Stays.refl (d : Declaration) : d.Stays d := ⟨rfl, rfl, rfl, .same _⟩

theorem Stays.trans {d d' d'' : Declaration} (h : d.Stays d') (h' : d'.Stays d'') : d.Stays d'' :=
  ⟨h'.name.trans h.name, h'.ns.trans h.ns, h'.version.trans h.version, h.body.trans h'.body⟩

theorem Stays.fqn {d d' : Declaration} (h : d.Stays d') : d'.fqn = d.fqn := by
  rw [Declaration.fqn, Declaration.fqn, h.ns, h.name]

end Declaration

namespace Admission

/-- What was admitted was stamped, or it stays what was declared before. -/
def Accounted (s : Session) (previous : Option (UInt32 × Body)) (a : Admitted) : Prop :=
  s.Stamped a.session ∨
    a.session = s ∧ ∃ body, previous = some (a.version, body) ∧ body.Stays a.body

section Kinds

variable {s : Session} (hr : s.revision.replaying = false) {fqn : String} {d : Description}
  {a : Admitted}

include hr

theorem TextAdmitted.accounted {body : Body} {previous : Option (UInt32 × Body)}
    (h : TextAdmitted s fqn d body previous a) : Accounted s previous a := by
  cases h with
  | new => exact .inl (Session.stamped_stamp hr _ _ _ _)
  | kept version => exact .inr ⟨rfl, _, rfl, .same _⟩

theorem EnumAdmitted.accounted {entries : List EnumEntry} {previous : Option (UInt32 × EnumBody)}
    (h : EnumAdmitted s fqn d entries previous a) :
    Accounted s (previous.map (Prod.map id .enum)) a := by
  cases h with
  | fresh hstamp =>
    have hstamped := Session.stamped_stamp hr d.version .typeAdded fqn none
    rw [hstamp] at hstamped
    exact .inl hstamped
  | @grown version known hoffset hstrings hkeys =>
    rcases Session.stampMembers_cases hr .enumValueAdded fqn
      ((entries.map EnumEntry.keyText).drop known.values.length) with hnone | hstamped
    · have hgrown : Admitted.grownEnum s fqn version known (entries.map EnumEntry.keyText) =
          ⟨.enum known, version, s⟩ := by
        rw [Admitted.grownEnum, hnone]
        show (⟨.enum { known with values := known.values ++ [] }, _, _⟩ : Admitted) = _
        rw [List.append_nil]
        rfl
      rw [hgrown]
      exact .inr ⟨rfl, _, rfl, .same _⟩
    · exact .inl hstamped

theorem VersionedAdmitted.accounted {entries : List VersionEntry}
    {previous : Option (UInt32 × List VersionEntry)}
    (h : VersionedAdmitted s fqn d entries previous a) :
    Accounted s (previous.map (Prod.map id .versioned)) a := by
  cases h with
  | fresh => exact .inl (Session.stamped_stamp hr _ _ _ _)
  | @grown version known hknown =>
    rcases Session.stampMembers_cases hr .versionAdded fqn
      ((entries.drop known.length).map fun e => toString e.version.toNat) with hnone | hstamped
    · have hgrown : Admitted.grownVersioned s fqn version known entries =
          ⟨.versioned entries, version, s⟩ := by
        rw [Admitted.grownVersioned, hnone]
        rfl
      obtain rfl : known = entries :=
        hknown.eq_of_length_le (List.drop_eq_nil_iff.mp (List.map_eq_nil_iff.mp hnone))
      rw [hgrown]
      exact .inr ⟨rfl, _, rfl, .same _⟩
    · exact .inl hstamped

/-- A struct without new fields keeps its flags, or has none and gains them behind its fields. -/
theorem StructAdmitted.accounted {given : List FieldDescription} {explicit : Option Nat}
    {previous : Option (UInt32 × StructBody)}
    (hexplicit : explicitPosition fqn (given.map relaxBool).length d.flagsPosition = .ok explicit)
    (h : StructAdmitted s fqn d (given.map relaxBool) explicit previous a) :
    Accounted s (previous.map (Prod.map id .struct)) a := by
  cases h with
  | fresh hposition => exact .inl (Session.stamped_stamp hr _ _ _ _)
  | @grown version known position hlen hcompact hfrozen hknown hkept hposition =>
    rcases Session.stampMembers_cases hr .fieldAdded fqn
      (((given.map relaxBool).drop known.fields.length).map (·.name)) with hnone | hstamped
    · have hdrop : (given.map relaxBool).drop known.fields.length = [] :=
        List.map_eq_nil_iff.mp hnone
      have hcount : (given.map relaxBool).length ≤ known.fields.length :=
        List.drop_eq_nil_iff.mp hdrop
      have hgrown : Admitted.grownStruct s fqn version known position (given.map relaxBool) =
          ⟨.struct { known with flagsPosition := position }, version, s⟩ := by
        rw [Admitted.grownStruct, hdrop]
        show (⟨.struct ⟨known.compact, position, known.fields ++ []⟩, _, _⟩ : Admitted) = _
        rw [List.append_nil]
        rfl
      rw [hgrown]
      refine .inr ⟨rfl, _, rfl, ?_⟩
      rcases keptPosition_cases hkept with ⟨was, hwas, rfl⟩ | ⟨hnoflags, hposition, hbehind⟩
      · rw [← hwas]
        exact .same _
      · cases hp : position with
        | none =>
          rw [← hnoflags]
          exact .same _
        | some p =>
          have hle := or_le hexplicit (hposition.symm.trans hp)
          have hge := hbehind p hp
          obtain rfl : p = known.fields.length := by omega
          exact .flags known hnoflags
    · exact .inl hstamped

theorem BodyAdmitted.accounted {previous : Option (UInt32 × Body)}
    (h : BodyAdmitted s fqn d previous a) : Accounted s previous a := by
  cases h with
  | text _ h => exact h.accounted hr
  | enum _ _ h => exact h.accounted hr
  | struct _ _ _ hexplicit h => exact h.accounted hr hexplicit
  | versioned _ _ _ _ h => exact h.accounted hr

end Kinds

/-- What is admitted is stamped, or it stays what was declared before. -/
theorem accept_accounted {s s' : Session} (hr : s.revision.replaying = false)
    {previous : Option Declaration} {d : Description} {declaration : Declaration}
    (h : accept s previous d = .ok (declaration, s'))
    (hprevious : ∀ p, previous = some p → p.Named ∧ p.fqn = d.fqn) :
    s.Stamped s' ∨ s' = s ∧ ∃ p, previous = some p ∧ p.Stays declaration := by
  obtain ⟨a, ha, rfl, rfl⟩ := accept_cases h
  rcases ha.accounted hr with hstamped | ⟨hsession, body, hbody, hstays⟩
  · exact .inl hstamped
  · obtain ⟨p, hp, hsame⟩ := Option.map_eq_some_iff.mp hbody
    obtain ⟨hversion, rfl⟩ := Prod.mk.inj hsame
    -- right names are put together in one way, so the name and the namespace are those of before
    obtain ⟨hnamed, hfqn⟩ := hprevious p hp
    obtain ⟨hns, hname⟩ := Name.qualified_inj (hnamed p.ns List.mem_cons_self)
      (hnamed p.name (List.mem_cons_of_mem _ List.mem_cons_self)) hfqn
    exact .inr ⟨hsession, p, hp, hname.symm, hns.symm, hversion.symm, hstays⟩

end Admission

/-! ## Tables that stay -/

namespace TypeTable

/-- Every declaration stays and none is added. -/
def Stays (t t' : TypeTable) : Prop := List.Forall₂ Declaration.Stays t t'

theorem Stays.refl (t : TypeTable) : t.Stays t := List.forall₂_same.mpr fun d _ => .refl d

theorem Stays.trans {t t' t'' : TypeTable} (h : t.Stays t') (h' : t'.Stays t'') : t.Stays t'' :=
  forall₂_trans Declaration.Stays.trans h h'

theorem Stays.place {t : TypeTable} (ht : t.WellFormed) {p d : Declaration}
    (hp : t.declaration? d.fqn = some p) (h : p.Stays d) : t.Stays (Builder.place t d) := by
  rw [Builder.place_of_some hp, Stays, List.forall₂_map_right_iff, List.forall₂_same]
  intro e he
  split
  · rename_i heq
    -- names are distinct, so this is the earlier declaration
    have hep := ht.declaration?_of_mem he
    rw [beq_iff_eq.mp heq, hp] at hep
    exact Option.some.inj hep ▸ h
  · exact .refl e

theorem Stays.exists_of_mem {t t' : TypeTable} (h : t.Stays t') {d' : Declaration}
    (hd' : d' ∈ t') : ∃ d ∈ t, d.Stays d' := exists_of_mem_right h hd'

/-- Tables that are related declaration by declaration, under the same names, find related
declarations. -/
theorem declaration?_forall₂ {R : Declaration → Declaration → Prop}
    (hfqn : ∀ {d d'}, R d d' → d'.fqn = d.fqn) {t t' : TypeTable} (h : List.Forall₂ R t t')
    (name : String) : Option.Rel R (t.declaration? name) (t'.declaration? name) :=
  find?_forall₂ (fun {d d'} hd => by rw [hfqn hd]) h

theorem Stays.declaration? {t t' : TypeTable} (h : t.Stays t') (name : String) :
    Option.Rel Declaration.Stays (t.declaration? name) (t'.declaration? name) :=
  declaration?_forall₂ Declaration.Stays.fqn h name

/-- Types keep their versions. -/
theorem Stays.effectiveVersionWithin {t t' : TypeTable} (h : t.Stays t') (n : Nat) (name : String) :
    t'.effectiveVersionWithin n name = t.effectiveVersionWithin n name := by
  induction n generalizing name with
  | zero => rfl
  | succ n ih =>
    have hfound := h.declaration? name
    unfold TypeTable.effectiveVersionWithin resolve?
    cases Primitive.ofName? name with
    | some p => rfl
    | none =>
      generalize t.declaration? name = found at hfound
      generalize t'.declaration? name = found' at hfound
      cases hfound with
      | none => rfl
      | @some d d' hd =>
        have hbody := hd.body
        dsimp only [Option.map_some]
        rw [hd.version]
        generalize d.body = body at hbody
        generalize d'.body = body' at hbody
        cases hbody with
        | flags s _ => rfl
        | same => cases body <;> simp only [ih]

theorem Stays.settled {t t' : TypeTable} (h : t.Stays t') (ht : t.Settled) : t'.Settled := by
  intro d' hd' s' hs' f hf
  obtain ⟨d, hd, hstays⟩ := h.exists_of_mem hd'
  have hversion : t'.effectiveVersion f.typeName = t.effectiveVersion f.typeName := by
    rw [effectiveVersion, effectiveVersion, h.effectiveVersionWithin, List.Forall₂.length_eq h]
  rw [hversion, hstays.version]
  have hbody := hstays.body
  rw [hs'] at hbody
  generalize hb : d.body = body at hbody
  cases hbody with
  | same => exact ht d hd s' hb f hf
  | flags s _ => exact ht d hd s hb f hf

end TypeTable

namespace Declaration

/-- A struct that stays and gains no flags is as it was. -/
theorem Stays.eq {d d' : Declaration} (h : d.Stays d')
    (hflags : ∀ s s', d.body = .struct s → d'.body = .struct s' → s.flagsPosition = none →
      s'.flagsPosition = none) : d = d' := by
  have hbody : d.body = d'.body := by
    have hstays := h.body
    generalize hb : d.body = body at hstays
    generalize hb' : d'.body = body' at hstays
    cases hstays with
    | same => rfl
    | flags s hs => exact absurd (hflags s _ hb hb' hs) nofun
  obtain ⟨name, ns, version, body⟩ := d
  obtain ⟨name', ns', version', body'⟩ := d'
  obtain ⟨rfl, rfl, rfl, -⟩ := h
  cases hbody
  rfl

theorem Stays.addressable {d d' : Declaration} (h : d.Stays d') (ha : d.Addressable) :
    d'.Addressable := by
  have hbody := h.body
  unfold Addressable at ha ⊢
  generalize d.body = body at ha hbody
  generalize d'.body = body' at hbody
  cases hbody with
  | same => exact ha
  | flags s _ => exact ha

end Declaration

/-! ## Runs of calls -/

namespace Builder

/-- Between two builders something was stamped, or all that is declared stays. -/
def Accounts (b b' : Builder) : Prop :=
  b.session.Stamped b'.session ∨ b'.session = b.session ∧ b.types.Stays b'.types

theorem Accounts.trans {b b' b'' : Builder} (h : b.Accounts b') (h' : b'.Accounts b'') :
    b.Accounts b'' := by
  rcases h with hstamped | ⟨hsession, hstays⟩
  · rcases h' with hstamped' | ⟨hsession', -⟩
    · exact .inl (hstamped.trans hstamped')
    · exact .inl (hsession' ▸ hstamped)
  · rcases h' with hstamped' | ⟨hsession', hstays'⟩
    · exact .inl (hsession ▸ hstamped')
    · exact .inr ⟨hsession'.trans hsession, hstays.trans hstays'⟩

theorem register_accounts {b b' : Builder} {d : Description} (h : b.register d = .ok b')
    (hr : b.revision.replaying = false) (hwf : b.types.WellFormed) (hnamed : b.types.Named) :
    b.Accounts b' := by
  obtain ⟨-, declaration, session, -, -, -, haccept, htypes, hrevision, hchanges⟩ := register_inv h
  have hfqn := Admission.fqn_of_accept haccept
  rcases Admission.accept_accounted hr haccept fun p hp => by
      obtain ⟨hmem, hfqn⟩ := TypeTable.mem_of_declaration? hp
      exact ⟨hnamed p hmem, hfqn⟩
    with hstamped | ⟨rfl, p, hp, hstays⟩
  · obtain ⟨change, more, hlog⟩ := hstamped.changes
    refine .inl ⟨hrevision.trans hstamped.revision, change, more, ?_⟩
    exact hchanges.trans (congrArg (b.changes ++ ·) hlog)
  · refine .inr ⟨?_, ?_⟩
    · rw [session, session, hrevision, hchanges, List.append_nil]
    · rw [htypes]
      exact .place hwf (hfqn.symm ▸ hp) hstays

theorem perform_accounts {b b' : Builder} {c : Call} (h : b.perform c = .ok b')
    (hr : b.revision.replaying = false) (hwf : b.types.WellFormed) (hnamed : b.types.Named) :
    b.Accounts b' := by
  rcases perform_cases h with ⟨d, -, h⟩ | ⟨-, htypes, -, hrevision, hchanges⟩
  · exact register_accounts h hr hwf hnamed
  · refine .inr ⟨?_, htypes ▸ .refl _⟩
    rw [session, session, hrevision, hchanges]

/-- A run of calls stamps something, or all that is declared stays. -/
theorem after_accounts {b : Builder} (hb : b.Reachable) (calls : List Call) :
    b.Accounts (b.after calls) := by
  have hall := after_induction (P := fun b' => b'.Reachable ∧ b.Accounts b')
    (fun b₁ b₂ c hc hP => ?_) calls ⟨hb, .inr ⟨rfl, .refl _⟩⟩
  · exact hall.2
  · obtain ⟨hreach, haccounts⟩ := hP
    have hstep := perform_accounts hc hreach.started hreach.wellFormed hreach.named
    exact ⟨.call hreach hc, haccounts.trans hstep⟩

end Builder

/-! ## Revisions -/

namespace Schema

/-- A revision counts and logs a change, or every declaration stays. -/
theorem Revises.accounts {s s' : Schema} (hs : s.Built) (h : s.Revises s') :
    (s'.changed = true ∧ s'.changes ≠ [] ∧
        s'.version = if s.versioned then s.version + 1 else s.version) ∨
      s'.changed = false ∧ s'.changes = [] ∧ s'.version = s.version ∧ s.types.Stays s'.types := by
  obtain ⟨ha, b, calls, hb, hbuild⟩ := h
  have hreach := Builder.Reachable.ofSnapshot hb
  rw [rebuild_eq hs ha] at hb
  cases hb
  obtain ⟨-, -, -, hraise, -, hversion, hchanged, hchanges⟩ := Builder.build_inv hbuild
  rw [hversion, hchanged, hchanges]
  rcases Builder.after_accounts hreach calls with hstamped | ⟨hsession, hstays⟩
  · left
    obtain ⟨change, more, hlog⟩ := hstamped.changes
    refine ⟨congrArg Revision.changed hstamped.revision, ?_,
      congrArg Revision.version hstamped.revision⟩
    rw [show (Builder.after _ calls).changes = change :: more from hlog]
    exact List.cons_ne_nil _ _
  · right
    have hsettled := hstays.settled hs.settled
    rw [hsettled.raiseVersions] at hraise
    rw [← Except.ok.inj hraise]
    exact ⟨congrArg (fun s : Session => s.revision.changed) hsession,
      congrArg Session.changes hsession,
      congrArg (fun s : Session => s.revision.version) hsession, hstays⟩

/-- Tables that stay are the same when no struct gains flags. -/
theorem types_eq_of_steady {t t' : TypeTable} (ht : t.WellFormed) (ht' : t'.WellFormed)
    (h : t.Stays t') (hsteady : ∀ d ∈ t, t.Steady t' d.fqn) : t = t' := by
  have hall : List.Forall₂ Eq t t' := by
    refine List.forall₂_iff_zip.mpr ⟨h.length_eq, fun {d d'} hmem => ?_⟩
    obtain ⟨hd, hd'⟩ := List.of_mem_zip hmem
    have hstays : d.Stays d' := List.forall₂_zip h hmem
    refine hstays.eq fun s s' hs hs' => ?_
    refine hsteady d hd s ?_ s' ?_
    · exact TypeTable.struct?_eq_some.mpr ⟨d, ht.resolve?_of_mem hd, hs⟩
    · refine TypeTable.struct?_eq_some.mpr ⟨d', ?_, hs'⟩
      rw [← hstays.fqn]
      exact ht'.resolve?_of_mem hd'
  rwa [List.forall₂_eq_eq_eq] at hall

/-- A revision that counts no change logs none and keeps the version, and every declaration stays,
but structs without flags may have been given flags behind their last field; the snapshot is kept
exactly when none was.  Any other revision has a log and, when changes raise the version, the next
version. -/
theorem snapshot_kept_iff {s s' : Schema} (hs : s.Built) (h : s.Revises s') :
    (s'.changed = true → s'.changes ≠ [] ∧
        s'.version = if s.versioned then s.version + 1 else s.version) ∧
      (s'.changed = false → s'.changes = [] ∧ s'.version = s.version ∧ s.types.Stays s'.types ∧
        (s'.toSnapshot = s.toSnapshot ↔ ∀ d ∈ s.types, s.types.Steady s'.types d.fqn)) := by
  rcases h.accounts hs with ⟨hchanged, hchanges, hversion⟩ | ⟨hchanged, hchanges, hversion, hstays⟩
  · refine ⟨fun _ => ⟨hchanges, hversion⟩, fun hfalse => ?_⟩
    rw [hchanged] at hfalse
    cases hfalse
  · refine ⟨fun htrue => ?_, fun _ => ⟨hchanges, hversion, hstays, ?_, ?_⟩⟩
    · rw [hchanged] at htrue
      cases htrue
    · intro hsnapshot d _ body hbody body' hbody' hnone
      have ha' : s'.Addressable := fun d' hd' => by
        obtain ⟨d, hd, hsame⟩ := hstays.exists_of_mem hd'
        exact hsame.addressable (h.1 d hd)
      rw [types_eq_of_toSnapshot hs h.built h.1 ha' hsnapshot] at hbody'
      rw [Option.mem_unique hbody' hbody]
      exact hnone
    · intro hsteady
      rw [toSnapshot, toSnapshot, hversion,
        types_eq_of_steady hs.sound.wellFormed h.built.sound.wellFormed hstays hsteady]

/-- The schema after its struct was registered again with a position for flags. -/
def paletteFlagged : Schema :=
  { palette with
    changed := false
    changes := []
    types :=
      [⟨"color", "a", 1, .enum ⟨[⟨"red", 1⟩, ⟨"green", 1⟩], 1, false⟩⟩,
        ⟨"point", "a", 1, .struct ⟨false, some 1, [⟨"x", "uint", true, false, 1⟩]⟩⟩,
        ⟨"shape", "a", 1, .versioned [⟨"@a/color", 1, none⟩]⟩] }

theorem paletteFlagged_revises : palette.Revises paletteFlagged := by
  refine ⟨by decide +kernel, { revision := ⟨1, true, false, false⟩, types := palette.types },
    [.declareNamespace "a", .registerIn "a"
      { name := "point", fields := some [coordinate "x"], flagsPosition := some 1 }], ?_, ?_⟩
  · decide +kernel
  · decide +kernel

theorem snapshot_kept_iff_palette :
    (palette'.changes ≠ [] ∧ palette'.version = palette.version + 1) ∧
      paletteFlagged.changes = [] ∧ paletteFlagged.version = palette.version ∧
      paletteFlagged.toSnapshot ≠ palette.toSnapshot := by
  have hpoint : ⟨"point", "a", 1, .struct ⟨false, none, [⟨"x", "uint", true, false, 1⟩]⟩⟩ ∈
      palette.types := by decide +kernel
  have hgains : ¬ palette.types.Steady paletteFlagged.types "@a/point" := by decide +kernel
  obtain ⟨hchanges, hversion, -, hkept⟩ :=
    (snapshot_kept_iff palette_built paletteFlagged_revises).2 rfl
  exact ⟨(snapshot_kept_iff palette_built palette_revised).1 rfl, hchanges, hversion,
    fun hsame => hgains (hkept.mp hsame _ hpoint)⟩

end Schema

end WireSchema
