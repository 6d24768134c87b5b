import WireSchema.Proofs.Growth
import WireSchema.Proofs.Unchanged

/-!
# Versions that move

All that a build adds carries the version of the build.  So a declaration of an earlier table keeps
its version and those of its members or has them moved to that one version, and what is added has it
from the start (`TypeTable.Advances`).  Registering keeps to this (`register_advances`), and so does
a round of raising versions: where the earlier table was settled, a round has nothing to pass on but
the one version (`Advances.round`).  Hence a build that starts with a settled table moves versions
to its own version and to no other (`advances_of_build`).
-/

namespace WireSchema

theorem max_le_iff_le {a b c : UInt32} : max a b ≤ c ↔ a ≤ c ∧ b ≤ c := by
  rw [UInt32.le_iff_toNat_le, toNat_max, Nat.max_le, ← UInt32.le_iff_toNat_le,
    ← UInt32.le_iff_toNat_le]

/-! ## Versions of members -/

/-- The versions of the members of a declaration: of the values of an enum, of the fields of a
struct. -/
def Body.memberVersions : Body → List UInt32
  | .enum e => e.values.map (·.version)
  | .struct s => s.fields.map (·.version)
  | _ => []

/-- The version of a declaration and those of its members. -/
def Declaration.versions (d : Declaration) : List UInt32 := d.version :: d.body.memberVersions

theorem Body.Stays.memberVersions_eq {body body' : Body} (h : body.Stays body') :
    body'.memberVersions = body.memberVersions := by
  cases h <;> rfl

theorem Declaration.Stays.versions_eq {d d' : Declaration} (h : d.Stays d') :
    d'.versions = d.versions := by
  rw [versions, versions, h.version, h.body.memberVersions_eq]

theorem TypeTable.Stays.versions_eq {t t' : TypeTable} (h : t.Stays t') :
    t'.map Declaration.versions = t.map Declaration.versions := by
  unfold TypeTable.Stays at h
  induction h with
  | nil => rfl
  | cons hd _ ih => rw [List.map_cons, List.map_cons, hd.versions_eq, ih]

/-- The version of a body and those of its members stay or move to the given version; a member moves
only together with the body, and the values of an enum do not move. -/
structure Body.Moves (v version : UInt32) (body : Body) (version' : UInt32) (body' : Body) :
    Prop where
  version : version' = version ∨ version' = v
  members : ∀ (i : Nat) (w : UInt32), body'.memberVersions[i]? = some w →
    body.memberVersions[i]? = some w ∨ w = v ∧ version' = v
  values : ∀ e e', body = .enum e → body' = .enum e' → e.values <+: e'.values

theorem Body.Extends.inner?_eq {body body' : Body} (h : body.Extends body') :
    body'.inner? = body.inner? := by
  cases h <;> rfl

namespace Body

variable {v version version' version'' : UInt32} {body body' body'' : Body}

theorem Moves.of_stays (h : body.Stays body') : Moves v version body version body' where
  version := .inl rfl
  members i w hw := .inl (h.memberVersions_eq ▸ hw)
  values e e' he he' := by
    subst he he'
    cases h
    exact List.prefix_rfl

theorem Moves.trans (h : Moves v version body version' body')
    (h' : Moves v version' body' version'' body'') (hkind : body'.kind = body.kind) :
    Moves v version body version'' body'' where
  version := by
    rcases h'.version with heq | heq
    · exact heq ▸ h.version
    · exact .inr heq
  members i w hw := by
    rcases h'.members i w hw with hw' | hmoved
    · rcases h.members i w hw' with hw | ⟨rfl, hmoved⟩
      · exact .inl hw
      · -- what moved before has moved for good
        refine .inr ⟨rfl, ?_⟩
        rcases h'.version with heq | heq
        · exact heq.trans hmoved
        · exact heq
    · exact .inr hmoved
  values e e'' he he'' := by
    subst he he''
    cases body' with
    | enum e' => exact (h.values e e' rfl rfl).trans (h'.values e' e'' rfl rfl)
    | _ => cases hkind

end Body

/-- The version of a declaration and those of all its members are the given one. -/
def Declaration.IsNew (v : UInt32) (d : Declaration) : Prop := ∀ w ∈ d.versions, w = v

/-- A declaration that keeps all of an earlier one, and whose versions are the earlier ones or the
given one. -/
structure Declaration.Advances (v : UInt32) (d d' : Declaration) : Prop extends d.Extends d' where
  moves : Body.Moves v d.version d.body d'.version d'.body

namespace Declaration

variable {v : UInt32} {d d' d'' : Declaration}

theorem Advances.trans (h : d.Advances v d') (h' : d'.Advances v d'') : d.Advances v d'' :=
  ⟨h.toExtends.trans h'.toExtends, h.moves.trans h'.moves h.body.kind_eq⟩

theorem IsNew.advance (h : d.IsNew v) (h' : d.Advances v d') : d'.IsNew v := by
  intro w hw
  rcases List.mem_cons.mp hw with rfl | hw
  · rcases h'.moves.version with heq | heq
    · exact heq.trans (h d.version List.mem_cons_self)
    · exact heq
  · obtain ⟨i, hi⟩ := List.getElem?_of_mem hw
    rcases h'.moves.members i w hi with hi | ⟨heq, -⟩
    · exact h w (List.mem_cons_of_mem _ (List.mem_of_getElem? hi))
    · exact heq

theorem Stays.extends (h : d.Stays d') : d.Extends d' := by
  refine ⟨h.fqn, ?_⟩
  have hbody := h.body
  generalize d.body = body, d'.body = body' at hbody
  cases hbody with
  | same => exact .refl _
  | flags s hs =>
    refine .struct ⟨rfl, List.prefix_rfl, fun _ => rfl, fun p hp => ?_, fun p _ hp => ?_⟩
    · rw [hs] at hp
      cases hp
    · cases hp
      exact Nat.le_of_eq s.length_shapes

theorem Stays.advances (h : d.Stays d') : d.Advances v d' :=
  ⟨h.extends, h.version ▸ .of_stays h.body⟩

end Declaration

/-! ## What is admitted -/

namespace Session

/-- Behind the replay every member is stamped with the raised version. -/
theorem eq_of_mem_stampMembers {s : Session} (hr : s.revision.replaying = false)
    (kind : ChangeKind) (fqn : String) (members : List String) :
    ∀ w ∈ (s.stampMembers kind fqn members).1, w = s.revision.bump.version := by
  induction members generalizing s with
  | nil => nofun
  | cons m rest ih =>
    have hr' : s.revision.bump.replaying = false := (Revision.replaying_bump _).trans hr
    intro w hw
    rw [stampMembers, stamp_of_started hr] at hw
    rcases List.mem_cons.mp hw with rfl | hw
    · rfl
    · exact (ih hr' w hw).trans (congrArg Revision.version (Revision.bump_bump _))

end Session

namespace Admission

variable {v : UInt32}

theorem newest_eq {version : UInt32} {stamps : List UInt32} (hle : version ≤ v)
    (h : ∀ w ∈ stamps, w = v) : stamps = [] ∧ newest version stamps = version ∨
      newest version stamps = v := by
  cases stamps with
  | nil => exact .inl ⟨rfl, rfl⟩
  | cons w rest =>
    obtain rfl := h w List.mem_cons_self
    have hmax : max version w = w := by
      rw [← UInt32.toNat_inj, toNat_max]
      exact max_eq_right (UInt32.le_iff_toNat_le.mp hle)
    refine .inr ?_
    rw [newest, List.foldl_cons, hmax]
    exact foldl_max_eq_self fun x hx => UInt32.le_of_eq (h x (List.mem_cons_of_mem _ hx))

/-- What is admitted is new, or moves versions of the earlier declaration to the given one. -/
def Dates (v : UInt32) (previous : Option (UInt32 × Body)) (a : Admitted) : Prop :=
  match previous with
  | none => a.version = v ∧ ∀ w ∈ a.body.memberVersions, w = v
  | some (version, body) => Body.Moves v version body a.version a.body

/-- Members that are added behind the earlier ones are stamped. -/
theorem moves_append {version : UInt32} {body body' : Body} {stamps : List UInt32}
    (hle : version ≤ v) (hstamps : ∀ w ∈ stamps, w = v)
    (hmembers : ∃ added, body'.memberVersions = body.memberVersions ++ added ∧
      ∀ w ∈ added, w ∈ stamps)
    (hvalues : ∀ e e', body = .enum e → body' = .enum e' → e.values <+: e'.values) :
    Body.Moves v version body (newest version stamps) body' where
  version := (newest_eq hle hstamps).imp And.right id
  members i w hw := by
    obtain ⟨added, hadded, hmem⟩ := hmembers
    rw [hadded, List.getElem?_append] at hw
    split at hw
    · exact .inl hw
    · have hw := hmem w (List.mem_of_getElem? hw)
      refine .inr ⟨hstamps w hw, ?_⟩
      rcases newest_eq hle hstamps with ⟨rfl, -⟩ | hnew
      · cases hw
      · exact hnew
  values := hvalues

section Kinds

variable {s : Session} (hr : s.revision.replaying = false) {fqn : String} {d : Description}
  {a : Admitted}

include hr

theorem TextAdmitted.dates {body : Body} (hbody : Textual d body)
    {previous : Option (UInt32 × Body)} (h : TextAdmitted s fqn d body previous a) :
    Dates s.revision.bump.version previous a := by
  cases h with
  | new =>
    refine ⟨?_, ?_⟩
    · rw [Admitted.fresh, Session.stamp_of_started hr]
    · cases hbody <;> exact fun w hw => absurd hw List.not_mem_nil
  | kept version => exact .of_stays (.same _)

theorem EnumAdmitted.dates {entries : List EnumEntry} {previous : Option (UInt32 × EnumBody)}
    (hle : ∀ version was, previous = some (version, was) → version ≤ s.revision.bump.version)
    (h : EnumAdmitted s fqn d entries previous a) :
    Dates s.revision.bump.version (previous.map (Prod.map id .enum)) a := by
  cases h with
  | fresh hstamp =>
    have hr' : s.revision.bump.replaying = false := (Revision.replaying_bump _).trans hr
    rw [Session.stamp_of_started hr] at hstamp
    cases hstamp
    refine ⟨rfl, fun w hw => ?_⟩
    simp only [Body.memberVersions, freshValues, List.map_map, List.mem_map,
      Function.comp_apply, hr', Bool.false_eq_true, if_false] at hw
    obtain ⟨-, -, rfl⟩ := hw
    rfl
  | @grown version known hoffset hstrings hkeys =>
    refine moves_append (hle version known rfl) (Session.eq_of_mem_stampMembers hr _ _ _)
      ⟨_, List.map_append, fun w hw => ?_⟩ ?_
    · rw [List.map_map] at hw
      obtain ⟨p, hp, rfl⟩ := List.mem_map.mp hw
      exact (List.of_mem_zip hp).2
    · rintro e e' ⟨⟩ ⟨⟩
      exact List.prefix_append _ _

theorem StructAdmitted.dates {fields : List FieldDescription} {explicit : Option Nat}
    {previous : Option (UInt32 × StructBody)}
    (hle : ∀ version was, previous = some (version, was) → version ≤ s.revision.bump.version)
    (h : StructAdmitted s fqn d fields explicit previous a) :
    Dates s.revision.bump.version (previous.map (Prod.map id .struct)) a := by
  cases h with
  | fresh hposition =>
    have hr' : s.revision.bump.replaying = false := (Revision.replaying_bump _).trans hr
    rw [Admitted.freshStruct, Session.stamp_of_started hr]
    refine ⟨rfl, fun w hw => ?_⟩
    simp only [Body.memberVersions, stampedField, List.map_map, List.mem_map,
      Function.comp_apply, hr', Bool.false_eq_true, if_false] at hw
    obtain ⟨-, -, rfl⟩ := hw
    rfl
  | @grown version known position hlen hcompact hfrozen hknown hkept hposition =>
    refine moves_append (hle version known rfl) (Session.eq_of_mem_stampMembers hr _ _ _)
      ⟨_, List.map_append, fun w hw => ?_⟩ (by rintro e e' ⟨⟩)
    rw [List.map_map] at hw
    obtain ⟨p, hp, rfl⟩ := List.mem_map.mp hw
    exact (List.of_mem_zip hp).2

theorem VersionedAdmitted.dates {entries : List VersionEntry}
    {previous : Option (UInt32 × List VersionEntry)}
    (hle : ∀ version was, previous = some (version, was) → version ≤ s.revision.bump.version)
    (h : VersionedAdmitted s fqn d entries previous a) :
    Dates s.revision.bump.version (previous.map (Prod.map id .versioned)) a := by
  cases h with
  | fresh =>
    refine ⟨?_, fun w hw => absurd hw List.not_mem_nil⟩
    rw [Admitted.fresh, Session.stamp_of_started hr]
  | @grown version known hknown =>
    exact moves_append (hle version known rfl) (Session.eq_of_mem_stampMembers hr _ _ _)
      ⟨[], rfl, fun w hw => absurd hw List.not_mem_nil⟩ (by rintro e e' ⟨⟩)

theorem BodyAdmitted.dates {previous : Option (UInt32 × Body)}
    (hle : ∀ version body, previous = some (version, body) → version ≤ s.revision.bump.version)
    (h : BodyAdmitted s fqn d previous a) : Dates s.revision.bump.version previous a := by
  cases h with
  | text hbody h => exact h.dates hr hbody
  | enum _ _ h => exact h.dates hr fun version was hwas => hle version (.enum was) (hwas ▸ rfl)
  | struct _ _ _ _ h =>
    exact h.dates hr fun version was hwas => hle version (.struct was) (hwas ▸ rfl)
  | versioned _ _ _ _ h =>
    exact h.dates hr fun version was hwas => hle version (.versioned was) (hwas ▸ rfl)

end Kinds

/-- What is declared for the first time is new. -/
theorem accept_isNew {s s' : Session} (hr : s.revision.replaying = false) {d : Description}
    {declaration : Declaration} (h : accept s none d = .ok (declaration, s')) :
    declaration.IsNew s.revision.bump.version := by
  obtain ⟨a, ha, rfl, -⟩ := accept_cases h
  have hnew : a.version = s.revision.bump.version ∧
      ∀ w ∈ a.body.memberVersions, w = s.revision.bump.version :=
    ha.dates hr fun _ _ hnone => by cases hnone
  exact fun w hw => (List.mem_cons.mp hw).elim (fun heq => heq.trans hnew.1) (hnew.2 w)

/-- What is declared again advances what was declared before. -/
theorem accept_advances {s s' : Session} (hr : s.revision.replaying = false) {p : Declaration}
    {d : Description} {declaration : Declaration}
    (h : accept s (some p) d = .ok (declaration, s')) (hfqn : p.fqn = d.fqn)
    (hle : p.version ≤ s.revision.bump.version) :
    p.Advances s.revision.bump.version declaration := by
  refine ⟨⟨(fqn_of_accept h).trans hfqn.symm, accept_extends h⟩, ?_⟩
  obtain ⟨a, ha, rfl, -⟩ := accept_cases h
  refine ha.dates hr fun version body hbody => ?_
  cases hbody
  exact hle

end Admission

/-! ## Tables -/

/-- A declaration is dated up to a version: it has a version from one to there, and so has each of
its members, none newer than the declaration. -/
structure Declaration.Dated (v : UInt32) (d : Declaration) : Prop where
  bound : d.version ≤ v
  members : ∀ w ∈ d.versions, 1 ≤ w ∧ w ≤ d.version

theorem Declaration.Dated.field_le {v : UInt32} {d : Declaration} (h : d.Dated v) {s : StructBody}
    (hb : d.body = .struct s) {f : Field} (hf : f ∈ s.fields) : f.version ≤ d.version := by
  refine (h.members f.version (List.mem_cons_of_mem _ ?_)).2
  rw [hb]
  exact List.mem_map_of_mem hf

theorem Declaration.Dated.advance {v w : UInt32} {d d' : Declaration} (h : d.Dated w)
    (hadv : d.Advances v d') (hle : w ≤ v) (hone : 1 ≤ v) : d'.Dated v := by
  have hkept : d.version ≤ d'.version ∧ 1 ≤ d'.version ∧ d'.version ≤ v := by
    rcases hadv.moves.version with heq | heq
    · rw [heq]
      exact ⟨UInt32.le_refl _, (h.members _ List.mem_cons_self).1, UInt32.le_trans h.bound hle⟩
    · rw [heq]
      exact ⟨UInt32.le_trans h.bound hle, hone, UInt32.le_refl v⟩
  refine ⟨hkept.2.2, fun x hx => ?_⟩
  rcases List.mem_cons.mp hx with rfl | hx
  · exact ⟨hkept.2.1, UInt32.le_refl _⟩
  · obtain ⟨i, hi⟩ := List.getElem?_of_mem hx
    rcases hadv.moves.members i x hi with hi | ⟨rfl, hmoved⟩
    · have hold := h.members x (List.mem_cons_of_mem _ (List.mem_of_getElem? hi))
      exact ⟨hold.1, UInt32.le_trans hold.2 hkept.1⟩
    · exact ⟨hone, UInt32.le_of_eq hmoved.symm⟩

namespace TypeTable

variable {v w : UInt32} {t t' t'' : TypeTable}

/-- A table that begins with all declarations of an earlier one, each advanced, and whose other
declarations are new. -/
structure Advances (v : UInt32) (t t' : TypeTable) : Prop where
  kept : ∀ (i : Nat) (d : Declaration), t[i]? = some d → ∃ d', t'[i]? = some d' ∧ d.Advances v d'
  added : ∀ (i : Nat) (d' : Declaration), t'[i]? = some d' → t.length ≤ i → d'.IsNew v

theorem Advances.extends (h : t.Advances v t') : t.Extends t' := by
  intro i d hd
  obtain ⟨d', hd', hadv⟩ := h.kept i d hd
  exact ⟨d', hd', hadv.toExtends⟩

/-- A declaration of an advanced table advances an earlier one or is new. -/
theorem Advances.of_mem (h : t.Advances v t') {d' : Declaration} (hd' : d' ∈ t') :
    (∃ d ∈ t, d.Advances v d') ∨ d'.IsNew v := by
  obtain ⟨i, hi⟩ := List.getElem?_of_mem hd'
  rcases Nat.lt_or_ge i t.length with hlt | hge
  · obtain ⟨e, he, hadv⟩ := h.kept i t[i] (List.getElem?_eq_getElem hlt)
    rw [hi] at he
    cases he
    exact .inl ⟨_, List.getElem_mem hlt, hadv⟩
  · exact .inr (h.added i d' hi hge)

theorem Stays.advances (h : t.Stays t') : t.Advances v t' := by
  have hlength : t.length = t'.length := List.Forall₂.length_eq h
  constructor
  · intro i d hd
    obtain ⟨hi, rfl⟩ := List.getElem?_eq_some_iff.mp hd
    have hi' : i < t'.length := hlength ▸ hi
    exact ⟨t'[i], List.getElem?_eq_getElem hi', (h.get hi hi').advances⟩
  · intro i d hd hge
    have := (List.getElem?_eq_some_iff.mp hd).1
    omega

theorem Advances.version_le (h : t.Advances v t') (ht : ∀ d ∈ t, d.version ≤ v) :
    ∀ d' ∈ t', d'.version ≤ v := by
  intro d' hd'
  rcases h.of_mem hd' with ⟨d, hd, hadv⟩ | hnew
  · rcases hadv.moves.version with heq | heq
    · exact heq ▸ ht d hd
    · exact UInt32.le_of_eq heq
  · exact UInt32.le_of_eq (hnew d'.version List.mem_cons_self)

/-- Versions that move to a later one stay dated. -/
theorem Advances.dated (h : t.Advances v t') (ht : ∀ d ∈ t, d.Dated w) (hle : w ≤ v)
    (hone : 1 ≤ v) : ∀ d' ∈ t', d'.Dated v := by
  intro d' hd'
  rcases h.of_mem hd' with ⟨d, hd, hadv⟩ | hnew
  · exact (ht d hd).advance hadv hle hone
  · have hversion := hnew d'.version List.mem_cons_self
    refine ⟨UInt32.le_of_eq hversion, fun w hw => ?_⟩
    rw [hnew w hw, hversion]
    exact ⟨hone, UInt32.le_refl v⟩

/-- Placing a declaration that is new, or that advances the one before it. -/
theorem Advances.place (h : t.Advances v t') (ht' : t'.WellFormed) {d : Declaration}
    (hnone : t'.declaration? d.fqn = none → d.IsNew v)
    (hsome : ∀ p, t'.declaration? d.fqn = some p → p.Advances v d) :
    t.Advances v (Builder.place t' d) := by
  cases hp : t'.declaration? d.fqn with
  | none =>
    rw [Builder.place_of_none hp]
    constructor
    · intro i e he
      obtain ⟨e', he', hadv⟩ := h.kept i e he
      exact ⟨e', by rw [List.getElem?_append_left (List.getElem?_eq_some_iff.mp he').1, he'], hadv⟩
    · intro i e he hge
      rw [List.getElem?_append] at he
      split at he
      · exact h.added i e he hge
      · obtain rfl := List.mem_singleton.mp (List.mem_of_getElem? he)
        exact hnone hp
  | some p =>
    -- names are distinct, so only the earlier declaration gives way
    have hplaced (i : Nat) (e : Declaration) (he : t'[i]? = some e) :
        ∃ e', (Builder.place t' d)[i]? = some e' ∧ (e' = e ∨ e.Advances v e') := by
      rw [Builder.place_of_some hp, List.getElem?_map, he]
      refine ⟨_, rfl, ?_⟩
      dsimp only
      split
      · rename_i heq
        have hfqn : e.fqn = d.fqn := beq_iff_eq.mp heq
        have hep := ht'.declaration?_of_mem (List.mem_of_getElem? he)
        exact .inr (hsome e (hfqn ▸ hep))
      · exact .inl rfl
    constructor
    · intro i e he
      obtain ⟨e', he', hadv⟩ := h.kept i e he
      obtain ⟨e'', he'', rfl | hadv'⟩ := hplaced i e' he'
      · exact ⟨_, he'', hadv⟩
      · exact ⟨e'', he'', hadv.trans hadv'⟩
    · intro i e'' he'' hge
      have hlt := (List.getElem?_eq_some_iff.mp he'').1
      rw [Builder.place_of_some hp, List.length_map] at hlt
      obtain ⟨e, he, hcases⟩ := hplaced i t'[i] (List.getElem?_eq_getElem hlt)
      rw [he''] at he
      cases he
      have hnew := h.added i t'[i] (List.getElem?_eq_getElem hlt) hge
      rcases hcases with rfl | hadv
      · exact hnew
      · exact hnew.advance hadv

/-! ## Raising versions -/

theorem effectiveVersionWithin_declared {name : String} {d : Declaration}
    (hd : t.resolve? name = some (.declared d)) (n : Nat) :
    t.effectiveVersionWithin (n + 1) name =
      match d.body.inner? with
      | some inner => max d.version (t.effectiveVersionWithin n inner)
      | none => d.version := by
  rw [effectiveVersionWithin, hd]
  dsimp only
  cases d.body <;> rfl

theorem effectiveVersionWithin_undeclared {name : String}
    (h : ∀ d, t.resolve? name ≠ some (.declared d)) (n : Nat) :
    t.effectiveVersionWithin n name = 0 := by
  cases n with
  | zero => rfl
  | succ n =>
    rw [effectiveVersionWithin]
    split
    · exact absurd (by assumption) (h _)
    · rfl

theorem mem_refNames_of_inner? {d : Declaration} {inner : String}
    (h : d.body.inner? = some inner) : inner ∈ d.refNames := by
  cases hb : d.body <;> rw [hb] at h <;> cases h
  · exact Declaration.mem_refNames_alias hb
  · exact Declaration.mem_refNames_array hb

theorem mem_needs_of_inner? {d : Declaration} {inner : String} (h : d.body.inner? = some inner) :
    inner ∈ d.needs := by
  unfold Declaration.needs
  cases hb : d.body <;> rw [hb] at h <;> cases h <;> exact List.mem_singleton_self _

/-- Looking through as many aliases and arrays as the rank of a name allows is looking through all
of them. -/
theorem effectiveVersionWithin_eq (hfin : t.Finite) {name : String} {m n : Nat}
    (hm : t.rank name ≤ m) (hn : t.rank name ≤ n) :
    t.effectiveVersionWithin m name = t.effectiveVersionWithin n name := by
  induction m generalizing n name with
  | zero =>
    have hnone (d : Declaration) : t.resolve? name ≠ some (.declared d) := fun hd => by
      have := rank_pos hd
      omega
    rw [effectiveVersionWithin_undeclared hnone, effectiveVersionWithin_undeclared hnone]
  | succ m ih =>
    by_cases hdeclared : ∃ d, t.resolve? name = some (.declared d)
    · obtain ⟨d, hd⟩ := hdeclared
      have hpos := rank_pos hd
      obtain ⟨n, rfl⟩ : ∃ n', n = n' + 1 := ⟨n - 1, by omega⟩
      rw [effectiveVersionWithin_declared hd, effectiveVersionWithin_declared hd]
      cases hinner : d.body.inner? with
      | none => rfl
      | some inner =>
        have hlt : t.rank inner < t.rank name :=
          rank_lt hfin (resolve?_eq_declared.mp hd).2 (mem_needs_of_inner? hinner)
        have hsame : t.effectiveVersionWithin m inner = t.effectiveVersionWithin n inner :=
          ih (by omega) (by omega)
        dsimp only
        rw [hsame]
    · push Not at hdeclared
      rw [effectiveVersionWithin_undeclared hdeclared, effectiveVersionWithin_undeclared hdeclared]

/-- No type is newer than all declarations. -/
theorem effectiveVersionWithin_le (h : ∀ d ∈ t, d.version ≤ v) (n : Nat) (name : String) :
    t.effectiveVersionWithin n name ≤ v := by
  induction n generalizing name with
  | zero => exact UInt32.zero_le
  | succ n ih =>
    by_cases hdeclared : ∃ d, t.resolve? name = some (.declared d)
    · obtain ⟨d, hd⟩ := hdeclared
      have hversion := h d (mem_of_resolve? hd).1
      rw [effectiveVersionWithin_declared hd]
      cases d.body.inner? with
      | none => exact hversion
      | some inner => exact max_le_iff_le.mpr ⟨hversion, ih inner⟩
    · push Not at hdeclared
      rw [effectiveVersionWithin_undeclared hdeclared]
      exact UInt32.zero_le

theorem Advances.resolve? (h : t.Advances v t') (ht' : t'.WellFormed) {name : String}
    {d : Declaration} (hd : t.resolve? name = some (.declared d)) :
    ∃ d', t'.resolve? name = some (.declared d') ∧ d.Advances v d' := by
  obtain ⟨hname, hd⟩ := resolve?_eq_declared.mp hd
  obtain ⟨hmem, rfl⟩ := mem_of_declaration? hd
  obtain ⟨i, hi⟩ := List.getElem?_of_mem hmem
  obtain ⟨d', hd', hadv⟩ := h.kept i d hi
  refine ⟨d', resolve?_eq_declared.mpr ⟨hname, ?_⟩, hadv⟩
  rw [← hadv.fqn]
  exact ht'.declaration?_of_mem (List.mem_of_getElem? hd')

/-- A round raises nothing past a version that nothing is newer than. -/
theorem raise_version_le (h : ∀ d ∈ t, d.Dated v) {d : Declaration} (hd : d ∈ t) :
    (t.raise d).version ≤ v := by
  have hle : ∀ d ∈ t, d.version ≤ v := fun d hd => (h d hd).bound
  rw [UInt32.le_iff_toNat_le]
  rcases le_raise_version.mp (Nat.le_refl (t.raise d).version.toNat) with
    hown | ⟨s, hb, f, hf, hown⟩
  · exact Nat.le_trans hown (UInt32.le_iff_toNat_le.mp (hle d hd))
  · have hfield : (t.raiseField f).version ≤ v :=
      max_le_iff_le.mpr ⟨UInt32.le_trans ((h d hd).field_le hb hf) (hle d hd),
        effectiveVersionWithin_le hle _ _⟩
    exact Nat.le_trans hown (UInt32.le_iff_toNat_le.mp hfield)

section Raising

variable (ht : t.Sound) (ht' : t'.WellFormed) (h : t.Advances v t')

include ht ht' h

/-- A type of an earlier table is at most as new as it was, or has the one version that versions
move to. -/
theorem effectiveVersionWithin_advances (hle : ∀ d ∈ t', d.version ≤ v) (n : Nat) {name : String}
    (hr : ∃ target, t.resolve? name = some target) :
    t'.effectiveVersionWithin n name = v ∨
      t'.effectiveVersionWithin n name ≤ t.effectiveVersionWithin n name := by
  induction n generalizing name with
  | zero => exact .inr (UInt32.le_refl _)
  | succ n ih =>
    obtain ⟨target, hr⟩ := hr
    cases target with
    | primitive p =>
      refine .inr ?_
      rw [effectiveVersionWithin_undeclared fun d hd => ?_]
      · exact UInt32.zero_le
      · rw [resolve?_eq_primitive.mpr (resolve?_eq_primitive.mp hr)] at hd
        cases hd
    | declared d =>
      obtain ⟨d', hr', hadv⟩ := h.resolve? ht' hr
      have hversion := hle d' (mem_of_resolve? hr').1
      have hmoves : d'.version = v ∨ d'.version ≤ d.version :=
        hadv.moves.version.symm.imp_right UInt32.le_of_eq
      rw [effectiveVersionWithin_declared hr, effectiveVersionWithin_declared hr',
        hadv.body.inner?_eq]
      cases hinner : d.body.inner? with
      | none => exact hmoves
      | some inner =>
        have href := mem_refNames_of_inner? hinner
        have hle' := effectiveVersionWithin_le hle n inner
        have hrest := ih (ht.resolves hr href)
        simp only [← UInt32.toNat_inj, UInt32.le_iff_toNat_le, toNat_max]
          at hversion hmoves hle' hrest ⊢
        omega

theorem effectiveVersion_advances (hle : ∀ d ∈ t', d.version ≤ v) {name : String}
    (hr : ∃ target, t.resolve? name = some target) :
    t'.effectiveVersion name = v ∨ t'.effectiveVersion name ≤ t.effectiveVersion name := by
  have hlen : t.length ≤ t'.length := by simpa using h.extends.names_isPrefix.length_le
  have hrank := rank_le ht.finite name
  have hfuel : t.effectiveVersion name = t.effectiveVersionWithin (t'.length + 1) name :=
    effectiveVersionWithin_eq ht.finite (by omega) (by omega)
  rw [hfuel]
  exact effectiveVersionWithin_advances ht ht' h hle _ hr

/-- The type of a field is no newer than the field, or one of them has the version that versions
move to. -/
theorem field_cases (hs : t.Settled) (hle : ∀ d ∈ t', d.version ≤ v) {d' : Declaration}
    (hd' : d' ∈ t') {s' : StructBody} (hb' : d'.body = .struct s') {f' : Field}
    (hf' : f' ∈ s'.fields) :
    f'.version = v ∨ t'.effectiveVersion f'.typeName = v ∨
      t'.effectiveVersion f'.typeName ≤ f'.version := by
  have hmember : ∀ i, s'.fields[i]? = some f' →
      d'.body.memberVersions[i]? = some f'.version := fun i hi => by
    rw [hb', Body.memberVersions, List.getElem?_map, hi]
    rfl
  obtain ⟨i, hi⟩ := List.getElem?_of_mem hf'
  rcases h.of_mem hd' with ⟨d, hd, hadv⟩ | hnew
  · rcases hadv.moves.members i _ (hmember i hi) with hold | ⟨heq, -⟩
    · right
      -- the field was there before, and then its type was no newer
      have hbody := hadv.body
      rw [hb'] at hbody
      generalize hb : d.body = body at hbody hold
      cases hbody with
      | @struct s _ hext =>
        rw [Body.memberVersions, List.getElem?_map] at hold
        obtain ⟨f, hf, hversion⟩ := Option.map_eq_some_iff.mp hold
        have hshape : f.shape = f'.shape := by
          obtain ⟨more, hmore⟩ := hext.fields
          have hfirst : s.shapes[i]? = some f.shape := by
            rw [StructBody.shapes, List.getElem?_map, hf]
            rfl
          have hsecond : s'.shapes[i]? = some f'.shape := by
            rw [StructBody.shapes, List.getElem?_map, hi]
            rfl
          rw [← hmore, List.getElem?_append_left (List.getElem?_eq_some_iff.mp hfirst).1,
            hfirst] at hsecond
          exact Option.some.inj hsecond
        have htype : f.typeName = f'.typeName := congrArg FieldShape.typeName hshape
        have hmem := List.mem_of_getElem? hf
        have hold := (hs d hd s hb f hmem).1
        rw [← hversion, ← htype]
        refine (effectiveVersion_advances ht ht' h hle ?_).imp_right fun hnow =>
          UInt32.le_trans hnow hold
        exact ht.resolves (ht.wellFormed.resolve?_of_mem hd)
          (Declaration.mem_refNames_of_field hb hmem)
    · exact .inl heq
  · exact .inl (hnew _ (List.mem_cons_of_mem _ (List.mem_of_getElem? (hmember i hi))))

/-- A field keeps its version in a round, or moves and takes its struct with it. -/
theorem raiseField_cases (hs : t.Settled) (hdated : ∀ d ∈ t', d.Dated v) {d' : Declaration}
    (hd' : d' ∈ t') {s' : StructBody} (hb' : d'.body = .struct s') {f' : Field}
    (hf' : f' ∈ s'.fields) :
    (t'.raiseField f').version = f'.version ∨
      (t'.raiseField f').version = v ∧ (t'.raise d').version = v := by
  have hcases := field_cases ht ht' h hs (fun d hd => (hdated d hd).bound) hd' hb' hf'
  have hbound := raise_version_le hdated hd'
  have hup : (t'.raiseField f').version ≤ (t'.raise d').version :=
    UInt32.le_iff_toNat_le.mpr (le_raise_version.mpr (.inr ⟨s', hb', f', hf', Nat.le_refl _⟩))
  have hmax : (t'.raiseField f').version =
    max f'.version (t'.effectiveVersion f'.typeName) := rfl
  rw [hmax] at hup ⊢
  simp only [← UInt32.toNat_inj, UInt32.le_iff_toNat_le, toNat_max] at hcases hbound hup ⊢
  omega

/-- A round moves versions to the one version. -/
theorem raise_advances (hs : t.Settled) (hdated : ∀ d ∈ t', d.Dated v) {d' : Declaration}
    (hd' : d' ∈ t') : d'.Advances v (t'.raise d') := by
  refine ⟨Declaration.extends_of_shape (shape_raise t' d'), ?_⟩
  by_cases hstruct : ∃ s', d'.body = .struct s'
  · obtain ⟨s', hb'⟩ := hstruct
    have hcases (f' : Field) (hf' : f' ∈ s'.fields) :=
      raiseField_cases ht ht' h hs hdated hd' hb' hf'
    constructor
    · by_cases hmoved : ∃ f' ∈ s'.fields, (t'.raiseField f').version ≠ f'.version
      · obtain ⟨f', hf', hne⟩ := hmoved
        exact .inr ((hcases f' hf').resolve_left hne).2
      · push Not at hmoved
        left
        rw [raise_of_struct hb']
        refine foldl_max_eq_self fun x hx => ?_
        obtain ⟨f, hf, rfl⟩ := List.mem_map.mp hx
        obtain ⟨f', hf', rfl⟩ := List.mem_map.mp hf
        rw [hmoved f' hf']
        exact (hdated d' hd').field_le hb' hf'
    · intro i w hw
      rw [raise_of_struct hb', Body.memberVersions, List.map_map, List.getElem?_map] at hw
      obtain ⟨f', hf', rfl⟩ := Option.map_eq_some_iff.mp hw
      refine (hcases f' (List.mem_of_getElem? hf')).imp_left fun heq => ?_
      rw [hb', Body.memberVersions, List.getElem?_map, hf']
      exact congrArg some heq.symm
    · intro e _ he
      rw [hb'] at he
      cases he
  · push Not at hstruct
    rw [raise_of_not_struct hstruct]
    exact .of_stays (.same _)

theorem Advances.round (hs : t.Settled) (hdated : ∀ d ∈ t', d.Dated v) :
    t.Advances v t'.round := by
  constructor
  · intro i d hd
    obtain ⟨d', hd', hadv⟩ := h.kept i d hd
    refine ⟨t'.raise d', by rw [TypeTable.round, List.getElem?_map, hd']; rfl, hadv.trans ?_⟩
    exact raise_advances ht ht' h hs hdated (List.mem_of_getElem? hd')
  · intro i e he hge
    rw [TypeTable.round, List.getElem?_map] at he
    obtain ⟨d', hd', rfl⟩ := Option.map_eq_some_iff.mp he
    exact (h.added i d' hd' hge).advance
      (raise_advances ht ht' h hs hdated (List.mem_of_getElem? hd'))

end Raising

theorem wellFormed_round (ht : t.WellFormed) : t.round.WellFormed := by
  rw [← wellFormed_shape, TypeTable.round, shape, List.map_map]
  rw [← wellFormed_shape] at ht
  have hshape : t.map (Declaration.shape ∘ t.raise) = t.shape :=
    List.map_congr_left fun d _ => shape_raise t d
  rw [hshape]
  exact ht

/-- All rounds move versions to the one version. -/
theorem Advances.raiseVersions {u : TypeTable} (ht : t.Sound) (hs : t.Settled)
    (hdated : ∀ d ∈ t, d.Dated w) (hle : w ≤ v) (hone : 1 ≤ v) (ht' : t'.WellFormed)
    (h : t.Advances v t') (hu : t'.raiseVersions = .ok u) : t.Advances v u := by
  obtain ⟨k, -, rfl, -⟩ := raiseWithin_inv hu
  have hall : (TypeTable.round^[k] t').WellFormed ∧ t.Advances v (TypeTable.round^[k] t') := by
    clear hu
    induction k with
    | zero => exact ⟨ht', h⟩
    | succ k ih =>
      rw [Function.iterate_succ_apply']
      exact ⟨wellFormed_round ih.1, ih.2.round ht ih.1 hs (ih.2.dated hdated hle hone)⟩
  exact hall.2

end TypeTable

/-! ## Builds -/

namespace Builder

/-- A registration moves versions to the version that a change has. -/
theorem register_advances {b b' : Builder} {d : Description} (h : b.register d = .ok b')
    (hr : b.revision.replaying = false) (hwf : b.types.WellFormed) {t : TypeTable}
    (hadv : t.Advances b.revision.bump.version b.types)
    (hle : ∀ d ∈ b.types, d.version ≤ b.revision.bump.version) :
    t.Advances b.revision.bump.version b'.types := by
  obtain ⟨-, declaration, session, -, -, -, haccept, htypes, -⟩ := register_inv h
  have hfqn := Admission.fqn_of_accept haccept
  rw [htypes]
  refine hadv.place hwf (fun hnone => ?_) fun p hp => ?_
  · rw [hfqn] at hnone
    rw [hnone] at haccept
    exact Admission.accept_isNew hr haccept
  · rw [hfqn] at hp
    rw [hp] at haccept
    obtain ⟨hmem, hpfqn⟩ := TypeTable.mem_of_declaration? hp
    exact Admission.accept_advances hr haccept hpfqn (hle p hmem)

/-- Calls move versions to the version that a change has. -/
theorem after_advances {b : Builder} (hb : b.Reachable)
    (hle : ∀ d ∈ b.types, d.version ≤ b.revision.bump.version) (calls : List Call) :
    b.types.Advances b.revision.bump.version (b.after calls).types := by
  have hall := after_induction
    (P := fun b' => b'.Reachable ∧ b'.revision.bump = b.revision.bump ∧
      b.types.Advances b.revision.bump.version b'.types)
    (fun b₁ b₂ c hc hP => ?_) calls ⟨hb, rfl, (TypeTable.Stays.refl _).advances⟩
  · exact hall.2.2
  · obtain ⟨hreach, hbump, hadv⟩ := hP
    refine ⟨.call hreach hc, (perform_stamps hc).bump_eq.trans hbump, ?_⟩
    rcases perform_cases hc with ⟨d, -, hd⟩ | ⟨-, htypes, -⟩
    · have hle₁ := hadv.version_le hle
      rw [← hbump] at hadv hle₁ ⊢
      exact register_advances hd hreach.started hreach.wellFormed hadv hle₁
    · rw [htypes]
      exact hadv

/-- A build on top of a settled table counts a change, or every declaration stays. -/
theorem build_cases {b : Builder} (hb : b.Reachable) (hsettled : b.types.Settled)
    {calls : List Call} {s : Schema} (h : (b.after calls).build = .ok s) :
    (s.changed = true ∧ s.version = b.revision.bump.version) ∨
      s.version = b.revision.version ∧ b.types.Stays s.types := by
  obtain ⟨-, -, -, hraise, -, hversion, hchanged, -⟩ := build_inv h
  rw [hversion, hchanged]
  rcases after_accounts hb calls with hstamped | ⟨hsession, hstays⟩
  · have hrevision : (b.after calls).revision = b.revision.bump := hstamped.revision
    rw [hrevision]
    refine .inl ⟨?_, rfl⟩
    unfold Revision.bump
    split
    · rename_i hor
      rw [hb.started, Bool.or_false] at hor
      exact hor
    · rfl
  · rw [(hstays.settled hsettled).raiseVersions] at hraise
    rw [← Except.ok.inj hraise]
    exact .inr ⟨congrArg (fun s : Session => s.revision.version) hsession, hstays⟩

/-- A build on top of a settled and dated table moves versions to its own version and to no other,
and what it ends with is dated again.  A change must find a version left to be counted with. -/
theorem advances_of_build {b : Builder} (hb : b.Reachable) (hsound : b.types.Sound)
    (hsettled : b.types.Settled) (hdated : ∀ d ∈ b.types, d.Dated b.revision.version)
    {calls : List Call} {s : Schema} (h : (b.after calls).build = .ok s)
    (hroom : s.changed = true →
      b.revision.version ≤ b.revision.bump.version ∧ 1 ≤ b.revision.bump.version) :
    b.types.Advances s.version s.types ∧ ∀ d ∈ s.types, d.Dated s.version := by
  rcases build_cases hb hsettled h with ⟨hchanged, hversion⟩ | ⟨hversion, hstays⟩
  · obtain ⟨-, -, -, hraise, -⟩ := build_inv h
    obtain ⟨hle, hone⟩ := hroom hchanged
    have hcalls := after_advances hb (fun d hd => UInt32.le_trans (hdated d hd).bound hle) calls
    have hall := hcalls.raiseVersions hsound hsettled hdated hle hone (hb.after calls).wellFormed
      hraise
    rw [hversion]
    exact ⟨hall, hall.dated hdated hle hone⟩
  · rw [hversion]
    refine ⟨hstays.advances, fun d' hd' => ?_⟩
    obtain ⟨d, hd, hsame⟩ := hstays.exists_of_mem hd'
    have hold := hdated d hd
    refine ⟨hsame.version ▸ hold.bound, ?_⟩
    rw [hsame.versions_eq, hsame.version]
    exact hold.members

end Builder

end WireSchema
