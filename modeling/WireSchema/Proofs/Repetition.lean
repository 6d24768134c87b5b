import WireSchema.Proofs.ChangeLog

/-!
# Sessions over again

What a run of calls has registered, the builder has, and so has a builder on top of the schema that
is built from there (`Builder.has_of_mem_registrations`, `Builder.Has.of_build`).  A call that
registers what a builder has leaves the table, the version and the log alone
(`Builder.perform_rests`), and so does a run of such calls (`Builder.after_rests`).  So a session can
be gone through again on top of its own schema, in any order, with namespaces declared on the way,
calls left out and calls made twice, and the schema that is built is persisted as the first one was
(`Builder.after_repeated`).
-/

namespace WireSchema

namespace Builder

variable {b b' : Builder} {d : Description}

/-! ## What was registered -/

/-- What was registered has a namespace and right names. -/
theorem checkNames_of_mem_registrations {calls : List Call} (hd : d ∈ b.registrations calls) :
    ∃ ns, d.ns = some ns ∧ checkNames (ns :: d.name :: d.fieldNames) = .ok () := by
  induction calls generalizing b with
  | nil => exact absurd hd List.not_mem_nil
  | cons c rest ih =>
    rw [registrations, succeeding_cons] at hd
    cases h : b.perform c with
    | error e =>
      rw [h] at hd
      exact ih hd
    | ok b₁ =>
      rw [h] at hd
      dsimp only at hd
      rcases perform_cases h with ⟨e, he, hreg⟩ | ⟨he, -⟩
      · rw [List.filterMap_cons_some he] at hd
        rcases List.mem_cons.mp hd with rfl | hd
        · obtain ⟨ns, -, -, hns, hnames, -⟩ := register_inv hreg
          exact ⟨ns, hns, hnames⟩
        · exact ih hd
      · rw [List.filterMap_cons_none he] at hd
        exact ih hd

/-- What was registered is there after the calls. -/
theorem has_of_mem_registrations (hr : b.revision.replaying = false) {calls : List Call}
    (hd : d ∈ b.registrations calls) : (b.after calls).Has d := by
  obtain ⟨qs, hqs⟩ := logged_after hr calls
  obtain ⟨q, hq, hdeclares⟩ := exists_of_mem_left hqs.declares hd
  refine ⟨q, ?_, hdeclares⟩
  have hfqn : q.fqn = d.fqn := by
    rw [Description.fqn, Declaration.fqn, hdeclares.name, hdeclares.ns]
  have hfound : TypeTable.declaration? qs q.fqn = some q := find?_of_nodup hqs.unique hq
  rw [hqs.found, ← hfqn, hfound, Option.some_or]

/-! ## Calls that add nothing -/

/-- A builder has the table, the version and the log of another. -/
structure Rests (b b' : Builder) : Prop where
  types : b'.types = b.types
  revision : b'.revision = b.revision
  changes : b'.changes = b.changes

theorem Rests.refl (b : Builder) : b.Rests b := ⟨rfl, rfl, rfl⟩

theorem Rests.trans {b₁ : Builder} (h : b.Rests b₁) (h' : b₁.Rests b') : b.Rests b' :=
  ⟨h'.types.trans h.types, h'.revision.trans h.revision, h'.changes.trans h.changes⟩

theorem Rests.has (h : b.Rests b') (hd : b.Has d) : b'.Has d := by
  obtain ⟨p, hp, hdeclares⟩ := hd
  exact ⟨p, h.types ▸ hp, hdeclares⟩

/-- What is there already passes unchanged, once nothing is wrong with its entry. -/
theorem verdict_of_has (hd : b.Has d) (hentry : b.checkEntry d = .ok ()) :
    ∃ p, b.types.declaration? p.fqn = some p ∧ b.verdict d = .ok (p, { revision := b.revision }) := by
  obtain ⟨p, hp, hdeclares⟩ := hd
  refine ⟨p, (TypeTable.mem_of_declaration? hp).2 ▸ hp, ?_⟩
  rw [verdict, hentry, ok_bind, hp, Admission.accept_declared hdeclares]

theorem register_rests (hr : b.revision.replaying = false) (hwf : b.types.WellFormed)
    (hd : b.Has d) (h : b.register d = .ok b') : b.Rests b' := by
  rw [register_eq hr] at h
  obtain ⟨p, hp, rfl⟩ := ok_of_map h
  obtain ⟨⟨⟩, hentry, -⟩ := ok_of_bind hp
  obtain ⟨q, hq, hverdict⟩ := verdict_of_has hd hentry
  rw [hp] at hverdict
  cases hverdict
  exact ⟨hwf.place_self hq, rfl, List.append_nil _⟩

theorem perform_rests (hr : b.revision.replaying = false) (hwf : b.types.WellFormed) {c : Call}
    (hc : ∀ d, c.description? = some d → b.Has d) (h : b.perform c = .ok b') : b.Rests b' := by
  rcases perform_cases h with ⟨d, hd, hreg⟩ | ⟨-, htypes, -, hrevision, hchanges⟩
  · exact register_rests hr hwf (hc d hd) hreg
  · exact ⟨htypes, hrevision, hchanges⟩

/-- Calls that register what is there add nothing, whether they succeed or not. -/
theorem after_rests (hr : b.revision.replaying = false) (hwf : b.types.WellFormed)
    {calls : List Call} (hcalls : ∀ c ∈ calls, ∀ d, c.description? = some d → b.Has d) :
    b.Rests (b.after calls) := by
  induction calls generalizing b with
  | nil => exact .refl b
  | cons c rest ih =>
    rw [after_cons]
    have hrest : ∀ c ∈ rest, ∀ d, c.description? = some d → b.Has d :=
      fun c hc => hcalls c (List.mem_cons_of_mem _ hc)
    cases h : b.perform c with
    | error e => exact ih hr hwf hrest
    | ok b₁ =>
      have hfirst := perform_rests hr hwf (hcalls c List.mem_cons_self) h
      refine hfirst.trans (ih ?_ ?_ fun c hc d hd => hfirst.has (hrest c hc d hd))
      · exact (congrArg Revision.replaying hfirst.revision).trans hr
      · exact perform_wellFormed h hwf

/-! ## The session again -/

/-- What a run of calls has registered can be gone through again on top of the schema that was built
from there, by any calls that register nothing else.  After any such calls the log is empty, the
version is that of the schema and nothing counts as changed, each description that the first run
registered can be registered once more as long as its namespace is declared and its name is not yet
taken, and what is built is persisted as the schema was. -/
theorem after_repeated (hb : b.Reachable) (calls : List Call) {s : Schema}
    (hs : (b.after calls).build = .ok s) (ha : s.Addressable) :
    ∃ b₁, s.rebuild = .ok b₁ ∧ ∀ again : List Call,
      (∀ c ∈ again, ∀ d, c.description? = some d → d ∈ b.registrations calls) →
      (b₁.after again).changes = [] ∧ (b₁.after again).revision.version = s.version ∧
      (b₁.after again).revision.changed = false ∧
      (∀ d ∈ b.registrations calls, d.fqn ∉ (b₁.after again).registered →
        (∀ ns, d.ns = some ns → ((b₁.after again).namespaces.lookup ns).isSome = true) →
        ∃ b₂, (b₁.after again).register d = .ok b₂) ∧
      ∃ s', (b₁.after again).build = .ok s' ∧ s'.toSnapshot = s.toSnapshot ∧
        (∀ pretty, s'.text pretty = s.text pretty) ∧ s'.fingerprint = s.fingerprint := by
  have hbuilt : s.Built := ⟨_, hb.after calls, hs⟩
  refine ⟨_, Schema.rebuild_eq hbuilt ha, fun again hagain => ?_⟩
  have hthere {b₁ : Builder} (htypes : b₁.types = s.types) {d : Description}
      (hd : d ∈ b.registrations calls) : b₁.Has d :=
    (has_of_mem_registrations hb.started hd).of_build hs htypes
  have hrests := after_rests (b := ⟨⟨s.version, s.versioned, false, false⟩, s.types, [], [], []⟩)
    rfl hbuilt.sound.wellFormed fun c hc d hd => hthere rfl (hagain c hc d hd)
  generalize after _ again = b₂ at hrests ⊢
  obtain ⟨revision, types, registered, namespaces, changes⟩ := b₂
  obtain ⟨htypes, hrevision, hchanges⟩ := hrests
  cases htypes
  cases hrevision
  cases hchanges
  refine ⟨rfl, rfl, rfl, fun d hd hfree hspace => ?_, _,
    build_of_settled hbuilt.sound hbuilt.settled, rfl, fun _ => rfl, rfl⟩
  obtain ⟨ns, hns, hnames⟩ := checkNames_of_mem_registrations hd
  have hwelcome : Welcomes _ d := ⟨ns, hns, checkNamespace_eq_ok_iff.mpr (hspace ns hns), hnames⟩
  obtain ⟨p, -, hverdict⟩ := verdict_of_has (hthere rfl hd)
    (checkEntry_eq_ok_iff.mpr ⟨hwelcome, hfree⟩)
  exact ⟨_, by rw [register_eq rfl, hverdict]; rfl⟩

end Builder

end WireSchema
