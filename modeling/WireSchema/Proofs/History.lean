import WireSchema.Proofs.Advance

/-!
# Histories of schemas

A schema with a history was built from nothing and revised from then on.  However long the history
is, its versions agree with one another: all of them lie between one and the version of the schema,
fields are as new as their types, and declarations as new as their members
(`versions_consistent`).  Every single revision moves versions to its own version only
(`versions_advance`).
-/

namespace WireSchema

theorem Revision.versioned_bump (r : Revision) : r.bump.versioned = r.versioned := by
  unfold bump
  split <;> rfl

/-- A version that can be raised leads to one that is not smaller and not zero. -/
theorem Revision.le_bump {version : UInt32} {versioned : Bool}
    (hroom : version.toNat < 2 ^ 32 - 1) (hone : versioned = false → 1 ≤ version) :
    version ≤ (bump ⟨version, versioned, false, false⟩).version ∧
      1 ≤ (bump ⟨version, versioned, false, false⟩).version := by
  cases versioned with
  | false => exact ⟨UInt32.le_refl _, hone rfl⟩
  | true =>
    have hnext : (version + 1).toNat = version.toNat + 1 := by
      rw [UInt32.toNat_add, UInt32.toNat_one, Nat.mod_eq_of_lt (by omega)]
    show version ≤ version + 1 ∧ 1 ≤ version + 1
    rw [UInt32.le_iff_toNat_le, UInt32.le_iff_toNat_le, hnext, UInt32.toNat_one]
    omega

namespace Schema

/-- A revision whose change, if it makes one, finds a version left to be counted with. -/
structure Evolves (s s' : Schema) : Prop where
  revises : s.Revises s'
  counted : s'.changed = true → s.version.toNat < 2 ^ 32 - 1

/-- A schema that was built from nothing, or from nothing and revised any number of times. -/
def Evolved (s : Schema) : Prop :=
  ∃ (versioned : Bool) (calls : List Builder.Call) (first : Schema),
    ((Builder.fresh versioned).after calls).build = .ok first ∧
      Relation.ReflTransGen Evolves first s

/-! ## What every build preserves -/

/-- A built schema whose declarations are dated up to its version. -/
structure Consistent (s : Schema) : Prop where
  built : s.Built
  dated : ∀ d ∈ s.types, d.Dated s.version
  positive : s.versioned = false → 1 ≤ s.version

theorem consistent_of_build {b : Builder} (hb : b.Reachable) (hsound : b.types.Sound)
    (hsettled : b.types.Settled) {version : UInt32} {versioned : Bool}
    (hrevision : b.revision = ⟨version, versioned, false, false⟩)
    (hdated : ∀ d ∈ b.types, d.Dated version) (hone : versioned = false → 1 ≤ version)
    {calls : List Builder.Call} {s : Schema} (h : (b.after calls).build = .ok s)
    (hcounted : s.changed = true → version.toNat < 2 ^ 32 - 1) :
    s.Consistent ∧ b.types.Advances s.version s.types := by
  have hroom (hchanged : s.changed = true) :
      b.revision.version ≤ b.revision.bump.version ∧ 1 ≤ b.revision.bump.version := by
    rw [hrevision]
    exact Revision.le_bump (hcounted hchanged) hone
  obtain ⟨hadv, hnow⟩ := Builder.advances_of_build hb hsound hsettled (hrevision ▸ hdated) h hroom
  refine ⟨⟨⟨_, hb.after calls, h⟩, hnow, fun hunversioned => ?_⟩, hadv⟩
  have hmode : versioned = false := by
    have hbump := congrArg Revision.versioned (b.after_stamps calls).bump_eq
    obtain ⟨-, -, -, -, hversioned, -⟩ := Builder.build_inv h
    rw [Revision.versioned_bump, Revision.versioned_bump] at hbump
    rw [← hunversioned, hversioned]
    exact (congrArg Revision.versioned hrevision).symm.trans hbump.symm
  rcases Builder.build_cases hb hsettled h with ⟨hchanged, hversion⟩ | ⟨hversion, -⟩
  · rw [hversion]
    exact (hroom hchanged).2
  · rw [hversion, hrevision]
    exact hone hmode

/-- What is built from nothing is consistent. -/
theorem consistent_of_fresh {versioned : Bool} {calls : List Builder.Call} {s : Schema}
    (h : ((Builder.fresh versioned).after calls).build = .ok s) : s.Consistent := by
  have hempty : (Builder.fresh versioned).types.Sound := by
    refine ⟨⟨List.nodup_nil, nofun⟩, rfl, ?_, rfl⟩
    show TypeTable.checkFinite [] = .ok ()
    decide
  refine (consistent_of_build (.fresh versioned) hempty nofun rfl nofun (fun hv => ?_) h
    fun _ => ?_).1
  · cases versioned with
    | false => decide
    | true => cases hv
  · cases versioned <;> decide

/-- A revision of what is consistent is consistent. -/
theorem Evolves.consistent {s s' : Schema} (hs : s.Consistent) (h : s.Evolves s') :
    s'.Consistent ∧ s.types.Advances s'.version s'.types := by
  obtain ⟨⟨ha, b, calls, hb, hbuild⟩, hcounted⟩ := h
  have hreach := Builder.Reachable.ofSnapshot hb
  rw [rebuild_eq hs.built ha] at hb
  cases hb
  exact consistent_of_build hreach hs.built.sound hs.built.settled rfl hs.dated hs.positive hbuild
    hcounted

theorem Evolved.consistent {s : Schema} (h : s.Evolved) : s.Consistent := by
  obtain ⟨versioned, calls, first, hfirst, hsteps⟩ := h
  induction hsteps with
  | refl => exact consistent_of_fresh hfirst
  | tail _ hstep ih => exact (hstep.consistent ih).1

/-! ## Main statements -/

/-- In a schema with a history every type, field and enum value has a version from one to the
version of the schema; a field is at least as new as its type, looking through aliases and arrays,
a struct at least as new as its fields and an enum at least as new as its values. -/
theorem versions_consistent {s : Schema} (h : s.Evolved) :
    (∀ d ∈ s.types, ∀ v ∈ d.versions, 1 ≤ v ∧ v ≤ s.version) ∧
      (∀ d ∈ s.types, ∀ body, d.body = .struct body → ∀ f ∈ body.fields,
        s.types.effectiveVersion f.typeName ≤ f.version ∧ f.version ≤ d.version) ∧
      ∀ d ∈ s.types, ∀ e, d.body = .enum e → ∀ x ∈ e.values, x.version ≤ d.version := by
  have hs := h.consistent
  refine ⟨fun d hd v hv => ?_, hs.built.settled, fun d hd e he x hx => ?_⟩
  · obtain ⟨hone, hle⟩ := (hs.dated d hd).members v hv
    exact ⟨hone, UInt32.le_trans hle (hs.dated d hd).bound⟩
  · refine ((hs.dated d hd).members x.version (List.mem_cons_of_mem _ ?_)).2
    rw [he]
    exact List.mem_map_of_mem hx

/-- An enum of genres, an alias of it, a struct of books with a genre and a sequel, and a struct
that refers to none of them. -/
def library : Schema :=
  ⟨1, true, true,
    [⟨"genre", "a", 1, .enum ⟨[⟨"essay", 1⟩, ⟨"novel", 1⟩], 1, false⟩⟩,
      ⟨"tag", "a", 1, .alias "@a/genre"⟩,
      ⟨"book", "a", 1, .struct ⟨false, some 1,
        [⟨"pages", "uint", true, false, 1⟩, ⟨"tag", "@a/tag", false, false, 1⟩,
          ⟨"sequel", "@a/book", false, false, 1⟩]⟩⟩,
      ⟨"shelf", "a", 1, .struct ⟨false, some 0, [⟨"width", "uint", false, false, 1⟩]⟩⟩],
    [("a", none)],
    [⟨.typeAdded, "@a/genre", none, 1⟩, ⟨.typeAdded, "@a/tag", none, 1⟩,
      ⟨.typeAdded, "@a/book", none, 1⟩, ⟨.typeAdded, "@a/shelf", none, 1⟩]⟩

/-- The schema with a genre more, which makes books newer through the alias, and sequels through
books. -/
def library' : Schema :=
  ⟨2, true, true,
    [⟨"genre", "a", 2, .enum ⟨[⟨"essay", 1⟩, ⟨"novel", 1⟩, ⟨"poem", 2⟩], 1, false⟩⟩,
      ⟨"tag", "a", 1, .alias "@a/genre"⟩,
      ⟨"book", "a", 2, .struct ⟨false, some 1,
        [⟨"pages", "uint", true, false, 1⟩, ⟨"tag", "@a/tag", false, false, 2⟩,
          ⟨"sequel", "@a/book", false, false, 2⟩]⟩⟩,
      ⟨"shelf", "a", 1, .struct ⟨false, some 0, [⟨"width", "uint", false, false, 1⟩]⟩⟩],
    [("a", none)],
    [⟨.enumValueAdded, "@a/genre", some "poem", 2⟩]⟩

theorem library_evolved : library.Evolved := by
  refine ⟨true, [.declareNamespace "a", .registerIn "a" (.enumOf "genre" ["essay", "novel"]),
    .registerIn "a" (.aliasOf "tag" "@a/genre"),
    .registerIn "a" { name := "book", fields := some [
      coordinate "pages", { name := "tag", typeName := "@a/tag" },
      { name := "sequel", typeName := "@a/book" }] },
    .registerIn "a" { name := "shelf", fields := some [{ name := "width", typeName := "uint" }] }],
    library, ?_, .refl⟩
  decide +kernel

theorem library_evolves : library.Evolves library' := by
  refine ⟨⟨by decide +kernel, { revision := ⟨1, true, false, false⟩, types := library.types },
    [.declareNamespace "a", .registerIn "a" (.enumOf "genre" ["essay", "novel", "poem"])],
    ?_, ?_⟩, fun _ => by decide⟩
  · decide +kernel
  · decide +kernel

theorem library'_evolved : library'.Evolved := by
  obtain ⟨versioned, calls, first, hfirst, hsteps⟩ := library_evolved
  exact ⟨versioned, calls, first, hfirst, hsteps.tail library_evolves⟩

theorem versions_consistent_library :
    library'.types.effectiveVersion "@a/tag" = 2 ∧
      (∀ d ∈ library'.types, ∀ v ∈ d.versions, 1 ≤ v ∧ v ≤ 2) ∧
      (∀ d ∈ library'.types, ∀ body, d.body = .struct body → ∀ f ∈ body.fields,
        library'.types.effectiveVersion f.typeName ≤ f.version ∧ f.version ≤ d.version) ∧
      ∀ d ∈ library'.types, ∀ e, d.body = .enum e → ∀ x ∈ e.values, x.version ≤ d.version :=
  ⟨by decide +kernel, versions_consistent library'_evolved⟩

/-- A revision of a schema with a history moves versions to its own version and to no other, all
that it adds has that version, and the values of an enum do not move; if it changes nothing, no
version moves. -/
theorem versions_advance {s s' : Schema} (hs : s.Evolved) (h : s.Evolves s') :
    s.types.Advances s'.version s'.types ∧
      (s'.changed = false →
        s'.types.map Declaration.versions = s.types.map Declaration.versions) := by
  refine ⟨(h.consistent hs.consistent).2, fun hunchanged => ?_⟩
  rcases h.revises.accounts hs.consistent.built with ⟨hchanged, -⟩ | ⟨-, -, -, hstays⟩
  · rw [hunchanged] at hchanged
    cases hchanged
  · exact hstays.versions_eq

theorem versions_advance_library :
    library'.types.map Declaration.versions = [[2, 1, 1, 2], [1], [2, 1, 2, 2], [1, 1]] ∧
      library.types.Advances 2 library'.types :=
  ⟨by decide +kernel, (versions_advance library_evolved library_evolves).1⟩

end Schema

end WireSchema
