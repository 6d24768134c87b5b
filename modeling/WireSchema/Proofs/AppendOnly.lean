import Mathlib.Logic.Relation
import WireSchema.Proofs.Built
import WireSchema.Proofs.Replay

/-!
# Schemas only grow

A schema is revised by rebuilding it, by calls to the builder and by building again.  However often
that is done, the later schema extends the earlier one (`revisions_extend`).
-/

namespace WireSchema

namespace EnumBody

theorem codes_eq (e : EnumBody) :
    e.codes = e.keys.zipIdx.map fun p => (p.1, e.offset + UInt64.ofNat p.2) := by
  rw [codes, keys, List.zipIdx_map, List.map_map]
  rfl

/-- Keys that are added leave the numbers of the others alone. -/
theorem codes_isPrefix {e e' : EnumBody} (hoffset : e'.offset = e.offset)
    (hkeys : e.keys <+: e'.keys) : e.codes <+: e'.codes := by
  obtain ⟨more, hmore⟩ := hkeys
  rw [codes_eq, codes_eq, ← hmore, hoffset, List.zipIdx_append, List.map_append]
  exact List.prefix_append _ _

end EnumBody

namespace Schema

/-- One schema is built on top of another: the other is rebuilt, calls are made, some of which may
fail, and the result is built. -/
def Revises (s s' : Schema) : Prop :=
  s.Addressable ∧ ∃ b calls, s.rebuild = .ok b ∧ (b.after calls).build = .ok s'

theorem Revises.built {s s' : Schema} (h : s.Revises s') : s'.Built := by
  obtain ⟨-, b, calls, hb, hs'⟩ := h
  exact ⟨b.after calls, (Builder.Reachable.ofSnapshot hb).after calls, hs'⟩

/-- A revision extends what it is built on. -/
theorem Revises.extends {s s' : Schema} (h : s.Revises s') (hs : s.Built) :
    s.types.Extends s'.types := by
  obtain ⟨ha, b, calls, hb, hs'⟩ := h
  have htypes := rebuild_types hs ha hb
  have hcalls := Builder.after_extends calls (htypes ▸ hs.sound.wellFormed)
  rw [htypes] at hcalls
  exact hcalls.trans (Builder.extends_of_build hs')

/-- Any number of revisions extends what the first is built on. -/
theorem extends_of_revisions {s s' : Schema} (hs : s.Built)
    (h : Relation.ReflTransGen Revises s s') : s'.Built ∧ s.types.Extends s'.types := by
  induction h with
  | refl => exact ⟨hs, .refl _⟩
  | tail _ hstep ih => exact ⟨hstep.built, ih.2.trans (hstep.extends ih.1)⟩

/-- The numbers of an enum's keys stay. -/
theorem enumValues?_isPrefix {s s' : Schema} (hs' : s'.types.WellFormed)
    (h : s.types.Extends s'.types) {name : String} {codes : List (String × UInt64)}
    (hc : s.enumValues? name = some codes) :
    ∃ codes', s'.enumValues? name = some codes' ∧ codes <+: codes' := by
  unfold enumValues? at hc
  split at hc
  · rename_i d hd
    split at hc
    · rename_i e he
      split at hc
      · cases hc
      · rename_i hstrings
        cases hc
        obtain ⟨d', hd', hext⟩ := h.resolve? hs' hd
        obtain ⟨e', he', hoffset, hstrings', hkeys⟩ := (he ▸ hext.body).of_enum
        refine ⟨e'.codes, ?_, EnumBody.codes_isPrefix hoffset hkeys⟩
        rw [enumValues?, hd']
        dsimp only
        rw [he']
        dsimp only
        rw [hstrings', if_neg hstrings]
    · cases hc
  · cases hc

/-- Schemas are append-only.  After any number of revisions the earlier declarations stand first, in
their order and under their names, and each is extended: it has its kind, its target, element or
symbol, its compactness, and its numbering, its fields, keys and entries come first, unchanged, and
its flags stand where they stood.  Flags that were gained stand behind the earlier fields and before
all optional ones, and the numbers of an enum's keys are kept. -/
theorem revisions_extend {s s' : Schema} (hs : s.Built)
    (h : Relation.ReflTransGen Revises s s') :
    s.types.map (·.fqn) <+: s'.types.map (·.fqn) ∧
      ∀ d ∈ s.types, ∃ d' ∈ s'.types, d.Extends d' ∧ d'.kind = d.kind ∧ d'.body.WellFormed ∧
        ∀ codes, s.enumValues? d.fqn = some codes →
          ∃ codes', s'.enumValues? d.fqn = some codes' ∧ codes <+: codes' := by
  obtain ⟨hs', hext⟩ := extends_of_revisions hs h
  have hwf := hs'.sound.wellFormed
  refine ⟨hext.names_isPrefix, fun d hd => ?_⟩
  obtain ⟨i, hi⟩ := List.getElem?_of_mem hd
  obtain ⟨d', hd', hdext⟩ := hext i d hi
  have hmem := List.mem_of_getElem? hd'
  exact ⟨d', hmem, hdext, hdext.body.kind_eq, hwf.bodies d' hmem,
    fun codes hc => enumValues?_isPrefix hwf hext hc⟩

/-! Two revisions of a schema with an enum, a struct and a versioned type. -/

/-- An enum of the given keys, a struct of the given fields and a versioned type of the given
entries. -/
def paletteCalls (keys : List String) (fields : List FieldDescription)
    (versions : List VersionEntry) : List Builder.Call :=
  [.declareNamespace "a", .registerIn "a" (.enumOf "color" keys),
    .registerIn "a" { name := "point", fields := some fields },
    .registerIn "a" { name := "shape", versions := some versions }]

/-- A required field of the given name. -/
def coordinate (name : String) : FieldDescription :=
  { name := name, typeName := "uint", required := true }

/-- The first schema. -/
def palette : Schema :=
  ⟨1, true, true,
    [⟨"color", "a", 1, .enum ⟨[⟨"red", 1⟩, ⟨"green", 1⟩], 1, false⟩⟩,
      ⟨"point", "a", 1, .struct ⟨false, none, [⟨"x", "uint", true, false, 1⟩]⟩⟩,
      ⟨"shape", "a", 1, .versioned [⟨"@a/color", 1, none⟩]⟩],
    [("a", none)],
    [⟨.typeAdded, "@a/color", none, 1⟩, ⟨.typeAdded, "@a/point", none, 1⟩,
      ⟨.typeAdded, "@a/shape", none, 1⟩]⟩

/-- The schema with a key, a field and an entry more. -/
def palette' : Schema :=
  ⟨2, true, true,
    [⟨"color", "a", 2, .enum ⟨[⟨"red", 1⟩, ⟨"green", 1⟩, ⟨"blue", 2⟩], 1, false⟩⟩,
      ⟨"point", "a", 2, .struct ⟨false, some 1,
        [⟨"x", "uint", true, false, 1⟩, ⟨"y", "uint", false, false, 2⟩]⟩⟩,
      ⟨"shape", "a", 2, .versioned [⟨"@a/color", 1, none⟩, ⟨"@a/point", 4, none⟩]⟩],
    [("a", none)],
    [⟨.enumValueAdded, "@a/color", some "blue", 2⟩, ⟨.fieldAdded, "@a/point", some "y", 2⟩,
      ⟨.versionAdded, "@a/shape", some "4", 2⟩]⟩

/-- The schema with a type more. -/
def palette'' : Schema :=
  { palette' with
    version := 3
    types := palette'.types ++ [⟨"name", "a", 3, .alias "string"⟩]
    changes := [⟨.typeAdded, "@a/name", none, 3⟩] }

theorem palette_built : palette.Built := by
  refine ⟨(Builder.fresh true).after
    (paletteCalls ["red", "green"] [coordinate "x"] [⟨"@a/color", 1, none⟩]), ?_, ?_⟩
  · exact (Builder.Reachable.fresh true).after _
  · decide +kernel

theorem palette_revised : palette.Revises palette' := by
  refine ⟨by decide +kernel, { revision := ⟨1, true, false, false⟩, types := palette.types },
    paletteCalls ["red", "green", "blue"]
      [coordinate "x", { name := "y", typeName := "uint" }]
      [⟨"@a/color", 1, none⟩, ⟨"@a/point", 4, none⟩], ?_, ?_⟩
  · decide +kernel
  · decide +kernel

/-- All calls but the last are refused: they take a key, a field and an entry away. -/
theorem palette'_revised : palette'.Revises palette'' := by
  refine ⟨by decide +kernel, { revision := ⟨2, true, false, false⟩, types := palette'.types },
    paletteCalls ["red"] [coordinate "x"] [⟨"@a/color", 1, none⟩] ++
      [.registerIn "a" (.aliasOf "name" "string")], ?_, ?_⟩
  · decide +kernel
  · decide +kernel

theorem revisions_extend_palette :
    palette.types.map (·.fqn) <+: palette''.types.map (·.fqn) ∧
      ∀ d ∈ palette.types, ∃ d' ∈ palette''.types, d.Extends d' ∧ d'.kind = d.kind ∧
        d'.body.WellFormed ∧ ∀ codes, palette.enumValues? d.fqn = some codes →
          ∃ codes', palette''.enumValues? d.fqn = some codes' ∧ codes <+: codes' :=
  revisions_extend palette_built
    ((Relation.ReflTransGen.single palette_revised).tail palette'_revised)

end Schema

end WireSchema
