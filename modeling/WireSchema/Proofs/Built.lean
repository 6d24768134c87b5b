import WireSchema.Proofs.Builder
import WireSchema.Proofs.Layout

/-!
# Built tables

Building checks a table and raises the versions of its fields.  What the checks look at and what is
written does not depend on versions, so the checks that the table passed hold of the built table too
(`sound_of_build`), which extends what was registered (`extends_of_build`).
-/

namespace WireSchema

/-! ## Shapes of declarations -/

/-- A field without its version. -/
def Field.unversioned (f : Field) : Field := { f with version := 0 }

/-- A body without the versions of its fields. -/
def Body.shape : Body → Body
  | .struct s => .struct { s with fields := s.fields.map Field.unversioned }
  | body => body

/-- A declaration without its versions. -/
def Declaration.shape (d : Declaration) : Declaration :=
  { d with version := 0, body := d.body.shape }

/-- A type without its versions. -/
def Target.shape : Target → Target
  | .primitive p => .primitive p
  | .declared d => .declared d.shape

namespace StructBody

theorem shapes_unversioned (s : StructBody) :
    StructBody.shapes { s with fields := s.fields.map Field.unversioned } = s.shapes := by
  rw [shapes, List.map_map]
  rfl

theorem extends_of_shapes {s s' : StructBody} (hcompact : s'.compact = s.compact)
    (hposition : s'.flagsPosition = s.flagsPosition) (hshapes : s'.shapes = s.shapes) :
    s.Extends s' where
  compact := hcompact
  fields := hshapes ▸ List.prefix_rfl
  frozen _ := hshapes
  kept _ hp := hposition.trans hp
  gained p hn hp := by rw [hposition, hn] at hp; cases hp

end StructBody

namespace Body

theorem wellFormed_shape {body : Body} : body.shape.WellFormed ↔ body.WellFormed := by
  cases body with
  | struct s =>
    exact ⟨fun h => h.of_shapes s.shapes_unversioned.symm rfl,
      fun h => h.of_shapes s.shapes_unversioned rfl⟩
  | _ => exact Iff.rfl

theorem extends_shape (body : Body) : body.Extends body.shape := by
  cases body with
  | struct s => exact .struct (StructBody.extends_of_shapes rfl rfl s.shapes_unversioned)
  | _ => exact .refl _

theorem shape_extends (body : Body) : body.shape.Extends body := by
  cases body with
  | struct s => exact .struct (StructBody.extends_of_shapes rfl rfl s.shapes_unversioned.symm)
  | _ => exact .refl _

end Body

namespace Declaration

theorem links_shape (d : Declaration) : d.shape.links = d.links := by
  rcases d with ⟨name, ns, version, body⟩
  cases body with
  | struct s =>
    simp only [links, shape, Body.shape, List.map_map]
    rfl
  | _ => rfl

theorem references_shape (d : Declaration) : d.shape.references = d.references := by
  rcases d with ⟨name, ns, version, body⟩
  cases body with
  | struct s =>
    simp only [references, shape, Body.shape, List.map_map]
    rfl
  | _ => rfl

theorem extends_of_shape {d d' : Declaration} (h : d'.shape = d.shape) : d.Extends d' := by
  have hbody : d'.body.shape = d.body.shape := congrArg (·.body) h
  have hfqn : d'.shape.fqn = d.shape.fqn := congrArg fqn h
  exact ⟨hfqn, (hbody ▸ d.body.extends_shape).trans d'.body.shape_extends⟩

end Declaration

namespace TypeTable

/-- A table without its versions. -/
def shape (t : TypeTable) : TypeTable := t.map Declaration.shape

variable (t : TypeTable)

theorem declaration?_shape (name : String) :
    t.shape.declaration? name = (t.declaration? name).map Declaration.shape := by
  rw [declaration?, shape, List.find?_map]
  rfl

theorem resolve?_shape (name : String) :
    t.shape.resolve? name = (t.resolve? name).map Target.shape := by
  unfold resolve?
  split
  · rfl
  · rw [declaration?_shape, Option.map_map, Option.map_map]
    rfl

theorem unaliasWithin_shape (n : Nat) (name : String) :
    t.shape.unaliasWithin n name = t.unaliasWithin n name := by
  induction n generalizing name with
  | zero => rfl
  | succ n ih =>
    rw [unaliasWithin, unaliasWithin, resolve?_shape]
    cases t.resolve? name with
    | none => rfl
    | some target =>
      cases target with
      | primitive p => rfl
      | declared d =>
        rcases d with ⟨_, _, _, body⟩
        match body with
        | .alias target => exact ih target
        | .enum _ | .struct _ | .array _ | .versioned _ | .external _ => rfl

theorem isBool_shape (name : String) : t.shape.isBool name = t.isBool name := by
  rw [isBool, isBool, unalias, unalias, unaliasWithin_shape, shape, List.length_map]

theorem map_references_shape : t.shape.map (·.references) = t.map (·.references) := by
  rw [shape, List.map_map]
  exact List.map_congr_left fun d _ => d.references_shape

theorem checkLinked_shape : t.shape.checkLinked = t.checkLinked := by
  unfold checkLinked
  rw [List.flatMap_def, List.flatMap_def, map_references_shape]
  simp only [resolve?_shape, Option.isNone_map]

theorem place?_shape (name : String) : t.shape.place? name = t.place? name := by
  unfold place? shape
  rw [List.findIdx?_map]
  rfl

theorem graph_shape : t.shape.graph = t.graph := by
  unfold graph
  simp only [place?_shape]
  rw [shape, List.length_map, List.zipIdx_map, List.flatMap_map]
  simp only [Prod.map, Declaration.links_shape, id]

theorem checkFinite_shape : t.shape.checkFinite = t.checkFinite := by
  have hnames (i : Nat) : t.shape[i]?.map (·.fqn) = t[i]?.map (·.fqn) := by
    rw [shape, List.getElem?_map, Option.map_map]
    rfl
  unfold checkFinite checkFiniteOver
  simp only [graph_shape, hnames]

theorem checkRequiredBools_shape : t.shape.checkRequiredBools = t.checkRequiredBools := by
  unfold checkRequiredBools
  simp only [isBool_shape]
  congr 2
  rw [shape, List.flatMap_map]
  refine List.flatMap_congr fun d _ => ?_
  rcases d with ⟨name, ns, version, body⟩
  cases body with
  | struct s =>
    simp only [Declaration.shape, Body.shape, List.filter_map, List.map_map]
    rfl
  | _ => rfl

variable {t} {t' : TypeTable}

theorem extends_of_shape (h : t'.shape = t.shape) : t.Extends t' := by
  intro i d hd
  have hi : t'.shape[i]? = some d.shape := by
    rw [h, shape, List.getElem?_map, hd]
    rfl
  rw [shape, List.getElem?_map] at hi
  obtain ⟨d', hd', hshape⟩ := Option.map_eq_some_iff.mp hi
  exact ⟨d', hd', Declaration.extends_of_shape hshape⟩

theorem names_shape (t : TypeTable) : t.shape.map (·.fqn) = t.map (·.fqn) := by
  rw [shape, List.map_map]
  rfl

theorem names_of_shape (h : t'.shape = t.shape) : t'.map (·.fqn) = t.map (·.fqn) := by
  rw [← names_shape, h, names_shape]

theorem references_of_shape (h : t'.shape = t.shape) :
    t'.map (·.references) = t.map (·.references) := by
  rw [← map_references_shape, h, map_references_shape]

theorem wellFormed_shape : t.shape.WellFormed ↔ t.WellFormed := by
  have hnames := t.names_shape
  constructor
  · intro h
    refine ⟨hnames ▸ h.unique, fun d hd => ?_⟩
    exact Body.wellFormed_shape.mp (h.bodies d.shape (List.mem_map_of_mem hd))
  · intro h
    refine ⟨hnames.symm ▸ h.unique, fun d hd => ?_⟩
    obtain ⟨e, he, rfl⟩ := List.mem_map.mp hd
    exact Body.wellFormed_shape.mpr (h.bodies e he)

theorem sound_shape : t.shape.Sound ↔ t.Sound := by
  constructor
  · intro h
    exact ⟨wellFormed_shape.mp h.wellFormed, t.checkLinked_shape.symm.trans h.linked,
      t.checkFinite_shape.symm.trans h.finite, t.checkRequiredBools_shape.symm.trans h.bools⟩
  · intro h
    exact ⟨wellFormed_shape.mpr h.wellFormed, t.checkLinked_shape.trans h.linked,
      t.checkFinite_shape.trans h.finite, t.checkRequiredBools_shape.trans h.bools⟩

/-! ## Raising versions -/

theorem shape_raise (t : TypeTable) (d : Declaration) : (t.raise d).shape = d.shape := by
  rcases d with ⟨name, ns, version, body⟩
  cases body with
  | struct s =>
    simp only [raise, Declaration.shape, Body.shape, List.map_map]
    rfl
  | _ => rfl

theorem shape_raiseWithin {n : Nat} (h : raiseWithin n t = .ok t') : t'.shape = t.shape := by
  induction n generalizing t with
  | zero =>
    cases h
    rfl
  | succ n ih =>
    unfold raiseWithin at h
    split at h
    · cases h
    · dsimp only at h
      split at h
      · cases h
        rfl
      · rw [ih h, shape, List.map_map]
        exact List.map_congr_left fun d _ => shape_raise t d

end TypeTable

/-! ## Building -/

namespace Builder

theorem build_inv {b : Builder} {s : Schema} (h : b.build = .ok s) :
    b.types.checkLinked = .ok () ∧ b.types.checkFinite = .ok () ∧
      b.types.checkRequiredBools = .ok () ∧ b.types.raiseVersions = .ok s.types ∧
      s.versioned = b.revision.versioned ∧ s.version = b.revision.version ∧
      s.changed = b.revision.changed ∧ s.changes = b.changes := by
  obtain ⟨types, htypes, h⟩ := ok_of_bind h
  cases h
  obtain ⟨⟨⟩, hlinked, h⟩ := ok_of_bind htypes
  obtain ⟨⟨⟩, hfinite, h⟩ := ok_of_bind h
  obtain ⟨⟨⟩, hbools, hraise⟩ := ok_of_bind h
  exact ⟨hlinked, hfinite, hbools, hraise, rfl, rfl, rfl, rfl⟩

theorem shape_of_build {b : Builder} {s : Schema} (h : b.build = .ok s) :
    s.types.shape = b.types.shape := by
  obtain ⟨-, -, -, hraise, -⟩ := build_inv h
  exact TypeTable.shape_raiseWithin hraise

theorem extends_of_build {b : Builder} {s : Schema} (h : b.build = .ok s) :
    b.types.Extends s.types := TypeTable.extends_of_shape (shape_of_build h)

/-- The table of a built schema is sound. -/
theorem sound_of_build {b : Builder} {s : Schema} (h : b.build = .ok s)
    (hb : b.types.WellFormed) : s.types.Sound := by
  obtain ⟨hlinked, hfinite, hbools, -⟩ := build_inv h
  have hsound : b.types.Sound := ⟨hb, hlinked, hfinite, hbools⟩
  rw [← TypeTable.sound_shape, shape_of_build h]
  exact TypeTable.sound_shape.mpr hsound

end Builder

/-- A schema that some calls to a builder lead to. -/
def Schema.Built (s : Schema) : Prop := ∃ b : Builder, b.Reachable ∧ b.build = .ok s

theorem Schema.Built.sound {s : Schema} (h : s.Built) : s.types.Sound := by
  obtain ⟨b, hb, hs⟩ := h
  exact Builder.sound_of_build hs hb.wellFormed

end WireSchema
