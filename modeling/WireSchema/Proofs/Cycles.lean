import Mathlib.Logic.Relation
import WireSchema.Proofs.Advance
import WireSchema.Proofs.Names

/-!
# Cycles of references

A table is checked by the strongly connected components of its references.  Those with a cycle are
what lies on cycles with one of their places (`TypeGraph.IsComponents.mem_cycles_iff`).  So a table
is refused exactly when some declaration needs itself, and the fault names the declarations that lie
on cycles with the first such declaration, whatever the order in which the components are found
(`checkFinite_exact`).

In a table that is not refused, following aliases comes to an end from every type (`Unaliases`), and
so does looking through aliases and arrays for a version (`HasVersion`).
-/

namespace WireSchema

open Relation

/-! ## Strong references -/

/-- A reference that every value of a declared type follows: to the target of an alias, the element
type of an array, the payload of any version, or the type of a required field that is no array. -/
inductive Declaration.StrongRef (d : Declaration) : String → Prop
  | target {name : String} (h : d.body = .alias name) : StrongRef d name
  | element {name : String} (h : d.body = .array name) : StrongRef d name
  | payload {entries : List VersionEntry} {e : VersionEntry} (h : d.body = .versioned entries)
      (he : e ∈ entries) : StrongRef d e.typeName
  | field {s : StructBody} {f : Field} (h : d.body = .struct s) (hf : f ∈ s.fields)
      (hrequired : f.required = true) (harray : f.array = false) : StrongRef d f.typeName

theorem Declaration.mem_needs_iff {d : Declaration} {name : String} :
    name ∈ d.needs ↔ d.StrongRef name := by
  constructor
  · intro h
    unfold needs at h
    split at h
    · rename_i target hb
      exact List.mem_singleton.mp h ▸ .target hb
    · rename_i element hb
      exact List.mem_singleton.mp h ▸ .element hb
    · rename_i s hb
      obtain ⟨f, hf, rfl⟩ := List.mem_map.mp h
      rw [List.mem_filter, Bool.and_eq_true, Bool.not_eq_true'] at hf
      exact .field hb hf.1 hf.2.1 hf.2.2
    · rename_i entries hb
      obtain ⟨e, he, rfl⟩ := List.mem_map.mp h
      exact .payload hb he
    · cases h
    · cases h
  · intro h
    cases h with
    | target hb | element hb => simp [needs, hb]
    | payload hb he =>
      rw [needs, hb]
      exact List.mem_map_of_mem he
    | field hb hf hrequired harray =>
      rw [needs, hb]
      exact List.mem_map_of_mem (List.mem_filter.mpr ⟨hf, by simp [hrequired, harray]⟩)

namespace TypeTable

/-- One declaration of a table refers strongly to another. -/
def Requires (t : TypeTable) (d e : Declaration) : Prop :=
  d ∈ t ∧ ∃ name, d.StrongRef name ∧ t.resolve? name = some (.declared e)

/-- A declaration refers to itself by a path of strong references. -/
def OnCycle (t : TypeTable) (d : Declaration) : Prop := TransGen t.Requires d d

section Unique

variable {t : TypeTable} (hunique : (t.map (·.fqn)).Nodup)

include hunique

theorem requires_iff {d e : Declaration} :
    t.Requires d e ↔ d ∈ t ∧ e ∈ t ∧ t.Needs d.fqn e.fqn := by
  constructor
  · rintro ⟨hd, name, hneeds, hname⟩
    obtain ⟨he, rfl⟩ := mem_of_resolve? hname
    exact ⟨hd, he, d, find?_of_nodup hunique hd, Declaration.mem_needs_iff.mpr hneeds⟩
  · rintro ⟨hd, he, d', hd', hneeds⟩
    have hfound : t.declaration? d.fqn = some d := find?_of_nodup hunique hd
    rw [hfound] at hd'
    cases hd'
    exact ⟨hd, e.fqn, Declaration.mem_needs_iff.mp hneeds, resolve?_of_nodup hunique he⟩

/-- Paths between declarations are paths between their names. -/
theorem transGen_requires_iff {d e : Declaration} :
    TransGen t.Requires d e ↔ d ∈ t ∧ e ∈ t ∧ TransGen t.Needs d.fqn e.fqn := by
  constructor
  · intro h
    induction h with
    | single h =>
      obtain ⟨hd, he, hneeds⟩ := (requires_iff hunique).mp h
      exact ⟨hd, he, .single hneeds⟩
    | tail _ h ih =>
      obtain ⟨-, he, hneeds⟩ := (requires_iff hunique).mp h
      exact ⟨ih.1, he, ih.2.2.tail hneeds⟩
  · rintro ⟨hd, he, h⟩
    generalize hlast : e.fqn = last at h
    induction h generalizing e with
    | single h => exact .single ((requires_iff hunique).mpr ⟨hd, he, hlast ▸ h⟩)
    | tail _ h ih =>
      -- a name that needs something is declared
      obtain ⟨m, hm, -⟩ := id h
      obtain ⟨hmem, rfl⟩ := mem_of_declaration? hm
      exact (ih hmem rfl).tail ((requires_iff hunique).mpr ⟨hmem, he, hlast ▸ h⟩)

/-- With distinct names a declaration stands at the place of its name. -/
theorem place?_of_getElem? {i : Nat} {d : Declaration} (hd : t[i]? = some d) :
    t.place? d.fqn = some i := by
  obtain ⟨j, hj, hd'⟩ := exists_place? (find?_of_nodup hunique (List.mem_of_getElem? hd))
  have hlt := (List.getElem?_eq_some_iff.mp hd).1
  rw [hj, (List.getElem?_inj hlt hunique.of_map).mp (hd.trans hd'.symm)]

/-- Places reach each other as the declarations that stand there do. -/
theorem transGen_refers_iff_requires {i j : Nat} {d e : Declaration} (hd : t[i]? = some d)
    (he : t[j]? = some e) : TransGen t.needGraph.Refers i j ↔ TransGen t.Requires d e := by
  rw [transGen_refers_iff (place?_of_getElem? hunique hd) (place?_of_getElem? hunique he),
    transGen_requires_iff hunique]
  simp [List.mem_of_getElem? hd, List.mem_of_getElem? he]

/-- What lies on cycles with a place is what the declaration there reaches and what reaches it. -/
theorem mem_filterMap_cycleOf {i : Nat} {d e : Declaration} (hd : t[i]? = some d) (he : e ∈ t) :
    e ∈ (t.needGraph.cycleOf i).filterMap (fun i => t[i]?) ↔
      TransGen t.Requires d e ∧ TransGen t.Requires e d := by
  obtain ⟨j, hj⟩ := List.getElem?_of_mem he
  rw [← transGen_refers_iff_requires hunique hd hj, ← transGen_refers_iff_requires hunique hj hd,
    ← TypeGraph.mem_cycleOf (internal_needGraph t), List.mem_filterMap]
  constructor
  · rintro ⟨k, hk, hke⟩
    have hlt := (List.getElem?_eq_some_iff.mp hj).1
    rwa [(List.getElem?_inj hlt hunique.of_map).mp (hj.trans hke.symm)]
  · exact fun hmem => ⟨j, hmem, hj⟩

end Unique

/-- The places of a table, in order, hold the table. -/
theorem filterMap_getElem?_range (t : TypeTable) :
    (List.range t.length).filterMap (fun i => t[i]?) = t := by
  induction t with
  | nil => rfl
  | cons d rest ih =>
    have hfirst : (d :: rest)[0]? = some d := rfl
    rw [List.length_cons, List.range_succ_eq_map, List.filterMap_cons_some hfirst,
      List.filterMap_map]
    exact congrArg (d :: ·) ih

/-- What lies on cycles with a place stands in the table in the same order. -/
theorem filterMap_cycleOf_sublist (t : TypeTable) (i : Nat) :
    ((t.needGraph.cycleOf i).filterMap fun i => t[i]?).Sublist t := by
  have hplaces : (t.needGraph.cycleOf i).Sublist (List.range t.length) := List.filter_sublist
  have hsub := hplaces.filterMap fun i => t[i]?
  rwa [filterMap_getElem?_range] at hsub

/-! ## Evaluations that come to an end -/

/-- Following aliases from a type comes to an end at a type that is no alias. -/
inductive Unaliases (t : TypeTable) : String → String → Prop
  | last {name : String}
      (h : ∀ d target, t.resolve? name = some (.declared d) → d.body ≠ .alias target) :
      Unaliases t name name
  | step {name target last : String} {d : Declaration}
      (hd : t.resolve? name = some (.declared d)) (hb : d.body = .alias target)
      (h : Unaliases t target last) : Unaliases t name last

/-- Looking through aliases and arrays comes to an end, and the newest version on the way is the
given one. -/
inductive HasVersion (t : TypeTable) : String → UInt32 → Prop
  | primitive {name : String} {p : Primitive} (h : t.resolve? name = some (.primitive p)) :
      HasVersion t name 0
  | own {name : String} {d : Declaration} (hd : t.resolve? name = some (.declared d))
      (hb : d.body.inner? = none) : HasVersion t name d.version
  | through {name inner : String} {d : Declaration} {v : UInt32}
      (hd : t.resolve? name = some (.declared d)) (hb : d.body.inner? = some inner)
      (h : HasVersion t inner v) : HasVersion t name (max d.version v)

theorem unaliases_unalias {t : TypeTable} (hfin : t.Finite) (name : String) :
    t.Unaliases name (t.unalias name) := by
  induction hrank : t.rank name using Nat.strongRecOn generalizing name with
  | ind rank ih =>
    by_cases halias :
        ∃ d target, t.resolve? name = some (.declared d) ∧ d.body = .alias target
    · obtain ⟨d, target, hd, hb⟩ := halias
      have hlt : t.rank target < t.rank name :=
        rank_lt hfin (resolve?_eq_declared.mp hd).2 (Declaration.mem_needs_iff.mpr (.target hb))
      rw [unalias_alias hfin hd hb]
      exact .step hd hb (ih _ (hrank ▸ hlt) target rfl)
    · push Not at halias
      rw [unalias_self halias]
      exact .last halias

theorem hasVersion_effectiveVersion {t : TypeTable} (hlinked : t.checkLinked = .ok ())
    (hfin : t.Finite) {name : String} (hname : (t.resolve? name).isSome = true) :
    t.HasVersion name (t.effectiveVersion name) := by
  induction hrank : t.rank name using Nat.strongRecOn generalizing name with
  | ind rank ih =>
    obtain ⟨target, htarget⟩ := Option.isSome_iff_exists.mp hname
    cases target with
    | primitive p =>
      rw [effectiveVersion, effectiveVersionWithin_undeclared (by simp [htarget])]
      exact .primitive htarget
    | declared d =>
      rw [effectiveVersion, effectiveVersionWithin_declared htarget]
      cases hb : d.body.inner? with
      | none => exact .own htarget hb
      | some inner =>
        have hlt : t.rank inner < t.rank name :=
          rank_lt hfin (resolve?_eq_declared.mp htarget).2 (mem_needs_of_inner? hb)
        have hle := rank_le hfin inner
        obtain ⟨r, hr, hrname⟩ := List.mem_map.mp (mem_refNames_of_inner? hb)
        have hinner : (t.resolve? inner).isSome = true :=
          hrname ▸ checkLinked_eq_ok_iff.mp hlinked d (mem_of_resolve? htarget).1 r hr
        have hsame : t.effectiveVersionWithin t.length inner = t.effectiveVersion inner :=
          effectiveVersionWithin_eq hfin hle (by omega)
        dsimp only
        rw [hsame]
        exact .through htarget hb (ih _ (hrank ▸ hlt) hinner rfl)

/-! ## Main statement -/

/-- A linked table is refused exactly when some declaration refers to itself by strong references.
The fault names, in declaration order, the declarations that the first such declaration reaches and
that reach it.  When the table is not refused, every type of the table has an end of its aliases and
a version through aliases and arrays, and these are what is computed.  The check goes by components
that are computed, and it would come to the same by any others that are the strongly connected
components of the strong references, however they are listed. -/
theorem checkFinite_exact {t : TypeTable} (hunique : (t.map (·.fqn)).Nodup)
    (hlinked : t.checkLinked = .ok ()) :
    ((∃ fault, t.checkFinite = .error fault) ↔ ∃ d ∈ t, t.OnCycle d) ∧
      (∀ fault, t.checkFinite = .error fault →
        ∃ before d after, t = before ++ d :: after ∧ t.OnCycle d ∧
          (∀ e ∈ before, ¬ t.OnCycle e) ∧
          ∃ members : List Declaration, members.Sublist t ∧
            (∀ e ∈ t, e ∈ members ↔ TransGen t.Requires d e ∧ TransGen t.Requires e d) ∧
            fault = .infiniteType (members.map (·.fqn))) ∧
      (t.checkFinite = .ok () → ∀ name, (t.resolve? name).isSome = true →
        t.Unaliases name (t.unalias name) ∧ t.HasVersion name (t.effectiveVersion name)) ∧
      t.graph.strong.IsComponents t.graph.strong.components ∧
      ∀ components, t.graph.strong.IsComponents components →
        t.checkFiniteOver components = t.checkFinite := by
  have honCycle {i : Nat} (hlt : i < t.length) :
      TransGen t.needGraph.Refers i i ↔ t.OnCycle t[i] :=
    transGen_refers_iff_requires hunique (List.getElem?_eq_getElem hlt)
      (List.getElem?_eq_getElem hlt)
  refine ⟨?_, ?_, fun hfin name hname => ?_, ?_, fun components h => ?_⟩
  · constructor
    · rintro ⟨fault, hfault⟩
      obtain ⟨i, hlt, hcycle, -⟩ := checkFinite_error_inv hfault
      exact ⟨t[i], List.getElem_mem hlt, (honCycle hlt).mp hcycle⟩
    · rintro ⟨d, hd, hcycle⟩
      cases h : t.checkFinite with
      | error fault => exact ⟨fault, rfl⟩
      | ok _ =>
        have hnames := ((transGen_requires_iff hunique).mp hcycle).2.2
        exact absurd hnames (finite_iff.mp h d.fqn)
  · intro fault hfault
    obtain ⟨i, hlt, hcycle, hbefore, rfl⟩ := checkFinite_error_inv hfault
    refine ⟨t.take i, t[i], t.drop (i + 1), ?_, (honCycle hlt).mp hcycle, fun e he hon => ?_,
      (t.needGraph.cycleOf i).filterMap (fun i => t[i]?), ?_, fun e he => ?_, ?_⟩
    · rw [List.getElem_cons_drop, List.take_append_drop]
    · obtain ⟨j, hj, rfl⟩ := List.mem_take_iff_getElem.mp he
      exact hbefore j (by omega) ((honCycle (by omega)).mpr hon)
    · exact filterMap_cycleOf_sublist t i
    · exact mem_filterMap_cycleOf hunique (List.getElem?_eq_getElem hlt) he
    · rw [List.map_filterMap]
  · exact ⟨unaliases_unalias hfin name, hasVersion_effectiveVersion hlinked hfin hname⟩
  · exact TypeGraph.isComponents_components (internal_needGraph t)
  · rw [checkFiniteOver_eq h, checkFinite_eq]

/-- Notes that refer to notes and to boxes without having to, boxes that are shelves, shelves of
rooms, rooms that were notes and are boxes, and a mirror that holds a mirror. -/
def maze : TypeTable :=
  [⟨"note", "a", 1, .struct ⟨false, some 0,
      [⟨"next", "@a/note", false, false, 1⟩, ⟨"boxes", "@a/box", true, true, 1⟩]⟩⟩,
    ⟨"box", "a", 1, .alias "@a/shelf"⟩,
    ⟨"mirror", "a", 1, .struct ⟨true, none, [⟨"image", "@a/mirror", true, false, 1⟩]⟩⟩,
    ⟨"shelf", "a", 1, .array "@a/room"⟩,
    ⟨"room", "a", 1, .versioned [⟨"@a/note", 1, none⟩, ⟨"@a/box", 2, none⟩]⟩]

/-- Its components in another order than they are computed in. -/
def mazeComponents : List (List Nat) := [[2], [4, 1, 3], [0]]

theorem checkFinite_exact_maze :
    (∃ d ∈ maze, maze.OnCycle d) ∧
      (∃ before d after, maze = before ++ d :: after ∧ maze.OnCycle d ∧
        (∀ e ∈ before, ¬ maze.OnCycle e) ∧
        ∃ members : List Declaration, members.Sublist maze ∧
          (∀ e ∈ maze, e ∈ members ↔
            TransGen maze.Requires d e ∧ TransGen maze.Requires e d) ∧
          members.map (·.fqn) = ["@a/box", "@a/shelf", "@a/room"]) ∧
      mazeComponents ≠ maze.graph.strong.components ∧
      maze.checkFiniteOver mazeComponents = maze.checkFinite := by
  have hfault : maze.checkFinite = .error (.infiniteType ["@a/box", "@a/shelf", "@a/room"]) := by
    decide +kernel
  have hcomponents : maze.graph.strong.IsComponents mazeComponents := by
    have hconnected : ∀ c ∈ mazeComponents, ∀ i ∈ c, ∀ j < maze.graph.strong.size, j ∈ c ↔
        (i == j || ((maze.graph.strong.reached i).contains j &&
          (maze.graph.strong.reached j).contains i)) = true := by decide +kernel
    refine ⟨by decide, by decide +kernel, fun c hc i hi j hj => ?_⟩
    rw [hconnected c hc i hi j hj, TypeGraph.connected_iff (internal_needGraph maze)]
  obtain ⟨hiff, hmembers, -, -, hany⟩ :=
    checkFinite_exact (t := maze) (by decide +kernel) (by decide +kernel)
  obtain ⟨before, d, after, hsplit, hon, hbefore, members, hsub, hmutual, heq⟩ :=
    hmembers _ hfault
  exact ⟨hiff.mp ⟨_, hfault⟩, ⟨before, d, after, hsplit, hon, hbefore, members, hsub, hmutual,
    (SchemaError.infiniteType.inj heq).symm⟩, by decide +kernel, hany _ hcomponents⟩

end TypeTable

end WireSchema
