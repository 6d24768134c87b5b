import WireSchema.Proofs.Basic
import WireSchema.Proofs.Components

/-!
# Finite types

The strong references of a table lead from place to place as its declarations need each other by
name (`transGen_refers_iff`).  Whatever components the check is given, it looks for the first place
that is reached from itself (`checkFiniteOver_eq`), and so a table passes exactly when no name needs
itself (`finite_iff`).  The number of places that are reached from a place then goes down along
every reference that a value must follow (`rank_lt`).  That number is what the depth of a codec is
measured against.
-/

namespace WireSchema

open Relation

/-! ## References of declarations -/

namespace Declaration

/-- The types that every value of a declared type contains. -/
def needs (d : Declaration) : List String :=
  match d.body with
  | .alias target => [target]
  | .array element => [element]
  | .struct s => (s.fields.filter fun f => f.required && !f.array).map (·.typeName)
  | .versioned entries => entries.map (·.typeName)
  | .enum _ | .external _ => []

/-- What a declaration needs are the targets of its strong references. -/
theorem mem_needs_iff_links {d : Declaration} {name : String} :
    name ∈ d.needs ↔ ∃ kind, (name, kind) ∈ d.links ∧ kind.isStrong = true := by
  have hfield (f : Field) : f.edgeKind.isStrong = (f.required && !f.array) := by
    unfold Field.edgeKind
    cases f.array <;> cases f.required <;> rfl
  unfold needs links
  cases d.body with
  | «alias» target | array element => simp [EdgeKind.isStrong]
  | enum e | external symbol => simp
  | struct s =>
    constructor
    · intro h
      obtain ⟨f, hf, rfl⟩ := List.mem_map.mp h
      obtain ⟨hf, hstrong⟩ := List.mem_filter.mp hf
      exact ⟨f.edgeKind, List.mem_map_of_mem hf, (hfield f).trans hstrong⟩
    · rintro ⟨kind, hkind, hstrong⟩
      obtain ⟨f, hf, heq⟩ := List.mem_map.mp hkind
      cases heq
      exact List.mem_map_of_mem (List.mem_filter.mpr ⟨hf, (hfield f).symm.trans hstrong⟩)
  | versioned entries =>
    constructor
    · intro h
      obtain ⟨e, he, rfl⟩ := List.mem_map.mp h
      exact ⟨.payload, List.mem_map_of_mem he, rfl⟩
    · rintro ⟨kind, hkind, -⟩
      obtain ⟨e, he, heq⟩ := List.mem_map.mp hkind
      cases heq
      exact List.mem_map_of_mem he

end Declaration

/-- No primitive is addressed as a declared type is. -/
theorem Primitive.ofName?_qualified (ns name : String) :
    Primitive.ofName? (Name.qualified ns name) = Option.none := by
  have hnames : ∀ p ∈ catalogue, p.1.toList.head? ≠ some '@' := by decide +kernel
  rw [ofName?, List.lookup_eq_none_iff]
  intro p hp
  rw [bne_iff_ne]
  intro heq
  refine hnames p hp ?_
  rw [← heq]
  simp [Name.qualified]

namespace TypeTable

variable {t : TypeTable}

/-! ## Places -/

/-- The declaration of a name stands at the place of the name. -/
theorem declaration?_eq_place? (t : TypeTable) (name : String) :
    t.declaration? name = (t.place? name).bind fun i => t[i]? := by
  have hfind (t : TypeTable) :
      (t.findIdx? (·.fqn == name)).bind (fun i => t[i]?) = t.find? (·.fqn == name) := by
    induction t with
    | nil => rfl
    | cons d rest ih =>
      by_cases h : (d.fqn == name) = true
      · rw [List.findIdx?_cons, if_pos h, List.find?_cons_of_pos (by exact h)]
        rfl
      · rw [List.findIdx?_cons, if_neg h, List.find?_cons_of_neg (by exact h), ← ih,
          Option.bind_map]
        rfl
  unfold place?
  split
  · rename_i p hp
    rw [Option.bind_none, declaration?, List.find?_eq_none]
    intro d _ hd
    rw [← beq_iff_eq.mp hd, Declaration.fqn, Primitive.ofName?_qualified] at hp
    cases hp
  · exact (hfind t).symm

theorem exists_of_place? {name : String} {i : Nat} (h : t.place? name = some i) :
    ∃ d, t[i]? = some d ∧ t.declaration? name = some d := by
  have hlt : i < t.length := by
    unfold place? at h
    split at h
    · cases h
    · exact (List.findIdx?_eq_some_iff_getElem.mp h).1
  refine ⟨t[i], List.getElem?_eq_getElem hlt, ?_⟩
  rw [declaration?_eq_place?, h, Option.bind_some, List.getElem?_eq_getElem hlt]

theorem exists_place? {name : String} {d : Declaration} (h : t.declaration? name = some d) :
    ∃ i, t.place? name = some i ∧ t[i]? = some d := by
  rw [declaration?_eq_place?] at h
  exact Option.bind_eq_some_iff.mp h

/-- Another name has another place. -/
theorem place?_inj {a b : String} {i : Nat} (ha : t.place? a = some i) (hb : t.place? b = some i) :
    a = b := by
  obtain ⟨d, hd, hda⟩ := exists_of_place? ha
  obtain ⟨e, he, heb⟩ := exists_of_place? hb
  rw [hd] at he
  cases he
  exact (mem_of_declaration? hda).2.symm.trans (mem_of_declaration? heb).2

/-! ## Strong references -/

/-- The references between declarations that every value must follow. -/
abbrev needGraph (t : TypeTable) : TypeGraph := t.graph.strong

theorem mem_next_needGraph {i j : Nat} :
    j ∈ t.needGraph.next i ↔
      ∃ d, t[i]? = some d ∧ ∃ name ∈ d.needs, t.place? name = some j := by
  have hstrong : j ∈ t.needGraph.next i ↔
      ∃ kind, (i, j, kind) ∈ t.graph.edges ∧ kind.isStrong = true := by
    simp only [needGraph, TypeGraph.next, TypeGraph.strong, List.mem_map, List.mem_filter,
      Prod.exists, beq_iff_eq]
    constructor
    · rintro ⟨_, _, kind, ⟨⟨hedge, hkind⟩, rfl⟩, rfl⟩
      exact ⟨kind, hedge, hkind⟩
    · rintro ⟨kind, hedge, hkind⟩
      exact ⟨i, j, kind, ⟨⟨hedge, hkind⟩, rfl⟩, rfl⟩
  have hedge (kind : EdgeKind) : (i, j, kind) ∈ t.graph.edges ↔
      ∃ d, t[i]? = some d ∧ ∃ name, (name, kind) ∈ d.links ∧ t.place? name = some j := by
    simp only [graph, List.mem_flatMap, List.mem_filterMap, Option.map_eq_some_iff, Prod.mk.injEq,
      Prod.exists, List.mem_zipIdx_iff_getElem?]
    constructor
    · rintro ⟨d, _, hd, name, _, hlink, _, hname, rfl, rfl, rfl⟩
      exact ⟨d, hd, name, hlink, hname⟩
    · rintro ⟨d, hd, name, hlink, hname⟩
      exact ⟨d, i, hd, name, kind, hlink, j, hname, rfl, rfl, rfl⟩
  simp only [hstrong, hedge, Declaration.mem_needs_iff_links]
  constructor
  · rintro ⟨kind, ⟨d, hd, name, hlink, hname⟩, hkind⟩
    exact ⟨d, hd, name, ⟨kind, hlink, hkind⟩, hname⟩
  · rintro ⟨d, hd, name, ⟨kind, hlink, hkind⟩, hname⟩
    exact ⟨kind, ⟨d, hd, name, hlink, hname⟩, hkind⟩

theorem internal_needGraph (t : TypeTable) : t.needGraph.Internal := by
  intro i j hj
  obtain ⟨-, -, name, -, hname⟩ := mem_next_needGraph.mp hj
  obtain ⟨d, hd, -⟩ := exists_of_place? hname
  exact (List.getElem?_eq_some_iff.mp hd).1

/-- Every value of the first type holds one of the second: its target, its elements, one of its
versions or a required field. -/
def Needs (t : TypeTable) (name child : String) : Prop :=
  ∃ d, t.declaration? name = some d ∧ child ∈ d.needs

theorem refers_iff {a b : String} {i j : Nat} (ha : t.place? a = some i)
    (hb : t.place? b = some j) : t.needGraph.Refers i j ↔ t.Needs a b := by
  obtain ⟨d, hd, hda⟩ := exists_of_place? ha
  rw [TypeGraph.Refers, mem_next_needGraph]
  constructor
  · rintro ⟨e, he, name, hname, hplace⟩
    rw [hd] at he
    cases he
    exact ⟨d, hda, place?_inj hplace hb ▸ hname⟩
  · rintro ⟨e, he, hchild⟩
    rw [hda] at he
    cases he
    exact ⟨d, hd, b, hchild, hb⟩

/-- A place that is reached has a name. -/
theorem exists_name {i j : Nat} (h : TransGen t.needGraph.Refers i j) :
    ∃ name, t.place? name = some j := by
  obtain ⟨k, -, hkj⟩ := TransGen.tail'_iff.mp h
  obtain ⟨-, -, name, -, hname⟩ := mem_next_needGraph.mp hkj
  exact ⟨name, hname⟩

/-- Places reach each other as the names that have them do. -/
theorem transGen_refers_iff {a b : String} {i j : Nat} (ha : t.place? a = some i)
    (hb : t.place? b = some j) : TransGen t.needGraph.Refers i j ↔ TransGen t.Needs a b := by
  constructor
  · intro h
    induction h generalizing b with
    | single h => exact .single ((refers_iff ha hb).mp h)
    | @tail k _ hik hkj ih =>
      obtain ⟨c, hc⟩ := exists_name hik
      exact (ih hc).tail ((refers_iff hc hb).mp hkj)
  · intro h
    induction h generalizing j with
    | single h => exact .single ((refers_iff ha hb).mpr h)
    | tail _ h ih =>
      obtain ⟨d, hd, -⟩ := id h
      obtain ⟨k, hk, -⟩ := exists_place? hd
      exact (ih hk).tail ((refers_iff hk hb).mpr h)

/-! ## The check -/

/-- Whatever components are given, the check finds the first place that is reached from itself, with
all that are reached from it and reach it. -/
theorem checkFiniteOver_eq {components : List (List Nat)}
    (h : t.needGraph.IsComponents components) :
    t.checkFiniteOver components =
      match (List.range t.length).find? fun i => (t.needGraph.reached i).contains i with
      | some i =>
        .error (.infiniteType ((t.needGraph.cycleOf i).filterMap fun i => t[i]?.map (·.fqn)))
      | none => .ok () := by
  have hhead := h.head?_cycles (internal_needGraph t)
  unfold checkFiniteOver
  rw [hhead]
  show _ = match (List.range t.needGraph.size).find? _ with | some i => _ | none => _
  cases (List.range t.needGraph.size).find? fun i => (t.needGraph.reached i).contains i <;> rfl

theorem checkFinite_eq (t : TypeTable) :
    t.checkFinite =
      match (List.range t.length).find? fun i => (t.needGraph.reached i).contains i with
      | some i =>
        .error (.infiniteType ((t.needGraph.cycleOf i).filterMap fun i => t[i]?.map (·.fqn)))
      | none => .ok () :=
  checkFiniteOver_eq (TypeGraph.isComponents_components (internal_needGraph t))

/-- A table is refused for what lies on cycles with its first place on a cycle. -/
theorem checkFinite_error_inv {fault : SchemaError} (h : t.checkFinite = .error fault) :
    ∃ i < t.length, TransGen t.needGraph.Refers i i ∧
      (∀ j < i, ¬ TransGen t.needGraph.Refers j j) ∧
      fault = .infiniteType ((t.needGraph.cycleOf i).filterMap fun i => t[i]?.map (·.fqn)) := by
  rw [checkFinite_eq] at h
  cases hfind : (List.range t.length).find? fun i => (t.needGraph.reached i).contains i with
  | none =>
    rw [hfind] at h
    cases h
  | some i =>
    rw [hfind] at h
    obtain ⟨hcycle, hlt, hbefore⟩ := List.find?_range_eq_some.mp hfind
    simp only [Bool.not_eq_true', Bool.eq_false_iff, Ne, List.contains_iff_mem,
      TypeGraph.mem_reached_iff (internal_needGraph t)] at hcycle hbefore
    exact ⟨i, List.mem_range.mp hlt, hcycle, hbefore, (Except.error.inj h).symm⟩

/-- Every declared type has finite values. -/
def Finite (t : TypeTable) : Prop := t.checkFinite = .ok ()

theorem checkFinite_eq_ok_iff : t.checkFinite = .ok () ↔ t.needGraph.Acyclic := by
  rw [checkFinite_eq]
  cases hfind : (List.range t.length).find? fun i => (t.needGraph.reached i).contains i with
  | none =>
    refine ⟨fun _ i hi hmem => ?_, fun _ => rfl⟩
    exact List.find?_eq_none.mp hfind i (List.mem_range.mpr hi) (List.contains_iff_mem.mpr hmem)
  | some i =>
    refine ⟨nofun, fun h => ?_⟩
    have hlt := List.mem_range.mp (List.mem_of_find?_eq_some hfind)
    have hfound : (t.needGraph.reached i).contains i = true :=
      (List.find?_eq_some_iff_append.mp hfind).1
    exact absurd (List.contains_iff_mem.mp hfound) (h i hlt)

/-- A table passes exactly when no name needs itself. -/
theorem finite_iff : t.Finite ↔ ∀ name, ¬ TransGen t.Needs name name := by
  rw [Finite, checkFinite_eq_ok_iff]
  constructor
  · intro h name hcycle
    obtain ⟨-, ⟨d, hd, -⟩, -⟩ := TransGen.head'_iff.mp hcycle
    obtain ⟨i, hi, hplace⟩ := exists_place? hd
    refine h i (List.getElem?_eq_some_iff.mp hplace).1 ?_
    rw [TypeGraph.mem_reached_iff (internal_needGraph t), transGen_refers_iff hi hi]
    exact hcycle
  · intro h i _ hmem
    rw [TypeGraph.mem_reached_iff (internal_needGraph t)] at hmem
    obtain ⟨name, hname⟩ := exists_name hmem
    exact h name ((transGen_refers_iff hname hname).mp hmem)

/-! ## Ranks -/

/-- How many declarations stand at most between a type and the end of what its values must hold. -/
def rank (t : TypeTable) (name : String) : Nat :=
  match t.place? name with
  | some i => (t.needGraph.reached i).length + 1
  | none => 0

theorem rank_le (h : t.Finite) (name : String) : t.rank name ≤ t.length := by
  unfold rank
  split
  · rename_i i hi
    obtain ⟨d, hd, -⟩ := exists_of_place? hi
    exact TypeGraph.length_reached_lt_size (internal_needGraph t) (checkFinite_eq_ok_iff.mp h)
      (List.getElem?_eq_some_iff.mp hd).1
  · exact Nat.zero_le _

/-- The rank goes down along every reference that a value must follow. -/
theorem rank_lt (h : t.Finite) {name child : String} {d : Declaration}
    (hd : t.declaration? name = some d) (hc : child ∈ d.needs) : t.rank child < t.rank name := by
  obtain ⟨i, hi, -⟩ := exists_place? hd
  rw [rank, rank, hi]
  cases hj : t.place? child with
  | none => exact Nat.succ_pos _
  | some j =>
    have hij : t.needGraph.Refers i j := (refers_iff hi hj).mpr ⟨d, hd, hc⟩
    exact Nat.succ_lt_succ
      (TypeGraph.length_reached_lt (internal_needGraph t) (checkFinite_eq_ok_iff.mp h) hij)

end TypeTable

end WireSchema
