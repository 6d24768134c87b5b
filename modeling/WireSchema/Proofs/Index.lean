import WireSchema.Proofs.Names
import WireSchema.TypeTable.Index

/-!
# Places of names

An index locates the names of a table when it leads from each of them to its place and from no other
name anywhere (`NameIndex.Locates`).  Then names are distinct, the index finds what the table finds
(`Locates.declaration?_eq`), a declaration is placed where the index says (`Locates.place_eq`), and
references that are resolved through the index lead to the types that they name
(`Locates.standsFor`, `TypeRef.StandsFor.target?_eq`); they fail to be resolved where the table
fails to be linked (`Locates.map_linkTable_eq`).
-/

namespace WireSchema

/-- An index leads from the names of a list to their places in it, and from no other name. -/
structure NameIndex.Locates (x : NameIndex) (names : List String) : Prop where
  sorted : Assoc.Sorted x
  lookup : ∀ name i, x.lookup name = some i ↔ names[i]? = some name

/-- A reference leads to the primitive of a name, or to the place of the declaration that has the
name. -/
inductive TypeRef.StandsFor (t : TypeTable) : TypeRef → String → Prop
  | primitive {p : Primitive} {name : String} (h : Primitive.ofName? name = some p) :
      StandsFor t (.primitive p) name
  | declared {id : Nat} (h : id < t.length) : StandsFor t (.declared id) t[id].fqn

/-- Where a reference stands for a name it leads to the type of that name. -/
theorem TypeRef.StandsFor.target?_eq {t : TypeTable} (ht : (t.map (·.fqn)).Nodup) {r : TypeRef}
    {name : String} (h : r.StandsFor t name) :
    ∃ target, t.target? r = some target ∧ t.resolve? name = some target := by
  cases h with
  | primitive h =>
    refine ⟨_, rfl, ?_⟩
    rw [TypeTable.resolve?, h]
  | @declared id hid =>
    refine ⟨.declared t[id], ?_, TypeTable.resolve?_of_nodup ht (List.getElem_mem hid)⟩
    rw [TypeTable.target?, List.getElem?_eq_getElem hid]
    rfl

namespace NameIndex

variable {x x' : NameIndex} {names : List String} {t : TypeTable}

/-! ## Indices of lists of names -/

theorem locates_nil : Locates [] [] where
  sorted := .nil
  lookup name i := by simp

/-- A new name is located behind all others. -/
theorem Locates.append (h : x.Locates names) {name : String} (hnew : x.lookup name = none) :
    Locates (Assoc.insert name names.length x) (names ++ [name]) where
  sorted := Assoc.sorted_insert h.sorted
  lookup other i := by
    rw [Assoc.lookup_insert]
    by_cases hother : other = name
    · subst hother
      rw [if_pos rfl, Option.some.injEq]
      constructor
      · rintro rfl
        exact List.getElem?_concat_length
      · intro hi
        rcases Nat.lt_or_ge i names.length with hlt | hge
        · -- the name would have had a place before
          rw [List.getElem?_append_left hlt, ← h.lookup, hnew] at hi
          cases hi
        · have hlen := (List.getElem?_eq_some_iff.mp hi).1
          rw [List.length_append, List.length_singleton] at hlen
          omega
    · rw [if_neg hother, h.lookup]
      constructor
      · intro hi
        rw [List.getElem?_append_left (List.getElem?_eq_some_iff.mp hi).1]
        exact hi
      · intro hi
        rcases List.mem_append.mp (List.mem_of_getElem? hi) with hmem | hmem
        · rw [List.getElem?_append] at hi
          split at hi
          · exact hi
          · rename_i hge
            exact absurd (List.mem_singleton.mp (List.mem_of_getElem? hi)) hother
        · exact absurd (List.mem_singleton.mp hmem) hother

/-- Names that are located are distinct. -/
theorem Locates.nodup (h : x.Locates names) : names.Nodup := by
  refine List.pairwise_iff_getElem.mpr fun i j hi hj hij heq => ?_
  have hplace := (h.lookup names[i] i).mpr (List.getElem?_eq_getElem hi)
  have hplace' := (h.lookup names[j] j).mpr (List.getElem?_eq_getElem hj)
  rw [heq, hplace'] at hplace
  exact Nat.ne_of_gt hij (Option.some.inj hplace)

/-- There is one index of a list of names. -/
theorem Locates.unique (h : x.Locates names) (h' : x'.Locates names) : x = x' := by
  refine Assoc.ext h.sorted h'.sorted fun name => Option.ext fun i => ?_
  rw [h.lookup, h'.lookup]

/-- The places of the names of a table, in order. -/
def placesOf (t : TypeTable) : List (String × Nat) := t.zipIdx.map fun p => (p.1.fqn, p.2)

theorem keys_placesOf (t : TypeTable) : (placesOf t).map Prod.fst = t.map (·.fqn) := by
  rw [placesOf, List.map_map, ← List.zipIdx_map_fst 0 t, List.map_map, List.zipIdx_map_fst]
  rfl

theorem mem_placesOf {name : String} {i : Nat} :
    (name, i) ∈ placesOf t ↔ (t.map (·.fqn))[i]? = some name := by
  simp [placesOf, List.mem_zipIdx_iff_getElem?, and_comm]

/-- The index of a table locates its names. -/
theorem locates_ofTable (ht : (t.map (·.fqn)).Nodup) : (ofTable t).Locates (t.map (·.fqn)) where
  sorted := Assoc.sorted_ofList _
  lookup name i := by
    have hkeys : ((placesOf t).map Prod.fst).Nodup := keys_placesOf t ▸ ht
    show (Assoc.ofList (placesOf t)).lookup name = some i ↔ _
    rw [Assoc.lookup_ofList hkeys, ← mem_placesOf]
    constructor
    · intro hi
      obtain ⟨before, behind, hsplit, -⟩ := List.lookup_eq_some_iff.mp hi
      rw [hsplit]
      exact List.mem_append_right _ List.mem_cons_self
    · exact Assoc.lookup_of_mem hkeys

/-! ## Indices of tables -/

section Tables

variable (h : x.Locates (t.map (·.fqn)))

include h

theorem Locates.lookup_eq_some_iff {name : String} {i : Nat} :
    x.lookup name = some i ↔ ∃ d, t[i]? = some d ∧ d.fqn = name := by
  rw [h.lookup, List.getElem?_map, Option.map_eq_some_iff]

/-- The declaration of a name stands at the place of the name. -/
theorem Locates.declaration?_eq (name : String) :
    t.declaration? name = (x.lookup name).bind fun i => t[i]? := by
  cases hi : x.lookup name with
  | none =>
    rw [Option.bind_none, TypeTable.declaration?_eq_none_iff]
    intro hmem
    obtain ⟨d, hd, rfl⟩ := List.mem_map.mp hmem
    obtain ⟨i, hi'⟩ := List.getElem?_of_mem hd
    rw [h.lookup_eq_some_iff.mpr ⟨d, hi', rfl⟩] at hi
    cases hi
  | some i =>
    obtain ⟨d, hd, rfl⟩ := h.lookup_eq_some_iff.mp hi
    rw [Option.bind_some, hd]
    exact find?_of_nodup h.nodup (List.mem_of_getElem? hd)

/-- A declaration takes the place of its name, or else stands behind all others. -/
theorem Locates.place_eq (d : Declaration) :
    Builder.place t d = match x.lookup d.fqn with
      | some i => t.set i d
      | none => t ++ [d] := by
  have hfound := h.declaration?_eq d.fqn
  cases hi : x.lookup d.fqn with
  | none =>
    rw [hi] at hfound
    exact Builder.place_of_none hfound
  | some i =>
    obtain ⟨p, hp, hfqn⟩ := h.lookup_eq_some_iff.mp hi
    rw [hi, Option.bind_some, hp] at hfound
    rw [Builder.place_of_some hfound]
    refine List.ext_getElem? fun j => ?_
    rw [List.getElem?_map, List.getElem?_set]
    by_cases hj : i = j
    · subst hj
      have hlt := (List.getElem?_eq_some_iff.mp hp).1
      rw [if_pos rfl, if_pos hlt, hp, Option.map_some, if_pos (beq_iff_eq.mpr hfqn)]
    · rw [if_neg hj]
      cases he : t[j]? with
      | none => rfl
      | some e =>
        have hne : e.fqn ≠ d.fqn := by
          intro heq
          have hplace := h.lookup_eq_some_iff.mpr ⟨e, he, heq⟩
          rw [hi] at hplace
          exact hj (Option.some.inj hplace)
        simp [hne]

/-- Storing a declaration where the index says keeps the names located. -/
theorem Locates.set {d : Declaration} {i : Nat} (hi : x.lookup d.fqn = some i) :
    x.Locates ((t.set i d).map (·.fqn)) := by
  obtain ⟨p, hp, hfqn⟩ := h.lookup_eq_some_iff.mp hi
  obtain ⟨hlt, rfl⟩ := List.getElem?_eq_some_iff.mp hp
  have hnames : (t.set i d).map (·.fqn) = t.map (·.fqn) := by
    have hlt' : i < (t.map (·.fqn)).length := by rwa [List.length_map]
    have hself := List.set_getElem_self hlt'
    rw [List.getElem_map, hfqn] at hself
    rw [List.map_set, hself]
  rw [hnames]
  exact h

/-! ## References -/

theorem Locates.isNone_resolve? (name : String) :
    (x.resolve? name).isNone = (t.resolve? name).isNone := by
  unfold resolve? TypeTable.resolve?
  cases Primitive.ofName? name with
  | some p => rfl
  | none =>
    dsimp only
    rw [Option.isNone_map, Option.isNone_map, h.declaration?_eq]
    cases hi : x.lookup name with
    | none => rfl
    | some i =>
      obtain ⟨d, hd, -⟩ := h.lookup_eq_some_iff.mp hi
      rw [Option.bind_some, hd]
      rfl

/-- What a name refers to stands for the name. -/
theorem Locates.standsFor {name : String} {r : TypeRef} (hr : x.resolve? name = some r) :
    r.StandsFor t name := by
  unfold resolve? at hr
  split at hr
  · rename_i p hp
    cases hr
    exact .primitive hp
  · obtain ⟨i, hi, rfl⟩ := Option.map_eq_some_iff.mp hr
    obtain ⟨d, hd, rfl⟩ := h.lookup_eq_some_iff.mp hi
    obtain ⟨hlt, rfl⟩ := List.getElem?_eq_some_iff.mp hd
    exact .declared hlt

end Tables

/-- Fails at the first name that is not there. -/
def checkRefs (x : NameIndex) (refs : List (String × String)) : Except SchemaError Unit :=
  match refs.find? fun (name, _) => (x.resolve? name).isNone with
  | some (name, referrer) => .error (.unresolvedType name referrer)
  | none => .ok ()

theorem map_link (x : NameIndex) (refs : List (String × String)) :
    (x.link refs).map (fun _ => ()) = x.checkRefs refs := by
  induction refs with
  | nil => rfl
  | cons ref rest ih =>
    obtain ⟨name, referrer⟩ := ref
    unfold checkRefs at ih ⊢
    rw [link]
    cases hr : x.resolve? name with
    | none =>
      rw [List.find?_cons_of_pos (by simp [hr])]
      rfl
    | some r =>
      rw [List.find?_cons_of_neg (by simp [hr]), ← ih]
      cases x.link rest <;> rfl

theorem checkRefs_append (x : NameIndex) (refs more : List (String × String)) :
    x.checkRefs (refs ++ more) = (do x.checkRefs refs; x.checkRefs more) := by
  unfold checkRefs
  rw [List.find?_append]
  cases refs.find? fun (name, _) => (x.resolve? name).isNone <;> rfl

/-- A table is linked when all its references are resolved, and the first that is not is reported. -/
theorem map_linkTable (x : NameIndex) (t : TypeTable) :
    (x.linkTable t).map (fun _ => ()) = x.checkRefs (t.flatMap (·.references)) := by
  induction t with
  | nil => rfl
  | cons d rest ih =>
    rw [List.flatMap_cons, checkRefs_append, ← ih, ← map_link, linkTable]
    cases x.link d.references with
    | error e => rfl
    | ok targets => cases x.linkTable rest <;> rfl

theorem Locates.map_linkTable_eq (h : x.Locates (t.map (·.fqn))) :
    (x.linkTable t).map (fun _ => ()) = t.checkLinked := by
  rw [map_linkTable, checkRefs, TypeTable.checkLinked]
  simp only [h.isNone_resolve?]
  rfl

theorem forall₂_of_link {refs : List (String × String)} {targets : List TypeRef}
    (h : x.link refs = .ok targets) :
    List.Forall₂ (fun ref r => x.resolve? ref.1 = some r) refs targets := by
  induction refs generalizing targets with
  | nil =>
    cases h
    exact .nil
  | cons ref rest ih =>
    rw [link] at h
    split at h
    · cases h
    · rename_i r hr
      obtain ⟨others, hrest, h⟩ := ok_of_bind h
      cases h
      exact .cons hr (ih hrest)

/-- The references of a linked table lead where the index says. -/
theorem forall₂_of_linkTable {targets : List (List TypeRef)} (h : x.linkTable t = .ok targets) :
    List.Forall₂ (fun d rs => List.Forall₂ (fun ref r => x.resolve? ref.1 = some r) d.references rs)
      t targets := by
  induction t generalizing targets with
  | nil =>
    cases h
    exact .nil
  | cons d rest ih =>
    obtain ⟨rs, hd, h⟩ := ok_of_bind h
    obtain ⟨others, hrest, h⟩ := ok_of_bind h
    cases h
    exact .cons (forall₂_of_link hd) (ih hrest)

end NameIndex

end WireSchema
