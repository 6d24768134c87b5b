import Mathlib.Data.List.Basic
import WireSchema.Proofs.Built

/-!
# Names in tables

Every name that a description brings is checked when it is registered, so the names in the table of
a built schema are right (`Built.named`).  A right name has no slash in it, and the name by which a
type is addressed is therefore put together in one way only (`qualified_inj`).
-/

namespace WireSchema

namespace Name

theorem check_eq_ok_iff {name : String} : check name = .ok () ↔ isValid name = true := by
  unfold check
  split <;> simp [*]

theorem slash_not_mem {name : String} (h : isValid name = true) : '/' ∉ name.toList := by
  unfold isValid at h
  split at h
  · cases h
  · rename_i c rest heq
    rw [Bool.and_eq_true, List.all_eq_true] at h
    rw [heq, List.mem_cons, not_or]
    constructor
    · rintro rfl
      exact absurd h.1 (by decide)
    · intro hmem
      exact absurd (h.2 _ hmem) (by decide)

/-- The name by which a type is addressed gives away its namespace and its name. -/
theorem qualified_inj {ns ns' name name' : String} (hns : isValid ns = true)
    (hname : isValid name = true) (h : qualified ns name = qualified ns' name') :
    ns = ns' ∧ name = name' := by
  have hlist := congrArg String.toList h
  simp only [qualified, String.toList_append, List.append_assoc] at hlist
  have hrest : ns'.toList ++ '/' :: name'.toList = ns.toList ++ '/' :: name.toList :=
    (List.append_cancel_left hlist).symm
  obtain ⟨hns, -, hname⟩ :=
    (List.append_cons_inj_of_notMem (slash_not_mem hns) (slash_not_mem hname)).mp hrest.symm
  exact ⟨String.toList_inj.mp hns, String.toList_inj.mp hname⟩

end Name

/-- Under distinct names a declaration is found by the name by which it is addressed. -/
theorem TypeTable.resolve?_of_nodup {t : TypeTable} (h : (t.map (·.fqn)).Nodup) {d : Declaration}
    (hd : d ∈ t) : t.resolve? d.fqn = some (.declared d) :=
  resolve?_eq_declared.mpr ⟨Primitive.ofName?_qualified d.ns d.name, find?_of_nodup h hd⟩

theorem TypeTable.WellFormed.resolve?_of_mem {t : TypeTable} (h : t.WellFormed) {d : Declaration}
    (hd : d ∈ t) : t.resolve? d.fqn = some (.declared d) := resolve?_of_nodup h.unique hd

namespace Builder

theorem checkNames_eq_ok_iff {names : List String} :
    checkNames names = .ok () ↔ ∀ name ∈ names, Name.isValid name = true := by
  induction names with
  | nil => simp [checkNames]
  | cons name rest ih =>
    rw [List.forall_mem_cons, ← ih, ← Name.check_eq_ok_iff, checkNames]
    constructor
    · intro h
      obtain ⟨⟨⟩, hname, hrest⟩ := ok_of_bind h
      exact ⟨hname, hrest⟩
    · rintro ⟨hname, hrest⟩
      rw [hname]
      exact hrest

end Builder

/-- The namespace, the name and the names of the fields of a declaration are right. -/
def Declaration.Named (d : Declaration) : Prop :=
  ∀ name ∈ d.ns :: d.name :: d.toDescription.fieldNames, Name.isValid name = true

/-- The names in a table are right. -/
def TypeTable.Named (t : TypeTable) : Prop := ∀ d ∈ t, d.Named

theorem Declaration.fieldNames_of_struct {d : Declaration} {s : StructBody}
    (h : d.body = .struct s) : d.toDescription.fieldNames = s.shapes.map (·.name) := by
  rcases d with ⟨name, ns, version, body⟩
  subst h
  simp only [toDescription, Description.fieldNames, Option.getD_some, StructBody.shapes,
    List.map_map]
  rfl

theorem Declaration.named_shape {d : Declaration} : d.shape.Named ↔ d.Named := by
  have hfields : d.shape.toDescription.fieldNames = d.toDescription.fieldNames := by
    rcases d with ⟨name, ns, version, body⟩
    cases body with
    | struct s =>
      rw [fieldNames_of_struct (d := ⟨name, ns, version, .struct s⟩) rfl]
      exact (fieldNames_of_struct rfl).trans (congrArg _ s.shapes_unversioned)
    | _ => rfl
  unfold Named
  rw [hfields]
  rfl

theorem TypeTable.named_shape {t : TypeTable} : t.shape.Named ↔ t.Named := by
  simp only [Named, shape, List.forall_mem_map, Declaration.named_shape]

namespace Admission

theorem relaxBool_name (f : FieldDescription) : (relaxBool f).name = f.name := by
  unfold relaxBool
  split <;> rfl

/-- The fields of an admitted declaration have names that were given. -/
theorem fieldNames_of_accept {s s' : Session} {previous : Option Declaration} {d : Description}
    {declaration : Declaration} (h : accept s previous d = .ok (declaration, s')) :
    declaration.toDescription.fieldNames ⊆ d.fieldNames := by
  obtain ⟨a, ha, rfl, -⟩ := accept_cases h
  generalize previous.map (fun p => (p.version, p.body)) = previous at ha
  cases ha with
  | text hbody ha =>
    rw [ha.body.1]
    cases hbody <;> exact List.nil_subset _
  | enum _ _ ha =>
    obtain ⟨e, he, -⟩ := ha.body
    rw [he]
    exact List.nil_subset _
  | struct _ hgiven _ _ ha =>
    obtain ⟨s', hbody, hshapes⟩ := ha.shapes
    rw [Declaration.fieldNames_of_struct hbody, hshapes, Description.fieldNames, hgiven]
    simp [Function.comp_def, FieldDescription.shape, relaxBool_name]
  | versioned _ _ _ _ ha =>
    rw [ha.body.1]
    exact List.nil_subset _

end Admission

namespace Builder

theorem place_named {t : TypeTable} (ht : t.Named) {d : Declaration} (hd : d.Named) :
    (place t d).Named := by
  intro e he
  unfold place at he
  split at he
  · obtain ⟨x, hx, rfl⟩ := List.mem_map.mp he
    split
    · exact hd
    · exact ht x hx
  · rcases List.mem_append.mp he with he | he
    · exact ht e he
    · rw [List.mem_singleton.mp he]
      exact hd

theorem register_named {b b' : Builder} {d : Description} (h : b.register d = .ok b')
    (hb : b.types.Named) : b'.types.Named := by
  obtain ⟨ns, declaration, session, hns, hnames, -, haccept, htypes, -⟩ := register_inv h
  rw [htypes]
  refine place_named hb fun name hname => checkNames_eq_ok_iff.mp hnames name ?_
  have hfields := Admission.fieldNames_of_accept haccept
  obtain ⟨version, body, -, -, rfl⟩ := Admission.accept_inv haccept
  rcases List.mem_cons.mp hname with hname | hname
  · rw [hname, hns]
    exact List.mem_cons_self
  · rcases List.mem_cons.mp hname with hname | hname
    · exact hname ▸ List.mem_cons_of_mem _ List.mem_cons_self
    · exact List.mem_cons_of_mem _ (List.mem_cons_of_mem _ (hfields hname))

theorem Reachable.named {b : Builder} (h : b.Reachable) : b.types.Named :=
  h.types_induction nofun register_named

end Builder

/-- The names in a built table are right. -/
theorem Schema.Built.named {s : Schema} (h : s.Built) : s.types.Named := by
  obtain ⟨b, hb, hs⟩ := h
  rw [← TypeTable.named_shape, Builder.shape_of_build hs]
  exact TypeTable.named_shape.mpr hb.named

end WireSchema
