import WireSchema.Proofs.Growth
import WireSchema.Proofs.NormalForm

/-!
# Values of an extended table

What a table reads and what a table that extends it reads from the same bytes differ in one thing:
every struct, at any depth, has the fields that were added to it, each with its default
(`TypeTable.upgrade`).  The upgrade follows the declaration of the type; values that hold no others,
which all defaults are, stay as they are (`upgrade_atom`).
-/

namespace WireSchema

namespace Value

/-- A value that holds no other values. -/
def IsAtom : Value → Prop
  | .array _ | .struct _ => False
  | _ => True

/-- A change of the value of a field, or of each of its items. -/
def mapPart (array : Bool) (g : Value → Value) : Value → Value := if array then mapItems g else g

theorem mapItems_atom (g : Value → Value) {v : Value} (h : v.IsAtom) : v.mapItems g = v := by
  cases v <;> first | rfl | cases h

theorem amend_atom (g : String → Value → Value) (added : Fields) {v : Value} (h : v.IsAtom) :
    v.amend g added = v := by
  cases v <;> first | rfl | cases h

theorem mapPart_atom {array : Bool} {g : Value → Value} {v : Value} (h : v.IsAtom)
    (hg : g v = v) : v.mapPart array g = v := by
  cases array with
  | false => exact hg
  | true => exact mapItems_atom g h

theorem mapItems_congr {g g' : Value → Value} {v : Value}
    (h : ∀ items, v = .array items → ∀ u ∈ items, g u = g' u) : v.mapItems g = v.mapItems g' := by
  cases v with
  | array items => exact congrArg Value.array (List.map_congr_left (h items rfl))
  | _ => rfl

theorem amend_congr {g g' : String → Value → Value} {added : Fields} {v : Value}
    (h : ∀ fields, v = .struct fields → ∀ p ∈ fields, g p.1 p.2 = g' p.1 p.2) :
    v.amend g added = v.amend g' added := by
  cases v with
  | struct fields =>
    have hmap : (fields.map fun p => (p.1, g p.1 p.2)) = fields.map fun p => (p.1, g' p.1 p.2) :=
      List.map_congr_left fun p hp => by rw [h fields rfl p hp]
    rw [amend, amend, hmap]
  | _ => rfl

theorem mapPart_congr {array : Bool} {g g' : Value → Value} {v : Value}
    (h : ∀ u : Value, u.depth ≤ v.depth → g u = g' u) : v.mapPart array g = v.mapPart array g' := by
  cases array with
  | false => exact h v (Nat.le_refl _)
  | true =>
    refine mapItems_congr fun items hv u hu => h u ?_
    rw [hv, depth]
    exact Nat.le_succ_of_le (depth_le_depthItems hu)

end Value

namespace TypeTable

variable {t t' : TypeTable}

/-! ## Upgrading values -/

/-- The upgrade of what a struct holds under a name. -/
def upgradeField (child : String → Value → Value) (s : StructBody) (name : String) (u : Value) :
    Value :=
  match s.fields.find? (·.name == name) with
  | some f => u.mapPart f.array (child f.typeName)
  | none => u

/-- The struct of a name. -/
def struct? (t : TypeTable) (name : String) : Option StructBody :=
  match t.resolve? name with
  | some (.declared d) => d.body.struct?
  | _ => none

theorem struct?_eq_some {name : String} {s : StructBody} :
    t.struct? name = some s ↔ ∃ d, t.resolve? name = some (.declared d) ∧ d.body = .struct s := by
  unfold struct?
  split
  · rename_i d hd
    simp [hd, Body.struct?_eq_some]
  · rename_i hnot
    simp only [reduceCtorEq, false_iff, not_exists, not_and]
    exact fun d hd => absurd hd (hnot d)

/-- The fields that a struct has gained in a table, with their defaults. -/
def gainedFields (t' : TypeTable) (name : String) (s : StructBody) : Fields :=
  match t'.struct? name with
  | some s' => (s.added s').map fun f => (f.name, t'.absent f)
  | none => []

/-- The upgrade of a value of a type, given those of the types that it refers to. -/
def upgradeLayer (t t' : TypeTable) (child : String → Value → Value) (name : String) (w : Value) :
    Value :=
  match t.resolve? name with
  | some (.declared d) =>
    match d.body with
    | .alias target => child target w
    | .struct s => w.amend (upgradeField child s) (t'.gainedFields name s)
    | .array element => w.mapItems (child element)
    | .versioned entries =>
      match Codec.latestEntry d.fqn entries with
      | .ok e => child e.typeName w
      | .error _ => w
    | .enum _ | .external _ => w
  | _ => w

section Layer

variable {child : String → Value → Value} {name : String}

theorem upgradeLayer_primitive {p : Primitive} (h : t.resolve? name = some (.primitive p)) :
    t.upgradeLayer t' child name = id := by
  funext w
  delta upgradeLayer
  simp only [h, id]

variable {d : Declaration} (hd : t.resolve? name = some (.declared d))

include hd

theorem upgradeLayer_alias {target : String} (h : d.body = .alias target) :
    t.upgradeLayer t' child name = child target := by
  funext w
  delta upgradeLayer
  simp only [hd, h]

theorem upgradeLayer_enum {e : EnumBody} (h : d.body = .enum e) :
    t.upgradeLayer t' child name = id := by
  funext w
  delta upgradeLayer
  simp only [hd, h, id]

theorem upgradeLayer_struct {s : StructBody} (h : d.body = .struct s) :
    t.upgradeLayer t' child name =
      Value.amend (upgradeField child s) (t'.gainedFields name s) := by
  funext w
  delta upgradeLayer
  simp only [hd, h]

theorem upgradeLayer_array {element : String} (h : d.body = .array element) :
    t.upgradeLayer t' child name = Value.mapItems (child element) := by
  funext w
  delta upgradeLayer
  simp only [hd, h]

theorem upgradeLayer_versioned {entries : List VersionEntry} (h : d.body = .versioned entries)
    {e : VersionEntry} (he : Codec.latestEntry d.fqn entries = .ok e) :
    t.upgradeLayer t' child name = child e.typeName := by
  funext w
  delta upgradeLayer
  simp only [hd, h, he]

end Layer

/-- A value of a type as a table that extends this one reads it: each struct has the fields that it
has gained, with their defaults. -/
def upgrade (t t' : TypeTable) : String → Value → Value :=
  t.unrolled (t.upgradeLayer t') fun _ w => w

theorem descends_upgradeLayer (t t' : TypeTable) : t.Descends (t.upgradeLayer t') := by
  intro f g name v hneed hrest
  cases hr : t.resolve? name with
  | none => simp only [upgradeLayer, hr]
  | some target =>
    cases target with
    | primitive p => rw [upgradeLayer_primitive hr, upgradeLayer_primitive hr]
    | declared d =>
      cases hb : d.body with
      | «alias» target =>
        rw [upgradeLayer_alias hr hb, upgradeLayer_alias hr hb]
        exact hneed d target hr (by simp [Declaration.needs, hb])
      | enum e => rw [upgradeLayer_enum hr hb, upgradeLayer_enum hr hb]
      | struct s =>
        rw [upgradeLayer_struct hr hb, upgradeLayer_struct hr hb]
        refine Value.amend_congr fun fields hv p hp => ?_
        unfold upgradeField
        split
        · rename_i field hfind
          refine Value.mapPart_congr fun u hu => ?_
          refine hrest d _ u hr
            (Declaration.mem_refNames_of_field hb (List.mem_of_find?_eq_some hfind)) ?_
          rw [hv, Value.depth]
          exact Nat.lt_succ_of_le (Nat.le_trans hu (Value.depth_le_depthFields hp))
        · rfl
      | array element =>
        rw [upgradeLayer_array hr hb, upgradeLayer_array hr hb]
        refine Value.mapItems_congr fun items hv u hu => ?_
        refine hrest d element u hr (Declaration.mem_refNames_array hb) ?_
        rw [hv, Value.depth]
        exact Nat.lt_succ_of_le (Value.depth_le_depthItems hu)
      | versioned entries =>
        cases he : Codec.latestEntry d.fqn entries with
        | error e => simp only [upgradeLayer, hr, hb, he]
        | ok e =>
          rw [upgradeLayer_versioned hr hb he, upgradeLayer_versioned hr hb he]
          refine hneed d e.typeName hr ?_
          rw [Declaration.needs, hb]
          exact List.mem_map.mpr ⟨e, Codec.latestEntry_mem he, rfl⟩
      | external symbol => simp only [upgradeLayer, hr, hb]

theorem upgrade_eq (hfin : t.Finite) (t' : TypeTable) (name : String) :
    t.upgrade t' name = t.upgradeLayer t' (t.upgrade t') name := by
  funext w
  exact unrolled_eq hfin (t.descends_upgradeLayer t') name w

/-! ## What stays -/

/-- Nothing is added to a value that holds no others. -/
theorem upgrade_atom (t t' : TypeTable) (name : String) {w : Value} (hw : w.IsAtom) :
    t.upgrade t' name w = w := by
  have hwithin (n : Nat) (name : String) :
      unrolledWithin (t.upgradeLayer t') (fun _ w => w) n name w = w := by
    induction n generalizing name with
    | zero => rfl
    | succ n ih =>
      rw [unrolledWithin, upgradeLayer]
      split
      · split
        · exact ih _
        · exact Value.amend_atom _ _ hw
        · exact Value.mapItems_atom _ hw
        · split
          · exact ih _
          · rfl
        · rfl
        · rfl
      · rfl
  exact hwithin _ name

theorem isAtom_defaultValue (p : Primitive) : p.defaultValue.IsAtom := by
  unfold Primitive.defaultValue
  split <;> trivial

theorem isAtom_absent (t : TypeTable) (f : Field) : (t.absent f).IsAtom := by
  unfold absent defaultValue
  split
  · trivial
  · split
    · exact isAtom_defaultValue _
    · trivial

/-- With distinct names a field is found by its name. -/
theorem upgradeField_eq {s : StructBody} (hs : s.Distinct) {f : Field} (hf : f ∈ s.fields)
    (child : String → Value → Value) :
    upgradeField child s f.name = Value.mapPart f.array (child f.typeName) := by
  funext u
  rw [upgradeField, find?_of_nodup hs hf]

/-- A field that is left to its flag or to its default stays as it is. -/
theorem upgradeField_heldValue {s : StructBody} (hs : s.Distinct) {f : Field} (hf : f ∈ s.fields)
    (flags flag : Nat) (w : Option Value) :
    upgradeField (t.upgrade t') s f.name (RecordLayout.heldValue flags (t.fieldStep f flag) w) =
      RecordLayout.heldValue flags (t.fieldStep f flag)
        (w.map (upgradeField (t.upgrade t') s f.name)) := by
  rw [upgradeField_eq hs hf]
  have hatom {u : Value} (hu : u.IsAtom) :
      u.mapPart f.array (t.upgrade t' f.typeName) = u :=
    Value.mapPart_atom hu (upgrade_atom t t' f.typeName hu)
  unfold RecordLayout.heldValue
  split
  · exact hatom trivial
  · cases w with
    | none => exact hatom (t.isAtom_absent f)
    | some u => rfl

end TypeTable

end WireSchema
