import WireSchema.Proofs.Codec.Recall
import WireSchema.Proofs.Upgrade

/-!
# Values of an earlier table

What a table knows of a value that a table with further fields has read: the value without the
fields that it does not have, at every depth (`TypeTable.restrict`).  Keys that it does not have
cannot be left out, so it must know those that stand where it looks (`TypeTable.recognizes`).  Both
follow the declaration of the type, and both can be computed.
-/

namespace WireSchema

namespace Value

/-- A test of the value of a field, or of each of its items. -/
def allParts (array : Bool) (p : Value → Bool) (v : Value) : Bool :=
  if array then
    match v with
    | .array items => items.all p
    | _ => true
  else p v

theorem allParts_congr {array : Bool} {p p' : Value → Bool} {v : Value}
    (h : ∀ u, v.Part array u → p u = p' u) : v.allParts array p = v.allParts array p' := by
  cases array with
  | false => exact h v rfl
  | true =>
    cases v with
    | array items =>
      have hall : ∀ u ∈ items, p u = p' u := fun u hu => h u (.of_item rfl hu)
      simp only [allParts, if_true]
      rw [Bool.eq_iff_iff, List.all_eq_true, List.all_eq_true]
      exact forall₂_congr fun u hu => by rw [hall u hu]
    | _ => rfl

theorem keep_atom (names : List String) (g : String → Value → Value) {v : Value} (h : v.IsAtom) :
    v.keep names g = v := by
  cases v <;> first | rfl | cases h

theorem keep_congr {names : List String} {g g' : String → Value → Value} {v : Value}
    (h : ∀ fields, v = .struct fields → ∀ p ∈ fields, g p.1 p.2 = g' p.1 p.2) :
    v.keep names g = v.keep names g' := by
  cases v with
  | struct fields =>
    rw [keep, keep, Fields.keep, Fields.keep]
    refine congrArg Value.struct (List.map_congr_left fun p hp => ?_)
    rw [h fields rfl p (List.mem_of_mem_filter hp)]
  | _ => rfl

end Value

namespace TypeTable

variable {t : TypeTable}

/-! ## Fields that are known -/

/-- What a table knows of a value of a type, given what it knows of the types that it refers to. -/
def restrictLayer (t : TypeTable) (child : String → Value → Value) (name : String) (w : Value) :
    Value :=
  match t.resolve? name with
  | some (.declared d) =>
    match d.body with
    | .alias target => child target w
    | .struct s => w.keep (s.fields.map (·.name)) (upgradeField child s)
    | .array element => w.mapItems (child element)
    | .enum _ | .versioned _ | .external _ => w
  | _ => w

/-- A value of a type without the fields that the table does not have, at every depth. -/
def restrict (t : TypeTable) : String → Value → Value :=
  t.unrolled t.restrictLayer fun _ w => w

/-! ## Keys that are known -/

/-- Whether a table knows the keys in a value of a type, given whether it knows those of the types
that it refers to. -/
def recognizesLayer (t : TypeTable) (child : String → Value → Bool) (name : String) (w : Value) :
    Bool :=
  match t.resolve? name with
  | some (.declared d) =>
    match d.body, w with
    | .alias target, w => child target w
    | .enum e, .string key => e.keys.contains key
    | .struct s, .struct fields =>
      s.fields.all fun f => (Fields.get fields f.name).allParts f.array (child f.typeName)
    | .array element, w => w.allParts true (child element)
    | _, _ => true
  | _ => true

/-- Whether every key of an enum, where the table looks for one in a value of a type, is one that it
has. -/
def recognizes (t : TypeTable) : String → Value → Bool :=
  t.unrolled t.recognizesLayer fun _ _ => true

section Layer

variable {child : String → Value → Value} {test : String → Value → Bool} {name : String}

theorem restrictLayer_primitive {p : Primitive} (h : t.resolve? name = some (.primitive p)) :
    t.restrictLayer child name = id := by
  funext w
  delta restrictLayer
  simp only [h, id]

variable {d : Declaration} (hd : t.resolve? name = some (.declared d))

include hd

theorem restrictLayer_alias {target : String} (h : d.body = .alias target) :
    t.restrictLayer child name = child target := by
  funext w
  delta restrictLayer
  simp only [hd, h]

theorem restrictLayer_enum {e : EnumBody} (h : d.body = .enum e) :
    t.restrictLayer child name = id := by
  funext w
  delta restrictLayer
  simp only [hd, h, id]

theorem restrictLayer_struct {s : StructBody} (h : d.body = .struct s) :
    t.restrictLayer child name =
      Value.keep (s.fields.map (·.name)) (upgradeField child s) := by
  funext w
  delta restrictLayer
  simp only [hd, h]

theorem restrictLayer_array {element : String} (h : d.body = .array element) :
    t.restrictLayer child name = Value.mapItems (child element) := by
  funext w
  delta restrictLayer
  simp only [hd, h]

theorem recognizesLayer_alias {target : String} (h : d.body = .alias target) (w : Value) :
    t.recognizesLayer test name w = test target w := by
  delta recognizesLayer
  simp only [hd, h]

theorem recognizesLayer_enum {e : EnumBody} (h : d.body = .enum e) (key : String) :
    t.recognizesLayer test name (.string key) = e.keys.contains key := by
  delta recognizesLayer
  simp only [hd, h]

theorem recognizesLayer_struct {s : StructBody} (h : d.body = .struct s) (fields : Fields) :
    t.recognizesLayer test name (.struct fields) =
      s.fields.all fun f => (fields.get f.name).allParts f.array (test f.typeName) := by
  delta recognizesLayer
  simp only [hd, h]

theorem recognizesLayer_array {element : String} (h : d.body = .array element) (w : Value) :
    t.recognizesLayer test name w = w.allParts true (test element) := by
  delta recognizesLayer
  simp only [hd, h]

end Layer

theorem descends_restrictLayer (t : TypeTable) : t.Descends t.restrictLayer := by
  intro f g name v hneed hrest
  cases hr : t.resolve? name with
  | none => simp only [restrictLayer, hr]
  | some target =>
    cases target with
    | primitive p => rw [restrictLayer_primitive hr, restrictLayer_primitive hr]
    | declared d =>
      cases hb : d.body with
      | «alias» target =>
        rw [restrictLayer_alias hr hb, restrictLayer_alias hr hb]
        exact hneed d target hr (by simp [Declaration.needs, hb])
      | struct s =>
        rw [restrictLayer_struct hr hb, restrictLayer_struct hr hb]
        apply Value.keep_congr
        intro fields hv p hp
        unfold upgradeField
        split
        · rename_i field hfind
          apply Value.mapPart_congr
          intro u hu
          have href := Declaration.mem_refNames_of_field hb (List.mem_of_find?_eq_some hfind)
          refine hrest d _ u hr href ?_
          rw [hv, Value.depth]
          exact Nat.lt_succ_of_le (Nat.le_trans hu (Value.depth_le_depthFields hp))
        · rfl
      | array element =>
        rw [restrictLayer_array hr hb, restrictLayer_array hr hb]
        apply Value.mapItems_congr
        intro items hv u hu
        refine hrest d element u hr (Declaration.mem_refNames_array hb) ?_
        rw [hv, Value.depth]
        exact Nat.lt_succ_of_le (Value.depth_le_depthItems hu)
      | _ => simp only [restrictLayer, hr, hb]

theorem descends_recognizesLayer (t : TypeTable) : t.Descends t.recognizesLayer := by
  intro f g name v hneed hrest
  cases hr : t.resolve? name with
  | none => simp only [recognizesLayer, hr]
  | some target =>
    cases target with
    | primitive p => simp only [recognizesLayer, hr]
    | declared d =>
      cases hb : d.body with
      | «alias» target =>
        rw [recognizesLayer_alias hr hb, recognizesLayer_alias hr hb]
        exact hneed d target hr (by simp [Declaration.needs, hb])
      | struct s =>
        cases v with
        | struct fields =>
          have hparts : ∀ field ∈ s.fields,
              (Fields.get fields field.name).allParts field.array (f field.typeName) =
                (Fields.get fields field.name).allParts field.array (g field.typeName) := by
            intro field hfield
            apply Value.allParts_congr
            intro u hu
            refine hrest d _ u hr (Declaration.mem_refNames_of_field hb hfield) ?_
            exact Nat.lt_of_le_of_lt hu.depth_le (Value.depth_get_lt rfl field.name)
          rw [recognizesLayer_struct hr hb, recognizesLayer_struct hr hb, Bool.eq_iff_iff,
            List.all_eq_true, List.all_eq_true]
          exact forall₂_congr fun field hfield => by rw [hparts field hfield]
        | _ => simp only [recognizesLayer, hr, hb]
      | array element =>
        rw [recognizesLayer_array hr hb, recognizesLayer_array hr hb]
        apply Value.allParts_congr
        rintro u ⟨items, hv, hu⟩
        exact hrest d element u hr (Declaration.mem_refNames_array hb)
          (Value.depth_lt_of_toItems hv hu)
      | enum e => cases v <;> simp only [recognizesLayer, hr, hb]
      | _ => simp only [recognizesLayer, hr, hb]

theorem restrict_eq (hfin : t.Finite) (name : String) :
    t.restrict name = t.restrictLayer t.restrict name := by
  funext w
  exact unrolled_eq hfin t.descends_restrictLayer name w

theorem recognizes_eq (hfin : t.Finite) (name : String) :
    t.recognizes name = t.recognizesLayer t.recognizes name := by
  funext w
  exact unrolled_eq hfin t.descends_recognizesLayer name w

/-- Nothing is left out of a value that holds no others. -/
theorem restrict_atom (t : TypeTable) (name : String) {w : Value} (hw : w.IsAtom) :
    t.restrict name w = w := by
  have hwithin (n : Nat) (name : String) :
      unrolledWithin t.restrictLayer (fun _ w => w) n name w = w := by
    induction n generalizing name with
    | zero => rfl
    | succ n ih =>
      rw [unrolledWithin, restrictLayer]
      split
      · split
        · exact ih _
        · exact Value.keep_atom _ _ hw
        · exact Value.mapItems_atom _ hw
        · rfl
        · rfl
        · rfl
      · rfl
  exact hwithin _ name

/-- A field that holds no others is held as it is. -/
theorem restrictField_atom {s : StructBody} (hs : s.Distinct) {f : Field} (hf : f ∈ s.fields)
    {w : Value} (hw : w.IsAtom) : upgradeField t.restrict s f.name w = w := by
  rw [upgradeField_eq hs hf]
  exact Value.mapPart_atom hw (t.restrict_atom f.typeName hw)

end TypeTable

end WireSchema
