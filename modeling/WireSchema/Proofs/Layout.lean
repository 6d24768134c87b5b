import WireSchema.Proofs.Codec.ReadBack
import WireSchema.Proofs.Extension
import WireSchema.Proofs.TypeCodec

/-!
# Layouts of sound tables

A table that was built is well formed, its names resolve, its types are finite and no required field
ends in bool (`TypeTable.Sound`).  The layout of a struct of such a table can be read back
(`layout_sound`).
-/

namespace WireSchema

namespace StructBody

/-- No two fields share a name. -/
def Distinct (s : StructBody) : Prop := (s.fields.map (·.name)).Nodup

instance (s : StructBody) : Decidable s.Distinct :=
  inferInstanceAs (Decidable (s.fields.map (·.name)).Nodup)

theorem map_fst_assignFlags (bit : Nat) (fields : List Field) :
    (assignFlags bit fields).map Prod.fst = fields := by
  induction fields generalizing bit with
  | nil => rfl
  | cons f rest ih =>
    unfold assignFlags
    split <;> simp [ih]

end StructBody

namespace TypeTable

theorem checkLinked_eq_ok_iff {t : TypeTable} :
    t.checkLinked = .ok () ↔ ∀ d ∈ t, ∀ r ∈ d.references, (t.resolve? r.1).isSome = true := by
  unfold checkLinked
  split
  · rename_i name place hfind
    refine ⟨nofun, fun hall => ?_⟩
    obtain ⟨d, hd, hr⟩ := List.mem_flatMap.mp (List.mem_of_find?_eq_some hfind)
    have hmissing : t.resolve? name = none := by simpa using List.find?_some hfind
    have hfound := hall d hd _ hr
    rw [hmissing] at hfound
    cases hfound
  · rename_i hfind
    refine ⟨fun _ d hd r hr => ?_, fun _ => rfl⟩
    have hfound := List.find?_eq_none.mp hfind r (List.mem_flatMap.mpr ⟨d, hd, hr⟩)
    simpa [Option.isSome_iff_ne_none] using hfound

theorem checkRequiredBools_eq_ok_iff {t : TypeTable} :
    t.checkRequiredBools = .ok () ↔ ∀ d ∈ t, ∀ s, d.body = .struct s → ∀ f ∈ s.fields,
      f.required = true → f.array = false → t.isBool f.typeName = false := by
  unfold checkRequiredBools
  dsimp only
  split
  · rename_i hhead
    refine ⟨nofun, fun hall => ?_⟩
    obtain ⟨d, hd, hfault⟩ := List.mem_flatMap.mp (List.mem_of_head? hhead)
    split at hfault
    · rename_i s hs
      obtain ⟨f, hf, -⟩ := List.mem_map.mp hfault
      simp only [List.mem_filter, Bool.and_eq_true, Bool.not_eq_true'] at hf
      have hbool := hall d hd s hs f hf.1 hf.2.1.1 hf.2.1.2
      rw [hf.2.2] at hbool
      cases hbool
    · cases hfault
  · rename_i hhead
    refine ⟨fun _ d hd s hs f hf hr ha => ?_, fun _ => rfl⟩
    rw [List.head?_eq_none_iff, List.flatMap_eq_nil_iff] at hhead
    have hnone := hhead d hd
    simp only [hs, List.map_eq_nil_iff, List.filter_eq_nil_iff] at hnone
    simpa [hr, ha] using hnone f hf

/-- What building a table makes sure of. -/
structure Sound (t : TypeTable) : Prop where
  wellFormed : t.WellFormed
  linked : t.checkLinked = .ok ()
  finite : t.Finite
  bools : t.checkRequiredBools = .ok ()

theorem Sound.struct {t : TypeTable} (h : t.Sound) {d : Declaration} (hd : d ∈ t) {s : StructBody}
    (hs : d.body = .struct s) : s.WellFormed := by
  have hwf := h.wellFormed.bodies d hd
  rw [hs] at hwf
  exact hwf

theorem Sound.ascending {t : TypeTable} (h : t.Sound) {d : Declaration} (hd : d ∈ t)
    {entries : List VersionEntry} (he : d.body = .versioned entries) : Codec.Ascending entries := by
  have hwf := h.wellFormed.bodies d hd
  rw [he] at hwf
  exact hwf.2

theorem mem_of_resolve? {t : TypeTable} {name : String} {d : Declaration}
    (h : t.resolve? name = some (.declared d)) : d ∈ t ∧ d.fqn = name := by
  unfold resolve? at h
  split at h
  · cases h
  · obtain ⟨d', hd', ⟨⟩⟩ := Option.map_eq_some_iff.mp h
    exact mem_of_declaration? hd'

/-- A required field of a sound table does not end in bool. -/
theorem Sound.not_isBool {t : TypeTable} (h : t.Sound) {d : Declaration} (hd : d ∈ t)
    {s : StructBody} (hs : d.body = .struct s) {f : Field} (hf : f ∈ s.fields)
    (hr : f.required = true) (ha : f.array = false) : t.isBool f.typeName = false :=
  checkRequiredBools_eq_ok_iff.mp h.bools d hd s hs f hf hr ha

theorem bits_steps (t : TypeTable) (bit : Nat) (fields : List Field) :
    RecordLayout.Bits bit
      ((StructBody.assignFlags bit fields).map fun p => t.fieldStep p.1 p.2) := by
  induction fields generalizing bit with
  | nil => trivial
  | cons f rest ih =>
    unfold StructBody.assignFlags
    cases hr : f.required with
    | true => simpa [RecordLayout.Bits, fieldStep, hr] using ih bit
    | false =>
      simp only [Bool.false_eq_true, if_false, List.map_cons, RecordLayout.Bits, fieldStep, hr,
        Bool.not_false, if_true]
      exact ⟨Nat.one_shiftLeft bit, ih (bit + 1)⟩

theorem layout_steps (t : TypeTable) (fqn : String) (s : StructBody) :
    (t.layout fqn s).steps =
      (StructBody.assignFlags 0 s.fields).map fun p => t.fieldStep p.1 p.2 := rfl

/-- The step at an index is that of the field at the index. -/
theorem getElem?_steps {t : TypeTable} {fqn : String} {s : StructBody} {i : Nat} {step : FieldStep}
    (h : (t.layout fqn s).steps[i]? = some step) :
    ∃ f flag, s.fields[i]? = some f ∧ step = t.fieldStep f flag := by
  rw [layout_steps, List.getElem?_map] at h
  obtain ⟨p, hp, rfl⟩ := Option.map_eq_some_iff.mp h
  refine ⟨p.1, p.2, ?_, rfl⟩
  rw [← StructBody.map_fst_assignFlags 0 s.fields, List.getElem?_map, hp]
  rfl

/-- What a step tells of its field alone is told by the field. -/
theorem map_steps {α : Type} (t : TypeTable) (fqn : String) (s : StructBody) (g : FieldStep → α)
    (g' : Field → α) (h : ∀ f flag, g (t.fieldStep f flag) = g' f) :
    (t.layout fqn s).steps.map g = s.fields.map g' := by
  rw [layout_steps, List.map_map]
  conv_rhs => rw [← StructBody.map_fst_assignFlags 0 s.fields, List.map_map]
  exact List.map_congr_left fun p _ => h p.1 p.2

/-- A struct of a sound table has at most 64 optional fields. -/
theorem few_steps {t : TypeTable} (h : t.Sound) {d : Declaration} (hd : d ∈ t) {s : StructBody}
    (hs : d.body = .struct s) : (t.layout d.fqn s).steps.countP (·.optional) ≤ 64 := by
  have hfew := (h.struct hd hs).few
  have hsteps := map_steps t d.fqn s (·.optional) (fun f => !f.shape.required) fun _ _ => rfl
  have hcount := congrArg (List.countP id) hsteps
  rw [List.countP_map, List.countP_map] at hcount
  rw [StructBody.shapes, List.countP_map] at hfew
  exact Nat.le_trans (Nat.le_of_eq hcount) hfew

/-- In a struct of a sound table the flags stand before all that depends on them. -/
theorem layout_announced {t : TypeTable} (h : t.Sound) {d : Declaration} (hd : d ∈ t)
    {s : StructBody} (hs : d.body = .struct s) (flags : Nat) :
    (t.layout d.fqn s).Announced 0 (t.layout d.fqn s).steps flags 0 where
  placed := by
    intro i step hi ho
    obtain ⟨f, flag, hf, rfl⟩ := getElem?_steps hi
    have hopt : f.required = false := by simpa [fieldStep] using ho
    rw [Nat.zero_add]
    refine (h.struct hd hs).behind i f.shape ?_ hopt
    rw [StructBody.shapes, List.getElem?_map, hf]
    rfl
  written := by
    intro step hmem ho
    obtain ⟨f, hf, flag, rfl⟩ := mem_steps hmem
    have hr : f.required = true := by simpa [fieldStep] using ho
    cases ha : f.array with
    | true => simp [fieldStep, ha]
    | false => simp [fieldStep, h.not_isBool hd hs hf hr ha]
  known p _ hp := absurd hp (Nat.not_lt_zero p)

/-- The layout of a struct of a sound table can be read back. -/
theorem layout_sound {t : TypeTable} (h : t.Sound) {d : Declaration} (hd : d ∈ t) {s : StructBody}
    (hs : d.body = .struct s) (hdistinct : s.Distinct) : (t.layout d.fqn s).Sound where
  bits := bits_steps t 0 s.fields
  few := few_steps h hd hs
  placed := by
    have hplaced := (layout_announced h hd hs 0).placed
    simpa only [Nat.zero_add] using hplaced
  written := (layout_announced h hd hs 0).written
  distinct := by
    rw [map_steps t d.fqn s (·.name) (·.name) fun _ _ => rfl]
    exact hdistinct

end TypeTable

end WireSchema
