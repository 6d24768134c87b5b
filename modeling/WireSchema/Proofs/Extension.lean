import WireSchema.Proofs.Codec.Tagged
import WireSchema.TypeTable.Basic

/-!
# Extensions of declarations

A well-formed declaration has its flags before its optional fields and ascending tags
(`Body.WellFormed`).  One declaration extends another (`Body.Extends`) when nothing that was
declared is changed and what is added stands at the end; a table extends another when it begins with
its declarations, each extended (`TypeTable.Extends`).  Versions play no part in either.
-/

namespace WireSchema

/-! ## Shapes -/

/-- What of a field is seen on the wire: all but its version. -/
structure FieldShape where
  name : String
  typeName : String
  required : Bool
  array : Bool
  deriving DecidableEq

def Field.shape (f : Field) : FieldShape := ⟨f.name, f.typeName, f.required, f.array⟩

def FieldDescription.shape (f : FieldDescription) : FieldShape :=
  ⟨f.name, f.typeName, f.required, f.array⟩

namespace StructBody

/-- The shapes of the fields, in order. -/
def shapes (s : StructBody) : List FieldShape := s.fields.map Field.shape

theorem length_shapes (s : StructBody) : s.shapes.length = s.fields.length := List.length_map _

/-- The flags hold a bit for every optional field and stand before all of them, and no field is a
required bool. -/
structure WellFormed (s : StructBody) : Prop where
  few : (s.shapes.countP fun f => !f.required) ≤ 64
  behind : ∀ i f, s.shapes[i]? = some f → f.required = false → ∃ p ≤ i, s.flagsPosition = some p
  inside : ∀ p, s.flagsPosition = some p → p ≤ s.shapes.length
  relaxed : ∀ f ∈ s.shapes, f.required = true → f.array = false → f.typeName ≠ "bool"

theorem WellFormed.of_shapes {s s' : StructBody} (h : s.WellFormed) (hs : s'.shapes = s.shapes)
    (hp : s'.flagsPosition = s.flagsPosition) : s'.WellFormed where
  few := hs ▸ h.few
  behind := by
    rw [hs, hp]
    exact h.behind
  inside := by
    rw [hs, hp]
    exact h.inside
  relaxed := hs ▸ h.relaxed

/-- A struct that keeps every field of an earlier one in its place, and the flags where they
stood.  Flags that are gained stand behind the earlier fields. -/
structure Extends (s s' : StructBody) : Prop where
  compact : s'.compact = s.compact
  fields : s.shapes <+: s'.shapes
  frozen : s.compact = true → s'.shapes = s.shapes
  kept : ∀ p, s.flagsPosition = some p → s'.flagsPosition = some p
  gained : ∀ p, s.flagsPosition = none → s'.flagsPosition = some p → s.shapes.length ≤ p

theorem Extends.refl (s : StructBody) : s.Extends s where
  compact := rfl
  fields := List.prefix_rfl
  frozen _ := rfl
  kept _ h := h
  gained p h h' := by rw [h] at h'; cases h'

theorem Extends.trans {s s' s'' : StructBody} (h : s.Extends s') (h' : s'.Extends s'') :
    s.Extends s'' where
  compact := h'.compact.trans h.compact
  fields := h.fields.trans h'.fields
  frozen hc := (h'.frozen (h.compact.trans hc)).trans (h.frozen hc)
  kept p hp := h'.kept p (h.kept p hp)
  gained p hp hp'' := by
    cases hq : s'.flagsPosition with
    | none => exact Nat.le_trans h.fields.length_le (h'.gained p hq hp'')
    | some q =>
      have hq'' := h'.kept q hq
      rw [hp''] at hq''
      cases hq''
      exact h.gained p hp hq

end StructBody

namespace Body

/-- What admission makes sure of, kind by kind. -/
def WellFormed : Body → Prop
  | .struct s => s.WellFormed
  | .versioned entries => entries ≠ [] ∧ Codec.Ascending entries
  | _ => True

/-- A body that keeps all of an earlier one. -/
inductive Extends : Body → Body → Prop
  | target (target : String) : Extends (.alias target) (.alias target)
  | element (element : String) : Extends (.array element) (.array element)
  | symbol (symbol : String) : Extends (.external symbol) (.external symbol)
  | enum {e e' : EnumBody} (offset : e'.offset = e.offset) (strings : e'.strings = e.strings)
      (keys : e.keys <+: e'.keys) : Extends (.enum e) (.enum e')
  | struct {s s' : StructBody} (h : s.Extends s') : Extends (.struct s) (.struct s')
  | versioned {entries entries' : List VersionEntry} (h : entries <+: entries') :
      Extends (.versioned entries) (.versioned entries')

theorem Extends.refl (body : Body) : body.Extends body :=
  match body with
  | .alias t => .target t
  | .enum _ => .enum rfl rfl List.prefix_rfl
  | .struct s => .struct (.refl s)
  | .array e => .element e
  | .versioned _ => .versioned List.prefix_rfl
  | .external x => .symbol x

theorem Extends.trans {a b c : Body} (h : a.Extends b) (h' : b.Extends c) : a.Extends c := by
  cases h with
  | target | element | symbol => exact h'
  | enum offset strings keys =>
    cases h' with
    | enum offset' strings' keys' =>
      exact .enum (offset'.trans offset) (strings'.trans strings) (keys.trans keys')
  | struct h =>
    cases h' with
    | struct h' => exact .struct (h.trans h')
  | versioned h =>
    cases h' with
    | versioned h' => exact .versioned (h.trans h')

theorem Extends.of_alias {target : String} {body : Body} (h : (Body.alias target).Extends body) :
    body = .alias target := by
  cases h
  rfl

theorem Extends.of_array {element : String} {body : Body} (h : (Body.array element).Extends body) :
    body = .array element := by
  cases h
  rfl

theorem Extends.of_enum {e : EnumBody} {body : Body} (h : (Body.enum e).Extends body) :
    ∃ e', body = .enum e' ∧ e'.offset = e.offset ∧ e'.strings = e.strings ∧
      e.keys <+: e'.keys := by
  cases h with
  | enum offset strings keys => exact ⟨_, rfl, offset, strings, keys⟩

theorem Extends.of_struct {s : StructBody} {body : Body} (h : (Body.struct s).Extends body) :
    ∃ s', body = .struct s' ∧ s.Extends s' := by
  cases h with
  | struct h => exact ⟨_, rfl, h⟩

theorem Extends.of_versioned {entries : List VersionEntry} {body : Body}
    (h : (Body.versioned entries).Extends body) :
    ∃ more, body = .versioned (entries ++ more) := by
  cases h with
  | versioned h =>
    obtain ⟨more, rfl⟩ := h
    exact ⟨more, rfl⟩

theorem struct?_eq_some {body : Body} {s : StructBody} :
    body.struct? = some s ↔ body = .struct s := by
  cases body <;> simp [struct?]

theorem Extends.kind_eq {a b : Body} (h : a.Extends b) : b.kind = a.kind := by
  cases h <;> rfl

end Body

/-- A declaration of the same name that keeps all of an earlier one. -/
structure Declaration.Extends (d d' : Declaration) : Prop where
  fqn : d'.fqn = d.fqn
  body : d.body.Extends d'.body

theorem Declaration.Extends.refl (d : Declaration) : d.Extends d := ⟨rfl, .refl d.body⟩

theorem Declaration.Extends.trans {d d' d'' : Declaration} (h : d.Extends d')
    (h' : d'.Extends d'') : d.Extends d'' := ⟨h'.fqn.trans h.fqn, h.body.trans h'.body⟩

/-! ## Tables -/

namespace TypeTable

/-- The names are distinct and every declaration is well formed. -/
structure WellFormed (t : TypeTable) : Prop where
  unique : (t.map (·.fqn)).Nodup
  bodies : ∀ d ∈ t, d.body.WellFormed

/-- A table that begins with all declarations of an earlier one, each extended. -/
def Extends (t t' : TypeTable) : Prop :=
  ∀ (i : Nat) (d : Declaration), t[i]? = some d → ∃ d', t'[i]? = some d' ∧ d.Extends d'

theorem Extends.refl (t : TypeTable) : t.Extends t := fun _ d hd => ⟨d, hd, .refl d⟩

theorem Extends.trans {t t' t'' : TypeTable} (h : t.Extends t') (h' : t'.Extends t'') :
    t.Extends t'' := by
  intro i d hd
  obtain ⟨d', hd', hext⟩ := h i d hd
  obtain ⟨d'', hd'', hext'⟩ := h' i d' hd'
  exact ⟨d'', hd'', hext.trans hext'⟩

theorem Extends.names_isPrefix {t t' : TypeTable} (h : t.Extends t') :
    t.map (·.fqn) <+: t'.map (·.fqn) := by
  rw [List.prefix_iff_getElem?]
  intro i hi
  rw [List.length_map] at hi
  obtain ⟨d', hd', hext⟩ := h i t[i] (List.getElem?_eq_getElem hi)
  rw [List.getElem?_map, hd', List.getElem_map, Option.map_some, hext.fqn]

theorem declaration?_eq_none_iff {t : TypeTable} {fqn : String} :
    t.declaration? fqn = none ↔ fqn ∉ t.map (·.fqn) := by
  simp [declaration?]

/-- With distinct names a declaration is found by its name. -/
theorem WellFormed.declaration?_of_mem {t : TypeTable} (h : t.WellFormed) {d : Declaration}
    (hd : d ∈ t) : t.declaration? d.fqn = some d :=
  find?_of_nodup h.unique hd

/-- What was declared is still declared, and extended. -/
theorem Extends.declaration? {t t' : TypeTable} (h : t.Extends t') (ht' : t'.WellFormed)
    {fqn : String} {d : Declaration} (hd : t.declaration? fqn = some d) :
    ∃ d', t'.declaration? fqn = some d' ∧ d.Extends d' := by
  obtain ⟨hmem, rfl⟩ := mem_of_declaration? hd
  obtain ⟨i, hi⟩ := List.getElem?_of_mem hmem
  obtain ⟨d', hd', hext⟩ := h i d hi
  refine ⟨d', ?_, hext⟩
  rw [← hext.fqn]
  exact ht'.declaration?_of_mem (List.mem_of_getElem? hd')

theorem resolve?_eq_declared {t : TypeTable} {name : String} {d : Declaration} :
    t.resolve? name = some (.declared d) ↔
      Primitive.ofName? name = none ∧ t.declaration? name = some d := by
  unfold resolve?
  cases Primitive.ofName? name <;> simp

theorem resolve?_eq_primitive {t : TypeTable} {name : String} {p : Primitive} :
    t.resolve? name = some (.primitive p) ↔ Primitive.ofName? name = some p := by
  unfold resolve?
  cases Primitive.ofName? name <;> simp

/-- A declared type is still declared, and extended. -/
theorem Extends.resolve? {t t' : TypeTable} (h : t.Extends t') (ht' : t'.WellFormed)
    {name : String} {d : Declaration} (hd : t.resolve? name = some (.declared d)) :
    ∃ d', t'.resolve? name = some (.declared d') ∧ d.Extends d' := by
  obtain ⟨hname, hd⟩ := resolve?_eq_declared.mp hd
  obtain ⟨d', hd', hext⟩ := h.declaration? ht' hd
  exact ⟨d', resolve?_eq_declared.mpr ⟨hname, hd'⟩, hext⟩

end TypeTable

end WireSchema
