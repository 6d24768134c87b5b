import WireSchema.Proofs.Codec.Follow
import WireSchema.Proofs.Layout

/-!
# Layouts of extended tables

A table that extends another resolves the names of the other to the same kinds: aliases end in the
same types, the same types are framed and the same fields are left to their flags
(`fieldStep_extends`).  So the layout of a struct whose added fields are optional is the earlier
layout with further steps (`layout_grows`).
-/

namespace WireSchema

namespace TypeTable

variable {t t' : TypeTable}

/-! ## Names -/

/-- Every name that a declaration of a sound table refers to resolves. -/
theorem Sound.resolves (h : t.Sound) {name child : String} {d : Declaration}
    (hd : t.resolve? name = some (.declared d)) (hc : child ∈ d.refNames) :
    ∃ target, t.resolve? child = some target := by
  obtain ⟨r, hr, rfl⟩ := List.mem_map.mp hc
  exact Option.isSome_iff_exists.mp
    (checkLinked_eq_ok_iff.mp h.linked d (mem_of_resolve? hd).1 r hr)

theorem rank_pos {name : String} {d : Declaration} (hd : t.resolve? name = some (.declared d)) :
    0 < t.rank name := by
  obtain ⟨i, hi, -⟩ := exists_place? (resolve?_eq_declared.mp hd).2
  rw [rank, hi]
  exact Nat.succ_pos _

/-- A name that is not declared is no alias. -/
theorem unaliasWithin_undeclared {name : String} (h : t.rank name = 0) (n : Nat) :
    t.unaliasWithin n name = name := by
  cases n with
  | zero => rfl
  | succ n =>
    rw [unaliasWithin]
    split
    · rename_i d hd
      have := rank_pos hd
      omega
    · rfl

/-- Following as many aliases as the rank of a name allows is following all of them. -/
theorem unaliasWithin_eq (hfin : t.Finite) {name : String} {m n : Nat} (hm : t.rank name ≤ m)
    (hn : t.rank name ≤ n) : t.unaliasWithin m name = t.unaliasWithin n name := by
  induction m generalizing n name with
  | zero => rw [unaliasWithin_undeclared (by omega), unaliasWithin_undeclared (by omega)]
  | succ m ih =>
    cases n with
    | zero => rw [unaliasWithin_undeclared (by omega), unaliasWithin_undeclared (by omega)]
    | succ n =>
      rw [unaliasWithin, unaliasWithin]
      split
      · rename_i d hd
        cases hb : d.body with
        | «alias» target =>
          have hlt : t.rank target < t.rank name :=
            rank_lt hfin (resolve?_eq_declared.mp hd).2 (by simp [Declaration.needs, hb])
          exact ih (by omega) (by omega)
        | _ => rfl
      · rfl

theorem unalias_alias (hfin : t.Finite) {name target : String} {d : Declaration}
    (hd : t.resolve? name = some (.declared d)) (hb : d.body = .alias target) :
    t.unalias name = t.unalias target := by
  have hlt : t.rank target < t.rank name :=
    rank_lt hfin (resolve?_eq_declared.mp hd).2 (by simp [Declaration.needs, hb])
  have hle := rank_le hfin name
  obtain ⟨n, hn⟩ : ∃ n, t.length = n + 1 := ⟨t.length - 1, by omega⟩
  have hstep : t.unaliasWithin (n + 1) name = t.unaliasWithin n target := by
    rw [unaliasWithin, hd]
    simp only [hb]
  rw [unalias, unalias, hn, hstep]
  exact unaliasWithin_eq hfin (by omega) (by omega)

/-- A name that is no alias is its own end. -/
theorem unalias_self {name : String}
    (h : ∀ d target, t.resolve? name = some (.declared d) → d.body ≠ .alias target) :
    t.unalias name = name := by
  rw [unalias]
  cases t.length with
  | zero => rfl
  | succ n =>
    rw [unaliasWithin]
    split
    · rename_i d hd
      split
      · rename_i target hb
        exact absurd hb (h d target hd)
      · rfl
    · rfl

theorem resolve?_unaliasWithin (h : t.Sound) (n : Nat) {name : String}
    (hr : ∃ target, t.resolve? name = some target) :
    ∃ target, t.resolve? (t.unaliasWithin n name) = some target := by
  induction n generalizing name with
  | zero => exact hr
  | succ n ih =>
    rw [unaliasWithin]
    split
    · rename_i d hd
      cases hb : d.body with
      | «alias» target => exact ih (h.resolves hd (Declaration.mem_refNames_alias hb))
      | _ => exact hr
    · exact hr

section Extends

variable (h : t.Sound) (h' : t'.Sound) (hext : t.Extends t') {name : String}
  (hr : ∃ target, t.resolve? name = some target)

include h h' hext hr

theorem unaliasWithin_extends (n : Nat) : t'.unaliasWithin n name = t.unaliasWithin n name := by
  induction n generalizing name with
  | zero => rfl
  | succ n ih =>
    obtain ⟨target, hr⟩ := hr
    rw [unaliasWithin, unaliasWithin]
    cases target with
    | primitive p => rw [hr, resolve?_eq_primitive.mpr (resolve?_eq_primitive.mp hr)]
    | declared d =>
      obtain ⟨d', hr', -, hbody⟩ := hext.resolve? h'.wellFormed hr
      rw [hr, hr']
      dsimp only
      generalize hb : d.body = body, d'.body = body' at hbody ⊢
      cases hbody with
      | target => exact ih (h.resolves hr (Declaration.mem_refNames_alias hb))
      | _ => rfl

theorem unalias_extends : t'.unalias name = t.unalias name := by
  have hlen : t.length ≤ t'.length := by simpa using hext.names_isPrefix.length_le
  have hrank := rank_le h.finite name
  rw [unalias, unalias, unaliasWithin_extends h h' hext hr]
  exact unaliasWithin_eq h.finite (Nat.le_trans hrank hlen) hrank

/-- An alias ends in a type of the same kind. -/
theorem resolve?_unalias_extends :
    (∃ p, t.resolve? (t.unalias name) = some (.primitive p) ∧
      t'.resolve? (t'.unalias name) = some (.primitive p)) ∨
    ∃ d d', t.resolve? (t.unalias name) = some (.declared d) ∧
      t'.resolve? (t'.unalias name) = some (.declared d') ∧ d.Extends d' := by
  rw [unalias_extends h h' hext hr]
  obtain ⟨target, hend⟩ := resolve?_unaliasWithin h t.length hr
  rw [← unalias] at hend
  cases target with
  | primitive p => exact .inl ⟨p, hend, resolve?_eq_primitive.mpr (resolve?_eq_primitive.mp hend)⟩
  | declared d =>
    obtain ⟨d', hend', hd⟩ := hext.resolve? h'.wellFormed hend
    exact .inr ⟨d, d', hend, hend', hd⟩

theorem isBool_extends : t'.isBool name = t.isBool name := by
  rw [isBool, isBool, unalias_extends h h' hext hr]

theorem isFrameable_extends : t'.isFrameable name = t.isFrameable name := by
  unfold isFrameable
  rcases resolve?_unalias_extends h h' hext hr with ⟨p, hp, hp'⟩ | ⟨d, d', hd, hd', hdecl⟩
  · rw [hp, hp']
  · rw [hd, hd']
    dsimp only
    have hbody := hdecl.body
    generalize d.body = body, d'.body = body' at hbody ⊢
    cases hbody with
    | struct hs => exact congrArg (!·) hs.compact
    | _ => rfl

theorem defaultValue_extends : t'.defaultValue name = t.defaultValue name := by
  unfold defaultValue
  rcases resolve?_unalias_extends h h' hext hr with ⟨p, hp, hp'⟩ | ⟨d, d', hd, hd', -⟩
  · rw [hp, hp']
  · rw [hd, hd']

end Extends

/-- A field of the same shape is written the same. -/
theorem fieldStep_extends (h : t.Sound) (h' : t'.Sound) (hext : t.Extends t') {f f' : Field}
    (hf : f'.shape = f.shape) (hr : ∃ target, t.resolve? f.typeName = some target) (flag : Nat) :
    t'.fieldStep f' flag = t.fieldStep f flag := by
  obtain ⟨name, typeName, required, array, version⟩ := f
  obtain ⟨name', typeName', required', array', version'⟩ := f'
  cases hf
  simp only [fieldStep, isBool_extends h h' hext hr, isFrameable_extends h h' hext hr,
    defaultValue_extends h h' hext hr]

end TypeTable

/-! ## Layouts -/

namespace StructBody

/-- The fields that a struct has beyond those of an earlier one. -/
def added (s s' : StructBody) : List Field := s'.fields.drop s.fields.length

theorem assignFlags_append (bit : Nat) (xs ys : List Field) :
    ∃ bit', assignFlags bit (xs ++ ys) = assignFlags bit xs ++ assignFlags bit' ys := by
  induction xs generalizing bit with
  | nil => exact ⟨bit, rfl⟩
  | cons f xs ih =>
    rw [List.cons_append, assignFlags, assignFlags]
    split
    · obtain ⟨bit', h⟩ := ih bit
      exact ⟨bit', by rw [h, List.cons_append]⟩
    · obtain ⟨bit', h⟩ := ih (bit + 1)
      exact ⟨bit', by rw [h, List.cons_append]⟩

/-- An extended struct begins with fields of the shapes that there were. -/
theorem Extends.fields_eq {s s' : StructBody} (h : s.Extends s') :
    ∃ kept, s'.fields = kept ++ s.added s' ∧ kept.map Field.shape = s.shapes := by
  refine ⟨s'.fields.take s.fields.length, (List.take_append_drop _ _).symm, ?_⟩
  rw [List.map_take, ← s.length_shapes]
  exact (List.prefix_iff_eq_take.mp h.fields).symm

/-- Flags that are gained stand right behind the earlier fields when all added fields are
optional. -/
theorem Extends.position_eq {s s' : StructBody} (h : s.Extends s') (hwf : s'.WellFormed)
    (hopt : ∀ f ∈ s.added s', f.required = false) :
    s'.flagsPosition = s.flagsPosition ∨
      s.flagsPosition = none ∧ s'.flagsPosition = some s.fields.length := by
  cases hp : s.flagsPosition with
  | some p => exact .inl (h.kept p hp)
  | none =>
    cases hp' : s'.flagsPosition with
    | none => exact .inl rfl
    | some p =>
      have hge := h.gained p hp hp'
      rw [length_shapes] at hge
      have hle : p ≤ s.fields.length := by
        cases hadded : s.added s' with
        | nil =>
          have hlen : s'.fields.length ≤ s.fields.length := List.drop_eq_nil_iff.mp hadded
          have hin := hwf.inside p hp'
          rw [length_shapes] at hin
          omega
        | cons f rest =>
          have hget : s'.fields[s.fields.length]? = some f := by
            rw [← List.head?_drop]
            exact congrArg List.head? hadded
          obtain ⟨q, hq, hpos⟩ := hwf.behind s.fields.length f.shape
            (by rw [shapes, List.getElem?_map, hget]; rfl)
            (hopt f (hadded ▸ List.mem_cons_self))
          rw [hp'] at hpos
          cases hpos
          exact hq
      exact .inr ⟨rfl, by rw [Nat.le_antisymm hle hge]⟩

end StructBody

namespace TypeTable

variable {t t' : TypeTable}

/-- The value of a field that is not there. -/
def absent (t : TypeTable) (f : Field) : Value :=
  if f.array then .null else t.defaultValue f.typeName

/-- Fields of the same shapes have the same steps. -/
theorem map_assignFlags_extends (h : t.Sound) (h' : t'.Sound) (hext : t.Extends t')
    {fields fields' : List Field} (hshapes : fields'.map Field.shape = fields.map Field.shape)
    (hr : ∀ f ∈ fields, ∃ target, t.resolve? f.typeName = some target) (bit : Nat) :
    ((StructBody.assignFlags bit fields').map fun p => t'.fieldStep p.1 p.2) =
      (StructBody.assignFlags bit fields).map fun p => t.fieldStep p.1 p.2 := by
  induction fields generalizing fields' bit with
  | nil =>
    rw [List.map_nil, List.map_eq_nil_iff] at hshapes
    rw [hshapes]
    rfl
  | cons f fields ih =>
    obtain ⟨f', rest, rfl, hf, hrest⟩ := List.map_eq_cons_iff.mp hshapes
    have hreq : f'.required = f.required := congrArg FieldShape.required hf
    have htail := ih hrest fun x hx => hr x (List.mem_cons_of_mem _ hx)
    have hhead := fieldStep_extends h h' hext hf (hr f List.mem_cons_self)
    rw [StructBody.assignFlags, StructBody.assignFlags, hreq]
    split <;> rw [List.map_cons, List.map_cons, hhead, htail]

/-- A bool field that is not there is false. -/
theorem absent_of_isBool {f : Field} (ha : f.array = false) (hb : t.isBool f.typeName = true) :
    t.absent f = .bool false := by
  have hend : t.unalias f.typeName = Primitive.name .bool := by simpa [isBool] using hb
  have hbool : t.resolve? (Primitive.name .bool) = some (.primitive .bool) := by
    rw [resolve?_eq_primitive]
    decide
  rw [absent, ha, if_neg (by decide), defaultValue, hend, hbool]
  rfl

theorem length_steps (t : TypeTable) (fqn : String) (s : StructBody) :
    (t.layout fqn s).steps.length = s.fields.length := by
  rw [layout_steps, List.length_map, ← List.length_map Prod.fst, StructBody.map_fst_assignFlags]

/-- The steps of an extended struct are the earlier steps, and those of the fields that it has
gained. -/
theorem layout_steps_extends (h : t.Sound) (h' : t'.Sound) (hext : t.Extends t') {name : String}
    {d : Declaration} {s s' : StructBody} (hd : t.resolve? name = some (.declared d))
    (hb : d.body = .struct s) (hs : s.Extends s') (fqn fqn' : String) :
    ∃ bit, (t'.layout fqn' s').steps = (t.layout fqn s).steps ++
      (StructBody.assignFlags bit (s.added s')).map fun p => t'.fieldStep p.1 p.2 := by
  obtain ⟨kept, hfields, hshapes⟩ := hs.fields_eq
  obtain ⟨bit, hflags⟩ := StructBody.assignFlags_append 0 kept (s.added s')
  refine ⟨bit, ?_⟩
  rw [layout_steps, layout_steps, hfields, hflags, List.map_append,
    map_assignFlags_extends h h' hext hshapes fun f hf =>
      h.resolves hd (Declaration.mem_refNames_of_field hb hf)]

/-- The layout of an extended struct is the earlier layout with further steps. -/
theorem layout_grows (h : t.Sound) (h' : t'.Sound) (hext : t.Extends t') {name : String}
    {d d' : Declaration} {s s' : StructBody} (hd : t.resolve? name = some (.declared d))
    (hd' : t'.resolve? name = some (.declared d')) (hb : d.body = .struct s)
    (hb' : d'.body = .struct s') (hs : s.Extends s')
    (hopt : ∀ f ∈ s.added s', f.required = false) :
    ∃ extra, RecordLayout.Grows (t.layout d.fqn s) (t'.layout d'.fqn s') extra ∧
      (extra.map fun step => (step.name, step.default)) =
        (s.added s').map fun f => (f.name, t'.absent f) := by
  obtain ⟨bit, hsteps⟩ := layout_steps_extends h h' hext hd hb hs d.fqn d'.fqn
  have hlen := t.length_steps d.fqn s
  have hposition := hs.position_eq (h'.struct (mem_of_resolve? hd').1 hb') hopt
  refine ⟨_, ⟨hsteps, ?_, ?_, ?_, ?_⟩, ?_⟩
  · intro step hstep
    obtain ⟨p, hp, rfl⟩ := List.mem_map.mp hstep
    simpa [fieldStep] using hopt p.1 (mem_assignFlags hp)
  · intro step hstep honly
    obtain ⟨p, -, rfl⟩ := List.mem_map.mp hstep
    simp only [fieldStep, Bool.and_eq_true, Bool.not_eq_true'] at honly
    exact absent_of_isBool honly.1 honly.2
  · rw [hlen]
    exact hposition
  · intro p hp
    rw [hlen]
    rcases hposition with heq | ⟨-, hsome⟩
    · have hin := (h.struct (mem_of_resolve? hd).1 hb).inside p (heq.symm.trans hp)
      rwa [StructBody.length_shapes] at hin
    · exact Nat.le_of_eq (Option.some.inj (hp.symm.trans hsome))
  · rw [List.map_map]
    conv_rhs => rw [← StructBody.map_fst_assignFlags bit (s.added s'), List.map_map]
    rfl

end TypeTable

end WireSchema
