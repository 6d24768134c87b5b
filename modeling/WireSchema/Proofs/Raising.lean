import Mathlib.Logic.Function.Iterate
import WireSchema.Proofs.Built

/-!
# Raised versions

Versions are raised round by round.  A table is settled when a round leaves it as it is: every field
is at least as new as its type and every struct at least as new as its fields (`round_eq_self_iff`).

What a round raises past a version, the round before it had raised something else past that version
for (`Raises.of_round`).  So every round that still raises one declaration past a version finds one
declaration more that has reached it, and there are only so many declarations: the rounds that are
made are enough, and the table they end with is settled (`settled_of_raiseVersions`).
-/

namespace WireSchema

theorem toNat_max (a b : UInt32) : (max a b).toNat = max a.toNat b.toNat := by
  show (if a ≤ b then b else a).toNat = _
  split
  · rename_i hle
    rw [UInt32.le_iff_toNat_le] at hle
    omega
  · rename_i hlt
    rw [UInt32.le_iff_toNat_le] at hlt
    omega

theorem le_toNat_foldl_max {v : Nat} {versions : List UInt32} {a : UInt32} :
    v ≤ (versions.foldl max a).toNat ↔ v ≤ a.toNat ∨ ∃ x ∈ versions, v ≤ x.toNat := by
  induction versions generalizing a with
  | nil => simp
  | cons x rest ih =>
    rw [List.foldl_cons, ih, toNat_max, le_max_iff, or_assoc]
    simp

theorem foldl_max_eq_self {versions : List UInt32} {a : UInt32} (h : ∀ x ∈ versions, x ≤ a) :
    versions.foldl max a = a := by
  apply UInt32.toNat.inj
  apply Nat.le_antisymm
  · rcases le_toNat_foldl_max.mp (Nat.le_refl _) with hle | ⟨x, hx, hle⟩
    · exact hle
    · exact Nat.le_trans hle (UInt32.le_iff_toNat_le.mp (h x hx))
  · exact le_toNat_foldl_max.mpr (.inl (Nat.le_refl _))

theorem max_eq_left_iff {a b : UInt32} : max a b = a ↔ b ≤ a := by
  rw [← UInt32.toNat_inj, toNat_max, UInt32.le_iff_toNat_le]
  omega

theorem countP_lt_countP {α : Type} {p q : α → Bool} {l : List α} {x : α}
    (h : ∀ y ∈ l, p y = true → q y = true) (hx : x ∈ l) (hp : p x = false) (hq : q x = true) :
    l.countP p < l.countP q := by
  obtain ⟨before, after, rfl⟩ := List.append_of_mem hx
  have hbefore : before.countP p ≤ before.countP q :=
    List.countP_mono_left fun y hy => h y (by simp [hy])
  have hafter : after.countP p ≤ after.countP q :=
    List.countP_mono_left fun y hy => h y (by simp [hy])
  rw [List.countP_append, List.countP_append, List.countP_cons_of_pos hq,
    List.countP_cons_of_neg (by simp [hp])]
  omega

/-- The type that an alias or an array takes its version from. -/
def Body.inner? : Body → Option String
  | .alias inner | .array inner => some inner
  | _ => none

namespace TypeTable

/-- The table after a round. -/
def round (t : TypeTable) : TypeTable := t.map t.raise

/-- Every field is at least as new as its type, and every struct at least as new as its fields. -/
def Settled (t : TypeTable) : Prop :=
  ∀ d ∈ t, ∀ s, d.body = .struct s → ∀ f ∈ s.fields,
    t.effectiveVersion f.typeName ≤ f.version ∧ f.version ≤ d.version

/-- A round raises some declaration to a version that it had not reached. -/
def Raises (t : TypeTable) (v : Nat) : Prop :=
  ∃ d ∈ t, d.version.toNat < v ∧ v ≤ (t.raise d).version.toNat

variable {t : TypeTable}

/-! ## One round -/

theorem raise_of_struct {d : Declaration} {s : StructBody} (h : d.body = .struct s) :
    t.raise d = { d with
      version := ((s.fields.map t.raiseField).map (·.version)).foldl max d.version
      body := .struct { s with fields := s.fields.map t.raiseField } } := by
  unfold raise
  rw [h]

theorem raise_of_not_struct {d : Declaration} (h : ∀ s, d.body ≠ .struct s) : t.raise d = d := by
  unfold raise
  split
  · rename_i s hs
    exact absurd hs (h s)
  · rfl

theorem body_raise_eq_struct {d : Declaration} {s' : StructBody} :
    (t.raise d).body = .struct s' ↔
      ∃ s, d.body = .struct s ∧ s' = { s with fields := s.fields.map t.raiseField } := by
  by_cases hstruct : ∃ s, d.body = .struct s
  · obtain ⟨s, hs⟩ := hstruct
    rw [raise_of_struct hs, hs]
    simp [eq_comm]
  · push Not at hstruct
    rw [raise_of_not_struct hstruct]
    simp [hstruct]

theorem le_raiseField_version {v : Nat} {f : Field} :
    v ≤ (t.raiseField f).version.toNat ↔
      v ≤ f.version.toNat ∨ v ≤ (t.effectiveVersion f.typeName).toNat := by
  rw [raiseField, toNat_max, le_max_iff]

/-- A declaration reaches a version when it had reached it or is a struct one of whose fields
does. -/
theorem le_raise_version {v : Nat} {d : Declaration} :
    v ≤ (t.raise d).version.toNat ↔ v ≤ d.version.toNat ∨
      ∃ s, d.body = .struct s ∧ ∃ f ∈ s.fields, v ≤ (t.raiseField f).version.toNat := by
  by_cases hstruct : ∃ s, d.body = .struct s
  · obtain ⟨s, hs⟩ := hstruct
    rw [raise_of_struct hs, le_toNat_foldl_max, hs]
    simp
  · push Not at hstruct
    rw [raise_of_not_struct hstruct]
    simp [hstruct]

theorem raiseField_eq_self_iff {f : Field} :
    t.raiseField f = f ↔ t.effectiveVersion f.typeName ≤ f.version := by
  rw [← max_eq_left_iff]
  constructor
  · intro h
    exact congrArg Field.version h
  · intro h
    rw [raiseField, h]

/-- A round leaves a declaration as it is when it is no struct, or a struct at least as new as its
fields, each at least as new as its type. -/
theorem raise_eq_self_iff {d : Declaration} :
    t.raise d = d ↔ ∀ s, d.body = .struct s → ∀ f ∈ s.fields,
      t.effectiveVersion f.typeName ≤ f.version ∧ f.version ≤ d.version := by
  constructor
  · intro h s hs f hf
    have hbody : (t.raise d).body = .struct s := by rw [h, hs]
    rw [raise_of_struct hs] at hbody
    have hfields : s.fields.map t.raiseField = s.fields.map id :=
      (congrArg StructBody.fields (Body.struct.inj hbody)).trans (List.map_id _).symm
    have hfield : t.raiseField f = f := List.map_inj_left.mp hfields f hf
    have hold : f.version.toNat ≤ (t.raise d).version.toNat := by
      refine le_raise_version.mpr (.inr ⟨s, hs, f, hf, ?_⟩)
      rw [hfield]
    rw [h] at hold
    exact ⟨raiseField_eq_self_iff.mp hfield, UInt32.le_iff_toNat_le.mpr hold⟩
  · intro h
    by_cases hstruct : ∃ s, d.body = .struct s
    · obtain ⟨s, hs⟩ := hstruct
      have hfields : s.fields.map t.raiseField = s.fields :=
        (List.map_congr_left fun f hf => raiseField_eq_self_iff.mpr (h s hs f hf).1).trans
          (List.map_id _)
      have hversion : (s.fields.map (·.version)).foldl max d.version = d.version := by
        refine foldl_max_eq_self fun x hx => ?_
        obtain ⟨f, hf, rfl⟩ := List.mem_map.mp hx
        exact (h s hs f hf).2
      rw [raise_of_struct hs, hfields, hversion, ← hs]
    · push Not at hstruct
      exact raise_of_not_struct hstruct

theorem round_eq_self_iff : t.round = t ↔ t.Settled := by
  constructor
  · intro h d hd
    have hmap : t.map t.raise = t.map id := h.trans (List.map_id _).symm
    exact raise_eq_self_iff.mp (List.map_inj_left.mp hmap d hd)
  · intro h
    exact (List.map_congr_left fun d hd => raise_eq_self_iff.mpr (h d hd)).trans (List.map_id _)

/-! ## What a round passes on -/

theorem length_round : t.round.length = t.length := List.length_map _

theorem fqn_raise (d : Declaration) : (t.raise d).fqn = d.fqn := by
  have h : (t.raise d).shape.fqn = d.shape.fqn := congrArg Declaration.fqn (shape_raise t d)
  exact h

theorem resolve?_round_eq_declared {name : String} {d' : Declaration} :
    t.round.resolve? name = some (.declared d') ↔
      ∃ d, t.resolve? name = some (.declared d) ∧ t.raise d = d' := by
  have hdeclaration : t.round.declaration? name = (t.declaration? name).map t.raise := by
    rw [declaration?, round, List.find?_map]
    simp only [Function.comp_def, fqn_raise]
    rfl
  simp only [resolve?_eq_declared, hdeclaration, Option.map_eq_some_iff, and_assoc,
    exists_and_left]

theorem inner?_raise (d : Declaration) : (t.raise d).body.inner? = d.body.inner? := by
  by_cases hstruct : ∃ s, d.body = .struct s
  · obtain ⟨s, hs⟩ := hstruct
    rw [raise_of_struct hs, hs]
    rfl
  · push Not at hstruct
    rw [raise_of_not_struct hstruct]

/-- A type has reached a version when its declaration has, or the type it takes its version from. -/
theorem le_effectiveVersionWithin {v : Nat} (hv : 0 < v) (n : Nat) (name : String) :
    v ≤ (t.effectiveVersionWithin (n + 1) name).toNat ↔
      ∃ d, t.resolve? name = some (.declared d) ∧ (v ≤ d.version.toNat ∨
        ∃ inner, d.body.inner? = some inner ∧ v ≤ (t.effectiveVersionWithin n inner).toNat) := by
  have hzero : ¬ v ≤ (0 : UInt32).toNat := Nat.not_le.mpr hv
  rw [effectiveVersionWithin]
  cases hr : t.resolve? name with
  | none => simpa using hzero
  | some target =>
    cases target with
    | primitive p => simpa using hzero
    | declared d => cases hb : d.body <;> simp [Body.inner?, hb, toNat_max]

/-- A type that reaches a version in a round had reached it, or the round raises a declaration to
it. -/
theorem effectiveVersionWithin_round {v : Nat} (n : Nat) (name : String)
    (h : v ≤ (t.round.effectiveVersionWithin n name).toNat) :
    v ≤ (t.effectiveVersionWithin n name).toNat ∨ t.Raises v := by
  by_cases hv : 0 < v
  · induction n generalizing name with
    | zero => exact absurd h (Nat.not_le.mpr hv)
    | succ n ih =>
      rw [le_effectiveVersionWithin hv] at h
      obtain ⟨d', hd', h⟩ := h
      obtain ⟨d, hd, rfl⟩ := resolve?_round_eq_declared.mp hd'
      rcases h with hversion | ⟨inner, hinner, hversion⟩
      · by_cases hold : v ≤ d.version.toNat
        · exact .inl ((le_effectiveVersionWithin hv n name).mpr ⟨d, hd, .inl hold⟩)
        · exact .inr ⟨d, (mem_of_resolve? hd).1, Nat.not_le.mp hold, hversion⟩
      · rw [inner?_raise] at hinner
        rcases ih inner hversion with hold | hraises
        · exact .inl
            ((le_effectiveVersionWithin hv n name).mpr ⟨d, hd, .inr ⟨inner, hinner, hold⟩⟩)
        · exact .inr hraises
  · exact .inl (by omega)

/-- What a round raises to a version, it raises because the round before it raised something to
that version. -/
theorem Raises.of_round {v : Nat} (h : t.round.Raises v) : t.Raises v := by
  obtain ⟨d', hd', hlt, hle⟩ := h
  obtain ⟨d, hd, rfl⟩ := List.mem_map.mp hd'
  rcases le_raise_version.mp hle with hle | ⟨s', hs', f', hf', hle⟩
  · exact absurd hle (Nat.not_le.mpr hlt)
  · obtain ⟨s, hs, rfl⟩ := body_raise_eq_struct.mp hs'
    obtain ⟨f, hf, rfl⟩ := List.mem_map.mp hf'
    -- the struct took up all that its fields had reached, so the type of this one moved
    have hbelow : ¬ v ≤ (t.raiseField f).version.toNat := fun hfield =>
      absurd (le_raise_version.mpr (.inr ⟨s, hs, f, hf, hfield⟩)) (Nat.not_le.mpr hlt)
    rcases le_raiseField_version.mp hle with hle | hle
    · exact absurd hle hbelow
    · rw [effectiveVersion, length_round] at hle
      rcases effectiveVersionWithin_round _ _ hle with hold | hraises
      · exact absurd ((le_raiseField_version (f := f)).mpr (.inr hold)) hbelow
      · exact hraises

/-! ## All rounds -/

/-- The number of declarations that have reached a version. -/
def reached (t : TypeTable) (v : Nat) : Nat := t.countP fun d => decide (v ≤ d.version.toNat)

theorem reached_le (v : Nat) : t.reached v ≤ t.length := List.countP_le_length

/-- A round that raises something to a version leaves more declarations that have reached it. -/
theorem Raises.reached_lt {v : Nat} (h : t.Raises v) : t.reached v < t.round.reached v := by
  obtain ⟨d, hd, hlt, hle⟩ := h
  have hkept : ∀ e : Declaration, v ≤ e.version.toNat → v ≤ (t.raise e).version.toNat :=
    fun e he => le_raise_version.mpr (.inl he)
  have hcount : t.round.reached v = t.countP fun e => decide (v ≤ (t.raise e).version.toNat) :=
    List.countP_map
  rw [hcount, reached]
  refine countP_lt_countP (fun e _ he => ?_) hd ?_ ?_
  · exact decide_eq_true (hkept e (of_decide_eq_true he))
  · exact decide_eq_false (Nat.not_le.mpr hlt)
  · exact decide_eq_true hle

/-- As many declarations have reached a version as there were rounds before one that raises
something to it. -/
theorem Raises.le_reached {v : Nat} (k : Nat) (h : (round^[k] t).Raises v) :
    k ≤ (round^[k] t).reached v := by
  induction k with
  | zero => exact Nat.zero_le _
  | succ k ih =>
    rw [Function.iterate_succ_apply'] at h ⊢
    have hlt := h.of_round.reached_lt
    have hle := ih h.of_round
    omega

theorem length_rounds (k : Nat) : (round^[k] t).length = t.length := by
  induction k with
  | zero => rfl
  | succ k ih => rw [Function.iterate_succ_apply', length_round, ih]

/-- After a round for each declaration, no declaration moves any more. -/
theorem not_raises (v : Nat) : ¬ (round^[t.length] t).Raises v := by
  intro h
  have hle := h.le_reached
  have hlt := h.reached_lt
  have hcount := reached_le (t := (round^[t.length] t).round) v
  rw [length_round, length_rounds] at hcount
  omega

/-- Once no declaration moves any more, one more round settles the fields. -/
theorem settled_round (h : ∀ v, ¬ t.Raises v) : t.round.Settled := by
  have heffective (name : String) :
      (t.round.effectiveVersion name).toNat ≤ (t.effectiveVersion name).toNat := by
    rw [effectiveVersion, length_round]
    exact (effectiveVersionWithin_round _ _ (Nat.le_refl _)).resolve_right (h _)
  intro d' hd' s' hs' f' hf'
  obtain ⟨d, hd, rfl⟩ := List.mem_map.mp hd'
  obtain ⟨s, hs, rfl⟩ := body_raise_eq_struct.mp hs'
  obtain ⟨f, hf, rfl⟩ := List.mem_map.mp hf'
  constructor
  · rw [UInt32.le_iff_toNat_le, le_raiseField_version]
    exact .inr (heffective _)
  · rw [UInt32.le_iff_toNat_le, le_raise_version]
    exact .inr ⟨s, hs, f, hf, Nat.le_refl _⟩

theorem raiseWithin_inv {n : Nat} {t' : TypeTable} (h : raiseWithin n t = .ok t') :
    ∃ k ≤ n, t' = round^[k] t ∧ (k < n → t'.Settled) := by
  induction n generalizing t with
  | zero =>
    cases h
    exact ⟨0, Nat.le_refl _, rfl, nofun⟩
  | succ n ih =>
    unfold raiseWithin at h
    split at h
    · cases h
    · dsimp only at h
      split at h
      · rename_i hsettled
        cases h
        exact ⟨0, Nat.zero_le _, rfl, fun _ => round_eq_self_iff.mp hsettled⟩
      · obtain ⟨k, hk, rfl, hsettled⟩ := ih h
        exact ⟨k + 1, Nat.succ_le_succ hk, rfl, fun hlt => hsettled (Nat.lt_of_succ_lt_succ hlt)⟩

/-- Raised versions are settled. -/
theorem settled_of_raiseVersions {t' : TypeTable} (h : raiseVersions t = .ok t') : t'.Settled := by
  obtain ⟨k, hk, rfl, hsettled⟩ := raiseWithin_inv h
  rcases Nat.lt_or_eq_of_le hk with hlt | rfl
  · exact hsettled hlt
  · rw [Function.iterate_succ_apply']
    exact settled_round not_raises

/-! ## Settled tables -/

theorem drift?_eq_none_iff :
    t.drift? = none ↔ ∀ d ∈ t, ∀ s, d.body = .struct s → s.compact = true → ∀ f ∈ s.fields,
      t.effectiveVersion f.typeName ≤ f.version := by
  rw [TypeTable.drift?, List.head?_eq_none_iff, List.flatMap_eq_nil_iff]
  refine forall₂_congr fun d hd => ?_
  cases d.body with
  | struct s => cases hc : s.compact <;> simp [hc]
  | _ => simp

theorem Settled.drift? (h : t.Settled) : t.drift? = none :=
  drift?_eq_none_iff.mpr fun d hd s hs _ f hf => (h d hd s hs f hf).1

/-- A settled table is not raised. -/
theorem Settled.raiseVersions (h : t.Settled) : t.raiseVersions = .ok t := by
  have hround : t.map t.raise = t := round_eq_self_iff.mpr h
  rw [TypeTable.raiseVersions, raiseWithin, h.drift?]
  dsimp only
  rw [if_pos hround]

end TypeTable

/-! ## Building -/

/-- The table of a built schema is settled. -/
theorem Schema.Built.settled {s : Schema} (h : s.Built) : s.types.Settled := by
  obtain ⟨b, -, hs⟩ := h
  obtain ⟨-, -, -, hraise, -⟩ := Builder.build_inv hs
  exact TypeTable.settled_of_raiseVersions hraise

/-- A sound and settled table is built as it is. -/
theorem Builder.build_of_settled {b : Builder} (hsound : b.types.Sound)
    (hsettled : b.types.Settled) :
    b.build = .ok ⟨b.revision.version, b.revision.versioned, b.revision.changed, b.types,
      b.namespaces, b.changes⟩ := by
  unfold build checkTypes settle
  rw [hsound.linked, hsound.finite, hsound.bools]
  show (b.types.raiseVersions >>= _) = _
  rw [hsettled.raiseVersions]
  rfl

end WireSchema
