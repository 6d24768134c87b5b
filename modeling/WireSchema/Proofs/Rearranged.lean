import Mathlib.Data.List.Perm.Basic
import WireSchema.Proofs.Raising
import WireSchema.Proofs.TypeCodec

/-!
# Tables in another order

A table with its declarations in another order finds the same declaration under every name.  So it
has the same codecs (`Rearranged.typeCodec_eq`), it passes the checks of a build when the other one
does, and its versions are raised alike (`Rearranged.checkTypes`).
-/

namespace WireSchema

/-! ## Computations that end alike -/

/-- Both computations fail, or both give a result and the results are related. -/
inductive Likewise {ε α : Type} (R : α → α → Prop) : Except ε α → Except ε α → Prop
  | failed (e e' : ε) : Likewise R (.error e) (.error e')
  | done {a a' : α} (h : R a a') : Likewise R (.ok a) (.ok a')

theorem Likewise.bind {ε α β : Type} {R : α → α → Prop} {S : β → β → Prop} {x x' : Except ε α}
    {f f' : α → Except ε β} (h : Likewise R x x')
    (hf : ∀ a a', R a a' → Likewise S (f a) (f' a')) : Likewise S (x >>= f) (x' >>= f') := by
  cases h with
  | failed e e' => exact .failed e e'
  | done h => exact hf _ _ h

theorem Likewise.imp {ε α : Type} {R S : α → α → Prop} {x x' : Except ε α} (h : Likewise R x x')
    (hS : ∀ a a', x = .ok a → x' = .ok a' → R a a' → S a a') : Likewise S x x' := by
  cases h with
  | failed e e' => exact .failed e e'
  | done h => exact .done (hS _ _ rfl rfl h)

theorem Likewise.isOk_eq {ε α : Type} {R : α → α → Prop} {x x' : Except ε α}
    (h : Likewise R x x') : x'.isOk = x.isOk := by
  cases h <;> rfl

theorem Likewise.of_ok {ε α : Type} {R : α → α → Prop} {x x' : Except ε α} (h : Likewise R x x')
    {a a' : α} (ha : x = .ok a) (ha' : x' = .ok a') : R a a' := by
  cases h with
  | failed => cases ha
  | done h =>
    cases ha
    cases ha'
    exact h

theorem likewise_of_ok_iff {ε : Type} {x x' : Except ε Unit} (h : x = .ok () ↔ x' = .ok ()) :
    Likewise Eq x x' := by
  cases x with
  | ok _ =>
    rw [h.mp rfl]
    exact .done rfl
  | error e =>
    cases x' with
    | ok _ => cases h.mpr rfl
    | error e' => exact .failed e e'

namespace TypeTable

/-- The same declarations under distinct names, the first `k` of them in their places. -/
structure Rearranged (k : Nat) (t t' : TypeTable) : Prop where
  perm : t.Perm t'
  unique : (t.map (·.fqn)).Nodup
  front : t'.take k = t.take k

/-- Under distinct names a declaration is found in any order. -/
theorem declaration?_perm {t t' : TypeTable} (hperm : t.Perm t')
    (hunique : (t.map (·.fqn)).Nodup) (name : String) :
    t'.declaration? name = t.declaration? name := by
  have hnames := hperm.map (·.fqn)
  cases hd : t.declaration? name with
  | none =>
    rw [declaration?_eq_none_iff] at hd ⊢
    exact fun hmem => hd (hnames.mem_iff.mpr hmem)
  | some d =>
    obtain ⟨hmem, rfl⟩ := mem_of_declaration? hd
    exact find?_of_nodup (hnames.nodup_iff.mp hunique) (hperm.mem_iff.mp hmem)

namespace Rearranged

variable {k : Nat} {t t' : TypeTable}

/-! ## Looking up -/

section Lookup

variable (h : Rearranged k t t')

include h

theorem length_eq : t'.length = t.length := h.perm.length_eq.symm

theorem resolve?_eq (name : String) : t'.resolve? name = t.resolve? name := by
  unfold resolve?
  rw [declaration?_perm h.perm h.unique]

theorem unalias_eq (name : String) : t'.unalias name = t.unalias name := by
  have hwithin (n : Nat) (name : String) : t'.unaliasWithin n name = t.unaliasWithin n name := by
    induction n generalizing name with
    | zero => rfl
    | succ n ih =>
      rw [unaliasWithin, unaliasWithin, h.resolve?_eq]
      simp only [ih]
  rw [unalias, unalias, hwithin, h.length_eq]

theorem isFrameable_eq (name : String) : t'.isFrameable name = t.isFrameable name := by
  unfold isFrameable
  rw [h.unalias_eq, h.resolve?_eq]

theorem isBool_eq (name : String) : t'.isBool name = t.isBool name := by
  rw [isBool, isBool, h.unalias_eq]

theorem layout_eq (fqn : String) (s : StructBody) : t'.layout fqn s = t.layout fqn s := by
  have hdefault (name : String) : t'.defaultValue name = t.defaultValue name := by
    unfold defaultValue
    rw [h.unalias_eq, h.resolve?_eq]
  unfold layout fieldStep
  simp only [h.isBool_eq, h.isFrameable_eq, hdefault]

theorem effectiveVersion_eq (name : String) :
    t'.effectiveVersion name = t.effectiveVersion name := by
  have hwithin (n : Nat) (name : String) :
      t'.effectiveVersionWithin n name = t.effectiveVersionWithin n name := by
    induction n generalizing name with
    | zero => rfl
    | succ n ih =>
      rw [effectiveVersionWithin, effectiveVersionWithin, h.resolve?_eq]
      simp only [ih]
  rw [effectiveVersion, effectiveVersion, hwithin, h.length_eq]

theorem codecWithin_eq (b : Bindings) (n : Nat) (name : String) :
    t'.codecWithin b n name = t.codecWithin b n name := by
  induction n generalizing name with
  | zero => rfl
  | succ n ih =>
    rw [codecWithin_succ, codecWithin_succ]
    unfold codecLayer
    rw [h.resolve?_eq]
    simp only [h.layout_eq, h.isFrameable_eq, ih]

theorem typeCodec_eq (b : Bindings) (name : String) : t'.typeCodec b name = t.typeCodec b name := by
  unfold typeCodec depthFor
  simp only [h.codecWithin_eq, h.length_eq]

theorem codec?_eq (b : Bindings) (name : String) : t'.codec? b name = t.codec? b name := by
  unfold TypeTable.codec?
  rw [h.resolve?_eq, h.typeCodec_eq]

end Lookup

/-! ## Checks -/

section Checks

variable (h : Rearranged k t t')

include h

theorem checkLinked : Likewise Eq t.checkLinked t'.checkLinked := by
  refine likewise_of_ok_iff ?_
  simp only [checkLinked_eq_ok_iff, h.resolve?_eq, h.perm.mem_iff]

theorem checkFinite : Likewise Eq t.checkFinite t'.checkFinite := by
  have hneeds : t'.Needs = t.Needs := by
    funext name child
    rw [Needs, Needs, declaration?_perm h.perm h.unique]
  refine likewise_of_ok_iff ?_
  show t.Finite ↔ t'.Finite
  rw [finite_iff, finite_iff, hneeds]

theorem checkRequiredBools : Likewise Eq t.checkRequiredBools t'.checkRequiredBools := by
  refine likewise_of_ok_iff ?_
  simp only [checkRequiredBools_eq_ok_iff, h.isBool_eq, h.perm.mem_iff]

/-! ## Raising versions -/

theorem settled_iff : t.Settled ↔ t'.Settled := by
  simp only [Settled, h.effectiveVersion_eq, h.perm.mem_iff]

theorem drift?_eq_none_iff : t.drift? = none ↔ t'.drift? = none := by
  simp only [TypeTable.drift?_eq_none_iff, h.effectiveVersion_eq, h.perm.mem_iff]

/-- A round keeps the order. -/
theorem round : Rearranged k t.round t'.round := by
  have hraise : t'.raise = t.raise := by
    funext d
    unfold raise raiseField
    simp only [h.effectiveVersion_eq]
  rw [TypeTable.round, TypeTable.round, hraise]
  refine ⟨h.perm.map _, ?_, ?_⟩
  · rw [List.map_map]
    have hnames : (fun d => d.fqn) ∘ t.raise = fun d => d.fqn := funext fqn_raise
    rw [hnames]
    exact h.unique
  · rw [← List.map_take, ← List.map_take, h.front]

theorem raiseWithin (n : Nat) :
    Likewise (Rearranged k) (raiseWithin n t) (TypeTable.raiseWithin n t') := by
  induction n generalizing t t' with
  | zero => exact .done h
  | succ n ih =>
    rw [TypeTable.raiseWithin, TypeTable.raiseWithin]
    cases hdrift : t.drift? with
    | some fault =>
      cases hdrift' : t'.drift? with
      | some fault' => exact .failed _ _
      | none =>
        rw [h.drift?_eq_none_iff.mpr hdrift'] at hdrift
        cases hdrift
    | none =>
      rw [h.drift?_eq_none_iff.mp hdrift]
      show Likewise _ (if t.round = t then _ else _) (if t'.round = t' then _ else _)
      by_cases hsettled : t.Settled
      · rw [if_pos (round_eq_self_iff.mpr hsettled),
          if_pos (round_eq_self_iff.mpr (h.settled_iff.mp hsettled))]
        exact .done h
      · rw [if_neg fun hr => hsettled (round_eq_self_iff.mp hr),
          if_neg fun hr => hsettled (h.settled_iff.mpr (round_eq_self_iff.mp hr))]
        exact ih h.round

theorem checkTypes : Likewise (Rearranged k) (Builder.checkTypes t) (Builder.checkTypes t') := by
  refine h.checkLinked.bind fun _ _ _ => ?_
  refine h.checkFinite.bind fun _ _ _ => ?_
  refine h.checkRequiredBools.bind fun _ _ _ => ?_
  rw [raiseVersions, raiseVersions, h.length_eq]
  exact h.raiseWithin _

end Checks

end Rearranged

end TypeTable

end WireSchema
