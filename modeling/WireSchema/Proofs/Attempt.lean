import WireSchema.Attempt
import WireSchema.Proofs.Basic

/-!
# Attempts

How attempts run, and what they leave behind.  What holds between the state before an attempt and
the state that it leaves, whether it fails or not, is put together from its steps (`Moves`).  An
attempt is *clean* when it leaves the state as it was whenever it fails: steps that only read may
stand in front (`Clean.after_reading`), and steps that cannot fail may stand behind
(`Clean.before_sure`).
-/

namespace WireSchema

namespace Attempt

variable {σ α β : Type}

/-! ## Running elementary steps -/

@[simp] theorem runFrom_pure (a : α) (s : σ) : (pure a : Attempt σ α).runFrom s = (.ok a, s) := rfl

@[simp] theorem runFrom_throw (e : SchemaError) (s : σ) :
    (throw e : Attempt σ α).runFrom s = (.error e, s) := rfl

@[simp] theorem runFrom_get (s : σ) : (get : Attempt σ σ).runFrom s = (.ok s, s) := rfl

@[simp] theorem runFrom_modify (f : σ → σ) (s : σ) :
    (modify f : Attempt σ PUnit).runFrom s = (.ok ⟨⟩, f s) := rfl

@[simp] theorem runFrom_modifyGet (f : σ → α × σ) (s : σ) :
    (modifyGet f : Attempt σ α).runFrom s = (.ok (f s).1, (f s).2) := rfl

@[simp] theorem runFrom_check (x : Except SchemaError α) (s : σ) :
    (check x).runFrom s = (x, s) := by
  cases x <;> rfl

theorem runFrom_bind (x : Attempt σ α) (f : α → Attempt σ β) (s : σ) :
    (x >>= f).runFrom s =
      match x.runFrom s with
      | (.ok a, s') => (f a).runFrom s'
      | (.error e, s') => (.error e, s') := by
  unfold runFrom
  rw [ExceptT.run_bind, StateT.run_bind]
  rcases (ExceptT.run x).run s with ⟨e | a, s'⟩ <;> rfl

theorem runFrom_bind_ok {x : Attempt σ α} {f : α → Attempt σ β} {s s' : σ} {a : α}
    (h : x.runFrom s = (.ok a, s')) : (x >>= f).runFrom s = (f a).runFrom s' := by
  rw [runFrom_bind, h]

theorem runFrom_bind_error {x : Attempt σ α} {f : α → Attempt σ β} {s s' : σ} {e : SchemaError}
    (h : x.runFrom s = (.error e, s')) : (x >>= f).runFrom s = (.error e, s') := by
  rw [runFrom_bind, h]

/-! ## Results -/

theorem result_of_ok {x : Attempt σ α} {s s' : σ} {a : α} (h : x.runFrom s = (.ok a, s')) :
    x.result s = .ok (a, s') := by
  rw [result, h]

theorem result_of_error {x : Attempt σ α} {s s' : σ} {e : SchemaError}
    (h : x.runFrom s = (.error e, s')) : x.result s = .error e := by
  rw [result, h]

theorem result_eq_ok_iff {x : Attempt σ α} {s s' : σ} {a : α} :
    x.result s = .ok (a, s') ↔ x.runFrom s = (.ok a, s') := by
  rcases h : x.runFrom s with ⟨e | b, s''⟩
  · simp [result_of_error h]
  · simp [result_of_ok h]

theorem result_eq_error_iff {x : Attempt σ α} {s : σ} {e : SchemaError} :
    x.result s = .error e ↔ (x.runFrom s).1 = .error e := by
  rcases h : x.runFrom s with ⟨e' | b, s''⟩
  · simp [result_of_error h]
  · simp [result_of_ok h]

@[simp] theorem result_pure (a : α) (s : σ) : (pure a : Attempt σ α).result s = .ok (a, s) := rfl

@[simp] theorem result_throw (e : SchemaError) (s : σ) :
    (throw e : Attempt σ α).result s = .error e := rfl

theorem result_check (x : Except SchemaError α) (s : σ) :
    (check x : Attempt σ α).result s = x.map fun a => (a, s) := by
  cases x <;> rfl

theorem result_bind (x : Attempt σ α) (f : α → Attempt σ β) (s : σ) :
    (x >>= f).result s = x.result s >>= fun p => (f p.1).result p.2 := by
  rcases h : x.runFrom s with ⟨e | a, s'⟩
  · rw [result_of_error h, result_of_error (runFrom_bind_error h)]
    rfl
  · rw [result_of_ok h, ok_bind, result, runFrom_bind_ok h]
    rfl

/-- Behind a check that succeeds the other steps run from the same state. -/
theorem result_check_bind (x : Except SchemaError α) (f : α → Attempt σ β) (s : σ) :
    (check x >>= f).result s = x >>= fun a => (f a).result s := by
  rw [result_bind, result_check]
  cases x <;> rfl

/-- A sequence of two steps that succeeds is a success of each. -/
theorem result_bind_inv {x : Attempt σ α} {f : α → Attempt σ β} {s s' : σ} {b : β}
    (h : (x >>= f).result s = .ok (b, s')) :
    ∃ a s₁, x.result s = .ok (a, s₁) ∧ (f a).result s₁ = .ok (b, s') := by
  rw [result_bind] at h
  obtain ⟨⟨a, s₁⟩, hx, hf⟩ := ok_of_bind h
  exact ⟨a, s₁, hx, hf⟩

theorem result_check_bind_inv {x : Except SchemaError α} {f : α → Attempt σ β} {s s' : σ} {b : β}
    (h : (check x >>= f).result s = .ok (b, s')) :
    ∃ a, x = .ok a ∧ (f a).result s = .ok (b, s') := by
  rw [result_check_bind] at h
  exact ok_of_bind h

theorem next_check (x : Except SchemaError α) (s : σ) :
    (check x : Attempt σ α).next s = x.map fun _ => s := by
  cases x <;> rfl

theorem next_bind (x : Attempt σ α) (f : α → Attempt σ β) (s : σ) :
    (x >>= f).next s = x.result s >>= fun p => (f p.1).next p.2 := by
  rw [next, result_bind, map_of_bind]
  rfl

theorem next_get_bind (f : σ → Attempt σ β) (s : σ) : (get >>= f).next s = (f s).next s := rfl

theorem next_check_bind (x : Except SchemaError α) (f : α → Attempt σ β) (s : σ) :
    (check x >>= f).next s = x >>= fun a => (f a).next s := by
  rw [next, result_check_bind, map_of_bind]
  rfl

/-- What an attempt gives does not matter for the state after it. -/
theorem next_bind_pure (x : Attempt σ α) (f : α → β) (s : σ) :
    (x >>= fun a => pure (f a)).next s = x.next s := by
  rw [next_bind, next]
  cases x.result s <;> rfl

theorem next_eq_ok_iff {x : Attempt σ α} {s s' : σ} :
    x.next s = .ok s' ↔ ∃ a, x.runFrom s = (.ok a, s') := by
  constructor
  · intro h
    obtain ⟨⟨a, s₁⟩, hx, rfl⟩ := ok_of_map h
    exact ⟨a, result_eq_ok_iff.mp hx⟩
  · rintro ⟨a, h⟩
    rw [next, result_of_ok h]
    rfl

theorem leaves_of_next {x : Attempt σ α} {s s' : σ} (h : x.next s = .ok s') : x.leaves s = s' := by
  obtain ⟨a, hx⟩ := next_eq_ok_iff.mp h
  rw [leaves, hx]

theorem next_eq_error_iff {x : Attempt σ α} {s : σ} {e : SchemaError} :
    x.next s = .error e ↔ (x.runFrom s).1 = .error e := by
  rw [← result_eq_error_iff, next]
  cases x.result s <;> simp [Except.map]

/-! ## What is left -/

/-- Whatever comes of an attempt, the state that it leaves stands in a relation to the one before
it. -/
def Moves (R : σ → σ → Prop) (x : Attempt σ α) : Prop := ∀ s, R s (x.leaves s)

section Moves

variable {R : σ → σ → Prop}

theorem moves_pure (hrefl : ∀ s, R s s) (a : α) : Moves R (pure a : Attempt σ α) := hrefl

theorem moves_throw (hrefl : ∀ s, R s s) (e : SchemaError) : Moves R (throw e : Attempt σ α) :=
  hrefl

theorem moves_get (hrefl : ∀ s, R s s) : Moves R (get : Attempt σ σ) := hrefl

theorem moves_check (hrefl : ∀ s, R s s) (x : Except SchemaError α) :
    Moves R (check x : Attempt σ α) := by
  intro s
  rw [leaves, runFrom_check]
  exact hrefl s

theorem Moves.bind (htrans : ∀ {s s₁ s₂}, R s s₁ → R s₁ s₂ → R s s₂) {x : Attempt σ α}
    {f : α → Attempt σ β} (hx : Moves R x) (hf : ∀ a, Moves R (f a)) : Moves R (x >>= f) := by
  intro s
  have hfirst : R s (x.runFrom s).2 := hx s
  rw [leaves]
  rcases h : x.runFrom s with ⟨e | a, s₁⟩
  · rw [h] at hfirst
    rw [runFrom_bind_error h]
    exact hfirst
  · rw [h] at hfirst
    rw [runFrom_bind_ok h]
    exact htrans hfirst (hf a s₁)

end Moves

/-- An attempt that only reads the state. -/
abbrev Reads (x : Attempt σ α) : Prop := Moves Eq x

theorem reads_pure (a : α) : Reads (pure a : Attempt σ α) := moves_pure (fun _ => rfl) a

theorem reads_get : Reads (get : Attempt σ σ) := moves_get fun _ => rfl

theorem reads_check (x : Except SchemaError α) : Reads (check x : Attempt σ α) :=
  moves_check (fun _ => rfl) x

theorem Reads.bind {x : Attempt σ α} {f : α → Attempt σ β} (hx : Reads x) (hf : ∀ a, Reads (f a)) :
    Reads (x >>= f) :=
  Moves.bind .trans hx hf

/-- An attempt that cannot fail. -/
def Sure (x : Attempt σ α) : Prop := ∀ s, ∃ a, (x.runFrom s).1 = .ok a

theorem sure_pure (a : α) : Sure (pure a : Attempt σ α) := fun _ => ⟨a, rfl⟩

theorem sure_modify (f : σ → σ) : Sure (modify f : Attempt σ PUnit) := fun _ => ⟨⟨⟩, rfl⟩

theorem Sure.bind {x : Attempt σ α} {f : α → Attempt σ β} (hx : Sure x) (hf : ∀ a, Sure (f a)) :
    Sure (x >>= f) := by
  intro s
  obtain ⟨a, ha⟩ := hx s
  rw [runFrom_bind_ok (Prod.ext ha rfl)]
  exact hf a _

/-- An attempt that leaves the state as it was whenever it fails. -/
def Clean (x : Attempt σ α) : Prop := ∀ s e, (x.runFrom s).1 = .error e → x.leaves s = s

theorem Reads.clean {x : Attempt σ α} (h : Reads x) : Clean x := fun s _ _ => (h s).symm

theorem Sure.clean {x : Attempt σ α} (h : Sure x) : Clean x := by
  intro s e he
  obtain ⟨a, ha⟩ := h s
  rw [ha] at he
  cases he

/-- Steps that only read may stand in front. -/
theorem Clean.after_reading {x : Attempt σ α} {f : α → Attempt σ β} (hx : Reads x)
    (hf : ∀ a, Clean (f a)) : Clean (x >>= f) := by
  intro s e he
  have hsame : (x.runFrom s).2 = s := (hx s).symm
  rw [leaves]
  rcases h : x.runFrom s with ⟨e' | a, s₁⟩
  · rw [h] at hsame
    rw [runFrom_bind_error h]
    exact hsame
  · rw [h] at hsame
    obtain rfl : s₁ = s := hsame
    rw [runFrom_bind_ok h] at he ⊢
    exact hf a s₁ e he

/-- Steps that cannot fail may stand behind. -/
theorem Clean.before_sure {x : Attempt σ α} {f : α → Attempt σ β} (hx : Clean x)
    (hf : ∀ a, Sure (f a)) : Clean (x >>= f) := by
  intro s e he
  rcases h : x.runFrom s with ⟨e' | a, s₁⟩
  · rw [leaves, runFrom_bind_error h]
    have hsame := hx s e' (by rw [h])
    rwa [leaves, h] at hsame
  · obtain ⟨b, hb⟩ := hf a s₁
    rw [runFrom_bind_ok h, hb] at he
    cases he

/-- What a clean attempt leaves is told by its success alone. -/
theorem Clean.leaves_eq {x : Attempt σ α} (h : Clean x) (s : σ) :
    x.leaves s = (x.next s).toOption.getD s := by
  cases hx : x.next s with
  | ok s' => exact leaves_of_next hx
  | error e => exact h s e (next_eq_error_iff.mp hx)

end Attempt

end WireSchema
