import WireSchema.Codec.Basic

/-!
# Steps of a cursor

How the elementary steps of a cursor run, and what a reading step may look at.  A step is
*confined* when its outcome is a function of the bytes between the position and the limit alone,
and when it moves nothing but the position, which stays within these bytes.  `CursorM.parse` is that
function, and `parse_bind_ok` and `parse_bind_error` say how it composes, so what a reader gives is
told without a cursor.  Two readers are compared at a cursor (`runFrom_bind_congr`): the second half
has to agree only where the first half can come to (`Cursor.Ahead`).
-/

namespace WireSchema

namespace CursorM

variable {α β : Type}

/-! ## Running elementary steps -/

@[simp] theorem runFrom_pure (a : α) (c : Cursor) :
    (pure a : CursorM α).runFrom c = (.ok a, c) := rfl

@[simp] theorem runFrom_throw (e : CodecError) (c : Cursor) :
    (throw e : CursorM α).runFrom c = (.error e, c) := rfl

@[simp] theorem runFrom_get (c : Cursor) : (get : CursorM Cursor).runFrom c = (.ok c, c) := rfl

@[simp] theorem runFrom_modify (f : Cursor → Cursor) (c : Cursor) :
    (modify f : CursorM PUnit).runFrom c = (.ok ⟨⟩, f c) := rfl

theorem runFrom_bind (x : CursorM α) (f : α → CursorM β) (c : Cursor) :
    (x >>= f).runFrom c =
      match x.runFrom c with
      | (.ok a, d) => (f a).runFrom d
      | (.error e, d) => (.error e, d) := by
  show (ExceptT.run (x >>= f)).run c = _
  rw [ExceptT.run_bind, StateT.run_bind]
  show (match (ExceptT.run x).run c with | (a, d) => _) = _
  rcases h : x.runFrom c with ⟨e | a, d⟩
  · have hx : (ExceptT.run x).run c = (.error e, d) := h
    rw [hx]
    rfl
  · have hx : (ExceptT.run x).run c = (.ok a, d) := h
    rw [hx]
    rfl

theorem runFrom_bind_ok {x : CursorM α} {f : α → CursorM β} {c d : Cursor} {a : α}
    (h : x.runFrom c = (.ok a, d)) : (x >>= f).runFrom c = (f a).runFrom d := by
  rw [runFrom_bind, h]

theorem runFrom_bind_error {x : CursorM α} {f : α → CursorM β} {c d : Cursor} {e : CodecError}
    (h : x.runFrom c = (.error e, d)) : (x >>= f).runFrom c = (.error e, d) := by
  rw [runFrom_bind, h]

/-- A sequence of two steps that succeeds is a success of each. -/
theorem runFrom_bind_inv {x : CursorM α} {f : α → CursorM β} {c d : Cursor} {b : β}
    (h : (x >>= f).runFrom c = (.ok b, d)) :
    ∃ a c', x.runFrom c = (.ok a, c') ∧ (f a).runFrom c' = (.ok b, d) := by
  rcases hx : x.runFrom c with ⟨e | a, c'⟩
  · rw [runFrom_bind_error hx] at h
    cases h
  · rw [runFrom_bind_ok hx] at h
    exact ⟨a, c', rfl, h⟩

@[simp] theorem ofExcept_ok (a : α) : ofExcept (.ok a) = (pure a : CursorM α) := rfl

@[simp] theorem ofExcept_error (e : CodecError) : ofExcept (.error e) = (throw e : CursorM α) := rfl

@[simp] theorem runFrom_reserve (n : Nat) (c : Cursor) :
    (reserve n).runFrom c = (.ok (), { c with limit := c.limit + n }) := rfl

theorem runFrom_write (bytes : Bytes) (c : Cursor) :
    (write bytes).runFrom c =
      if c.pos + bytes.length ≤ c.buffer.length then
        (.ok (), { c with
          buffer := c.buffer.take c.pos ++ bytes ++ c.buffer.drop (c.pos + bytes.length),
          pos := c.pos + bytes.length })
      else (.error .unexpectedEnd, c) := by
  unfold write
  rw [runFrom_bind_ok (runFrom_get c)]
  dsimp only
  split <;> rfl

theorem runFrom_read (n : Nat) (c : Cursor) :
    (read n).runFrom c =
      if c.pos + n ≤ c.limit ∧ c.pos + n ≤ c.buffer.length then
        (.ok ((c.buffer.drop c.pos).take n), { c with pos := c.pos + n })
      else (.error .unexpectedEnd, c) := by
  unfold read
  rw [runFrom_bind_ok (runFrom_get c)]
  dsimp only
  split <;> rfl

end CursorM

/-! ## Windows -/

namespace Cursor

/-- The position stands before the limit and the limit inside the buffer. -/
def WellFormed (c : Cursor) : Prop := c.pos ≤ c.limit ∧ c.limit ≤ c.buffer.length

/-- The bytes from the position up to the limit. -/
def window (c : Cursor) : Bytes := (c.buffer.drop c.pos).take (c.limit - c.pos)

/-- The cursor some bytes further on. -/
def advance (c : Cursor) (n : Nat) : Cursor := { c with pos := c.pos + n }

theorem advance_advance (c : Cursor) (m n : Nat) :
    (c.advance m).advance n = c.advance (m + n) := by
  simp only [advance, Nat.add_assoc]

theorem wellFormed_ofBytes (w : Bytes) : (ofBytes w).WellFormed := ⟨Nat.zero_le _, Nat.le_refl _⟩

@[simp] theorem window_ofBytes (w : Bytes) : (ofBytes w).window = w := by
  simp [window, ofBytes]

@[simp] theorem remaining_ofBytes (w : Bytes) : (ofBytes w).remaining = w.length := rfl

theorem length_window {c : Cursor} (h : c.WellFormed) : c.window.length = c.limit - c.pos := by
  have := h.1
  have := h.2
  rw [window, List.length_take, List.length_drop]
  omega

theorem wellFormed_advance {c : Cursor} (h : c.WellFormed) {n : Nat} (hn : n ≤ c.window.length) :
    (c.advance n).WellFormed := by
  rw [length_window h] at hn
  have := h.1
  have := h.2
  constructor <;> simp only [advance] <;> omega

theorem window_advance (c : Cursor) (n : Nat) : (c.advance n).window = c.window.drop n := by
  simp only [window, advance, List.drop_take, List.drop_drop]
  congr 1
  omega

theorem isExhausted_iff {c : Cursor} (h : c.WellFormed) :
    c.isExhausted = true ↔ c.window = [] := by
  rw [isExhausted, decide_eq_true_eq, ← List.length_eq_zero_iff, length_window h]
  omega

theorem remaining_eq {c : Cursor} (h : c.WellFormed) : c.remaining = c.window.length := by
  rw [length_window h, remaining]

/-- The second cursor stands at least so many bytes further on than the first, before a limit that
is no farther. -/
structure Ahead (n : Nat) (c d : Cursor) : Prop where
  buffer : d.buffer = c.buffer
  pos : c.pos + n ≤ d.pos
  inside : d.pos ≤ d.limit
  limit : d.limit ≤ c.limit

section Ahead

variable {c d e : Cursor} {m n : Nat}

theorem WellFormed.ahead (h : c.WellFormed) : c.Ahead 0 c :=
  ⟨rfl, Nat.le_refl _, h.1, Nat.le_refl _⟩

theorem Ahead.wellFormed (h : c.Ahead n d) (hc : c.WellFormed) : d.WellFormed :=
  ⟨h.inside, h.buffer ▸ Nat.le_trans h.limit hc.2⟩

theorem Ahead.trans (h : c.Ahead m d) (h' : d.Ahead n e) : c.Ahead (m + n) e where
  buffer := h'.buffer.trans h.buffer
  pos := by
    have := h.pos
    have := h'.pos
    omega
  inside := h'.inside
  limit := Nat.le_trans h'.limit h.limit

theorem Ahead.mono (h : c.Ahead n d) (hm : m ≤ n) : c.Ahead m d :=
  ⟨h.buffer, Nat.le_trans (Nat.add_le_add_left hm _) h.pos, h.inside, h.limit⟩

/-- Less is left further on. -/
theorem Ahead.remaining (h : c.Ahead n d) : d.remaining + n ≤ c.remaining := by
  have hpos := h.pos
  have hinside := h.inside
  have hlimit := h.limit
  unfold Cursor.remaining
  omega

theorem ahead_of_le {k : Nat} (hk : c.pos + k ≤ c.limit) : c.Ahead k (c.advance k) :=
  ⟨rfl, Nat.le_refl _, hk, Nat.le_refl _⟩

theorem ahead_advance (h : c.WellFormed) {k : Nat} (hk : k ≤ c.window.length) :
    c.Ahead k (c.advance k) := ahead_of_le (wellFormed_advance h hk).1

end Ahead

end Cursor

namespace CursorM

variable {α β : Type}

/-- What a step gives on a byte string of its own, and how many bytes it takes. -/
def parse (step : CursorM α) (w : Bytes) : Except CodecError (α × Nat) :=
  match step.runFrom (Cursor.ofBytes w) with
  | (.ok a, c) => .ok (a, c.pos)
  | (.error e, _) => .error e

/-- How many bytes of a byte string of its own a step passes, however it ends. -/
def passed (step : CursorM α) (w : Bytes) : Nat := (step.runFrom (Cursor.ofBytes w)).2.pos

/-- The step looks only at the bytes up to the limit, and moves only the position among them. -/
def Confined (step : CursorM α) : Prop :=
  ∀ c : Cursor, c.WellFormed → step.passed c.window ≤ c.window.length ∧
    step.runFrom c = ((step.parse c.window).map Prod.fst, c.advance (step.passed c.window))

theorem passed_of_parse {step : CursorM α} {w : Bytes} {a : α} {k : Nat}
    (h : step.parse w = .ok (a, k)) : step.passed w = k := by
  unfold parse at h
  unfold passed
  split at h
  · rename_i hrun
    cases h
    rw [hrun]
  · cases h

/-- An outcome with so many more bytes taken. -/
def shift (k : Nat) (r : Except CodecError (α × Nat)) : Except CodecError (α × Nat) :=
  r.map fun p => (p.1, k + p.2)

@[simp] theorem shift_ok (k m : Nat) (a : α) : shift k (.ok (a, m)) = .ok (a, k + m) := rfl

@[simp] theorem shift_error (k : Nat) (e : CodecError) :
    shift k (.error e : Except CodecError (α × Nat)) = .error e := rfl

@[simp] theorem shift_zero (r : Except CodecError (α × Nat)) : shift 0 r = r := by
  cases r with
  | error e => rfl
  | ok p => simp [shift, Except.map]

theorem shift_shift (j k : Nat) (r : Except CodecError (α × Nat)) :
    shift j (shift k r) = shift (j + k) r := by
  cases r with
  | error e => rfl
  | ok p => simp [shift, Except.map, Nat.add_assoc]

theorem shift_eq_ok {k m : Nat} {a : α} {r : Except CodecError (α × Nat)}
    (h : shift k r = .ok (a, m)) : ∃ j, r = .ok (a, j) ∧ m = k + j := by
  cases r with
  | error e => cases h
  | ok p =>
    obtain ⟨b, j⟩ := p
    simp only [shift_ok, Except.ok.injEq, Prod.mk.injEq] at h
    exact ⟨j, by rw [h.1], h.2.symm⟩

/-- A confined step that succeeds moves by what it takes. -/
theorem Confined.run_ok {step : CursorM α} (h : Confined step) {c : Cursor} (hc : c.WellFormed)
    {a : α} {k : Nat} (hp : step.parse c.window = .ok (a, k)) :
    step.runFrom c = (.ok a, c.advance k) ∧ k ≤ c.window.length := by
  obtain ⟨hle, hrun⟩ := h c hc
  rw [hp, passed_of_parse hp] at hrun
  rw [passed_of_parse hp] at hle
  exact ⟨hrun, hle⟩

/-- A confined step that fails leaves the position among the bytes up to the limit. -/
theorem Confined.run_error {step : CursorM α} (h : Confined step) {c : Cursor} (hc : c.WellFormed)
    {e : CodecError} (hp : step.parse c.window = .error e) :
    step.runFrom c = (.error e, c.advance (step.passed c.window)) ∧
      step.passed c.window ≤ c.window.length := by
  obtain ⟨hle, hrun⟩ := h c hc
  rw [hp] at hrun
  exact ⟨hrun, hle⟩

/-- The step moves within the window, `F` tells from the window what it gives and takes, and `g` how
far it moves, also when it fails. -/
structure Outcome (step : CursorM α) (F : Bytes → Except CodecError (α × Nat)) (g : Bytes → Nat) :
    Prop where
  inside : ∀ c : Cursor, c.WellFormed → g c.window ≤ c.window.length
  run : ∀ c : Cursor, c.WellFormed →
    step.runFrom c = ((F c.window).map Prod.fst, c.advance (g c.window))
  taken : ∀ w a m, F w = .ok (a, m) → g w = m

section Outcome

variable {step : CursorM α} {F : Bytes → Except CodecError (α × Nat)} {g : Bytes → Nat}

theorem Outcome.parse_eq (h : Outcome step F g) (w : Bytes) : step.parse w = F w := by
  have hrun := h.run (Cursor.ofBytes w) (Cursor.wellFormed_ofBytes w)
  rw [Cursor.window_ofBytes] at hrun
  unfold parse
  rw [hrun]
  cases hF : F w with
  | error e => rfl
  | ok p =>
    obtain ⟨a, m⟩ := p
    simp [Except.map, Cursor.advance, Cursor.ofBytes, h.taken w a m hF]

theorem Outcome.passed_eq (h : Outcome step F g) (w : Bytes) : step.passed w = g w := by
  have hrun := h.run (Cursor.ofBytes w) (Cursor.wellFormed_ofBytes w)
  rw [Cursor.window_ofBytes] at hrun
  rw [passed, hrun]
  simp [Cursor.advance, Cursor.ofBytes]

/-- A step is confined when its outcome can be told from the window. -/
theorem Outcome.confined (h : Outcome step F g) : Confined step := by
  intro c hc
  rw [h.parse_eq, h.passed_eq]
  exact ⟨h.inside c hc, h.run c hc⟩

end Outcome

/-- A step that is told its outcome and its move by the window. -/
theorem confined_of_run {step : CursorM α} (f : Bytes → Except CodecError α) (g : Bytes → Nat)
    (hg : ∀ w, g w ≤ w.length)
    (h : ∀ c : Cursor, c.WellFormed → step.runFrom c = (f c.window, c.advance (g c.window))) :
    Confined step := by
  refine Outcome.confined (F := fun w => (f w).map fun a => (a, g w)) (g := g)
    ⟨fun c _ => hg c.window, fun c hc => ?_, fun w a m hm => ?_⟩
  · rw [h c hc]
    cases f c.window <;> rfl
  · cases hf : f w with
    | error e => rw [hf] at hm; cases hm
    | ok b =>
      rw [hf] at hm
      simp only [Except.map, Except.ok.injEq, Prod.mk.injEq] at hm
      exact hm.2

/-- A step may look at the cursor first, as long as it only uses the window. -/
theorem outcome_get {f : Cursor → CursorM α} {g : Bytes → CursorM α}
    (hf : ∀ c : Cursor, c.WellFormed → f c = g c.window) (hg : ∀ w, Confined (g w)) :
    Outcome (get >>= f) (fun w => (g w).parse w) fun w => (g w).passed w where
  inside c hc := (hg c.window c hc).1
  run c hc := by rw [runFrom_bind_ok (runFrom_get c), hf c hc, (hg c.window c hc).2]
  taken _ _ _ hm := passed_of_parse hm

theorem parse_get (f : Cursor → CursorM α) (w : Bytes) :
    (get >>= f).parse w = (f (Cursor.ofBytes w)).parse w := by
  rw [parse, runFrom_bind_ok (runFrom_get _), parse]

@[simp] theorem parse_pure (a : α) (w : Bytes) : parse (pure a) w = .ok (a, 0) := rfl

@[simp] theorem parse_throw (e : CodecError) (w : Bytes) :
    parse (throw e : CursorM α) w = .error e := rfl

theorem confined_pure (a : α) : Confined (pure a : CursorM α) :=
  confined_of_run (fun _ => .ok a) (fun _ => 0) (fun _ => Nat.zero_le _) fun _ _ => rfl

theorem confined_throw (e : CodecError) : Confined (throw e : CursorM α) :=
  confined_of_run (fun _ => .error e) (fun _ => 0) (fun _ => Nat.zero_le _) fun _ _ => rfl

theorem confined_ofExcept (x : Except CodecError α) : Confined (ofExcept x) := by
  cases x with
  | error e => exact confined_throw e
  | ok a => exact confined_pure a

/-- After a success the rest of the window is left to the next step. -/
theorem outcome_bind {x : CursorM α} (hx : Confined x) {f : α → CursorM β}
    (hf : ∀ a, Confined (f a)) :
    Outcome (x >>= f)
      (fun w => match x.parse w with
        | .ok (a, k) => shift k ((f a).parse (w.drop k))
        | .error e => .error e)
      fun w => match x.parse w with
        | .ok (a, k) => k + (f a).passed (w.drop k)
        | .error _ => x.passed w := by
  refine ⟨fun c hc => ?_, fun c hc => ?_, fun w b m hm => ?_⟩
  · cases h : x.parse c.window with
    | error e => exact (hx c hc).1
    | ok p =>
      obtain ⟨a, k⟩ := p
      obtain ⟨-, hk⟩ := hx.run_ok hc h
      have hle := (hf a _ (Cursor.wellFormed_advance hc hk)).1
      rw [Cursor.window_advance, List.length_drop] at hle
      dsimp only
      omega
  · cases h : x.parse c.window with
    | error e => rw [runFrom_bind_error (hx.run_error hc h).1]; rfl
    | ok p =>
      obtain ⟨a, k⟩ := p
      obtain ⟨hrun, hk⟩ := hx.run_ok hc h
      have hrest := (hf a _ (Cursor.wellFormed_advance hc hk)).2
      rw [Cursor.window_advance] at hrest
      rw [runFrom_bind_ok hrun, hrest, Cursor.advance_advance]
      dsimp only
      cases (f a).parse (c.window.drop k) <;> rfl
  · cases h : x.parse w with
    | error e => simp only [h] at hm; cases hm
    | ok p =>
      obtain ⟨a, k⟩ := p
      simp only [h] at hm
      obtain ⟨j, hj, rfl⟩ := shift_eq_ok hm
      simp only [passed_of_parse hj]

theorem confined_bind {x : CursorM α} (hx : Confined x) {f : α → CursorM β}
    (hf : ∀ a, Confined (f a)) : Confined (x >>= f) := (outcome_bind hx hf).confined

theorem parse_bind_ok {x : CursorM α} (hx : Confined x) {f : α → CursorM β}
    (hf : ∀ a, Confined (f a)) {w : Bytes} {a : α} {k : Nat} (h : x.parse w = .ok (a, k)) :
    (x >>= f).parse w = shift k ((f a).parse (w.drop k)) := by
  rw [(outcome_bind hx hf).parse_eq]
  simp only [h]

theorem parse_bind_error {x : CursorM α} {f : α → CursorM β} {w : Bytes} {e : CodecError}
    (h : x.parse w = .error e) : (x >>= f).parse w = .error e := by
  unfold parse at h ⊢
  rcases hx : x.runFrom (Cursor.ofBytes w) with ⟨e' | a, d⟩
  · rw [hx] at h
    rw [runFrom_bind_error hx]
    cases h
    rfl
  · rw [hx] at h
    cases h

/-- A successful sequence of two steps is a success of each. -/
theorem parse_bind_inv {x : CursorM α} (hx : Confined x) {f : α → CursorM β}
    (hf : ∀ a, Confined (f a)) {w : Bytes} {b : β} {n : Nat} (h : (x >>= f).parse w = .ok (b, n)) :
    ∃ a k m, x.parse w = .ok (a, k) ∧ (f a).parse (w.drop k) = .ok (b, m) ∧ n = k + m := by
  cases hp : x.parse w with
  | error e => rw [parse_bind_error hp] at h; cases h
  | ok p =>
    obtain ⟨a, k⟩ := p
    rw [parse_bind_ok hx hf hp] at h
    obtain ⟨m, hm, hn⟩ := shift_eq_ok h
    exact ⟨a, k, m, rfl, hm, hn⟩

theorem parse_return_inv {x : CursorM α} (hx : Confined x) {f : α → β} {w : Bytes} {b : β} {k : Nat}
    (h : (do return f (← x)).parse w = .ok (b, k)) : ∃ a, x.parse w = .ok (a, k) ∧ b = f a := by
  obtain ⟨a, j, m, ha, hf, rfl⟩ := parse_bind_inv hx (fun a => confined_pure (f a)) h
  rw [parse_pure] at hf
  cases hf
  exact ⟨a, ha, rfl⟩

theorem parse_congr {x y : CursorM α} {w : Bytes}
    (h : y.runFrom (Cursor.ofBytes w) = x.runFrom (Cursor.ofBytes w)) : y.parse w = x.parse w := by
  rw [parse, parse, h]

/-- A confined step and one that runs like it may be followed by steps that run alike where the
first one comes to. -/
theorem runFrom_bind_congr {x y : CursorM α} (hx : Confined x) {f g : α → CursorM β} {c : Cursor}
    (hc : c.WellFormed) (h : y.runFrom c = x.runFrom c)
    (hfg : ∀ a k, x.parse c.window = .ok (a, k) → c.Ahead k (c.advance k) →
      (g a).runFrom (c.advance k) = (f a).runFrom (c.advance k)) :
    (y >>= g).runFrom c = (x >>= f).runFrom c := by
  cases hp : x.parse c.window with
  | error e =>
    have hrun := (hx.run_error hc hp).1
    rw [runFrom_bind_error (h.trans hrun), runFrom_bind_error hrun]
  | ok p =>
    obtain ⟨a, k⟩ := p
    obtain ⟨hrun, hk⟩ := hx.run_ok hc hp
    rw [runFrom_bind_ok (h.trans hrun), runFrom_bind_ok hrun]
    exact hfg a k hp (Cursor.ahead_advance hc hk)

/-! ## Steps that move on -/

/-- When it succeeds, the step has only moved the position, forward and up to the limit at most. -/
def Onward (step : CursorM α) : Prop :=
  ∀ d a d', d.WellFormed → step.runFrom d = (.ok a, d') →
    ∃ k, d' = d.advance k ∧ d.pos + k ≤ d.limit

theorem Confined.onward {step : CursorM α} (h : Confined step) : Onward step := by
  intro d a d' hd hrun
  obtain ⟨hle, hparse⟩ := h d hd
  have hpos := hd.1
  rw [Cursor.length_window hd] at hle
  refine ⟨_, ?_, (by omega : d.pos + step.passed d.window ≤ d.limit)⟩
  rw [hparse] at hrun
  exact (Prod.mk.inj hrun).2.symm

theorem onward_get : Onward (get : CursorM Cursor) := by
  intro d a d' hd hrun
  rw [runFrom_get] at hrun
  cases hrun
  exact ⟨0, rfl, hd.1⟩

theorem onward_bind {x : CursorM α} (hx : Onward x) {f : α → CursorM β} (hf : ∀ a, Onward (f a)) :
    Onward (x >>= f) := by
  intro d b d' hd hrun
  rcases h : x.runFrom d with ⟨e | a, d₁⟩
  · rw [runFrom_bind_error h] at hrun
    cases hrun
  · obtain ⟨k, rfl, hk⟩ := hx d a d₁ hd h
    rw [runFrom_bind_ok h] at hrun
    have hwf := (Cursor.ahead_of_le hk).wellFormed hd
    obtain ⟨j, rfl, hj⟩ := hf a _ b d' hwf hrun
    rw [Cursor.advance_advance]
    exact ⟨k + j, rfl, by rwa [← Nat.add_assoc]⟩

/-- A step that moves on and one that runs like it may be followed by steps that run alike where the
first one comes to. -/
theorem runFrom_bind_onward {x y : CursorM α} (hx : Onward x) {f g : α → CursorM β} {c : Cursor}
    (hc : c.WellFormed) (h : y.runFrom c = x.runFrom c)
    (hfg : ∀ a k, c.Ahead k (c.advance k) →
      (g a).runFrom (c.advance k) = (f a).runFrom (c.advance k)) :
    (y >>= g).runFrom c = (x >>= f).runFrom c := by
  rcases hrun : x.runFrom c with ⟨e | a, c'⟩
  · rw [runFrom_bind_error (h.trans hrun), runFrom_bind_error hrun]
  · obtain ⟨k, rfl, hk⟩ := hx c a c' hc hrun
    rw [runFrom_bind_ok (h.trans hrun), runFrom_bind_ok hrun]
    exact hfg a k (Cursor.ahead_of_le hk)

/-! ## Reading bytes -/

theorem confined_read (n : Nat) : Confined (read n) := by
  refine confined_of_run
    (fun w => if n ≤ w.length then .ok (w.take n) else .error .unexpectedEnd)
    (fun w => if n ≤ w.length then n else 0) ?_ ?_
  · intro w
    split <;> omega
  · intro c hc
    have hlen := Cursor.length_window hc
    have h1 := hc.1
    have h2 := hc.2
    rw [runFrom_read]
    by_cases hn : n ≤ c.window.length
    · rw [if_pos hn, if_pos hn, if_pos (by omega)]
      simp only [Cursor.advance, Cursor.window, List.take_take]
      rw [Nat.min_eq_left (by omega)]
    · rw [if_neg hn, if_neg hn, if_neg (by omega)]
      rfl

theorem parse_read {n : Nat} {w : Bytes} (h : n ≤ w.length) :
    (read n).parse w = .ok (w.take n, n) := by
  rw [parse, runFrom_read, if_pos (by simp [Cursor.ofBytes, h])]
  simp [Cursor.ofBytes]

theorem parse_read_short {n : Nat} {w : Bytes} (h : w.length < n) :
    (read n).parse w = .error .unexpectedEnd := by
  rw [parse, runFrom_read, if_neg (by simp [Cursor.ofBytes]; omega)]

theorem parse_read_inv {n k : Nat} {w b : Bytes} (h : (read n).parse w = .ok (b, k)) :
    n ≤ w.length ∧ b = w.take n ∧ k = n := by
  rcases Nat.lt_or_ge w.length n with hshort | hle
  · rw [parse_read_short hshort] at h
    cases h
  · rw [parse_read hle] at h
    cases h
    exact ⟨hle, rfl, rfl⟩

/-- Reading takes back bytes that stand in front. -/
theorem parse_read_append (b s : Bytes) : (read b.length).parse (b ++ s) = .ok (b, b.length) := by
  rw [parse_read (by simp), List.take_left]

theorem confined_readByte : Confined readByte :=
  confined_bind (confined_read 1) fun _ => confined_pure _

theorem parse_readByte_cons (x : UInt8) (s : Bytes) :
    readByte.parse (x :: s) = .ok (x.toNat, 1) := by
  have h := parse_read_append [x] s
  unfold readByte
  rw [show x :: s = [x] ++ s from rfl, parse_bind_ok (confined_read 1)
    (fun _ => confined_pure _) h]
  simp [ofLE]

theorem parse_readByte_nil : readByte.parse [] = .error .unexpectedEnd :=
  parse_bind_error (parse_read_short (by decide))

end CursorM

/-! ## Codecs -/

namespace Codec

/-- Reading at the start of a byte string is reading on a window of its own. -/
theorem decodeFirst_eq (c : Codec) (w : Bytes) : c.decodeFirst w = c.read.parse w := by
  unfold decodeFirst CursorM.parse
  rcases c.read.runFrom (Cursor.ofBytes w) with ⟨e | v, d⟩ <;> rfl

end Codec

end WireSchema
