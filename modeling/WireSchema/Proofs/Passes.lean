import WireSchema.Proofs.Cursor

/-!
# Measuring and writing in step

A value is measured first and written into a buffer of the measured size afterwards.  Two steps run
*in tandem* when the writing step keeps to what the measuring step announced: the number of bytes
and the lengths of the frames.  `Tandem.bind` composes such pairs, and `Codec.encode_eq_ok_iff` says
that the encoding of a value is then what the pair yields, so the encoding of a composite is found
part by part.
-/

namespace WireSchema

/-- A fault that lies in the value: the buffer was large enough and the frame lengths were right. -/
def CodecError.OfValue (e : CodecError) : Prop :=
  e ≠ .unexpectedEnd ∧ ∀ expected actual, e ≠ .frameMismatch expected actual

namespace Cursor

/-- There is room for `n` more bytes, and the frame lengths go on with the given ones. -/
structure Ready (c : Cursor) (n : Nat) (frames : List Nat) : Prop where
  room : c.pos + n ≤ c.buffer.length
  queue : ∃ rest, c.frames.drop c.nextFrame = frames ++ rest

/-- The cursor after bytes were written and so many frame lengths were taken. -/
def filled (c : Cursor) (bytes : Bytes) (taken : Nat) : Cursor :=
  { c with
    buffer := c.buffer.take c.pos ++ bytes ++ c.buffer.drop (c.pos + bytes.length)
    pos := c.pos + bytes.length
    nextFrame := c.nextFrame + taken }

@[simp] theorem filled_nil (c : Cursor) : c.filled [] 0 = c := by
  simp [filled]

theorem length_buffer_filled {c : Cursor} {bytes : Bytes} {taken : Nat}
    (h : c.pos + bytes.length ≤ c.buffer.length) :
    (c.filled bytes taken).buffer.length = c.buffer.length := by
  simp only [filled, List.length_append, List.length_take, List.length_drop]
  omega

theorem Ready.left {c : Cursor} {m n : Nat} {fs gs : List Nat} (h : c.Ready (m + n) (fs ++ gs)) :
    c.Ready m fs := by
  obtain ⟨room, rest, hq⟩ := h
  exact ⟨by omega, gs ++ rest, by rw [hq, List.append_assoc]⟩

theorem Ready.right {c : Cursor} {bytes : Bytes} {n : Nat} {fs gs : List Nat}
    (h : c.Ready (bytes.length + n) (fs ++ gs)) : (c.filled bytes fs.length).Ready n gs := by
  obtain ⟨room, rest, hq⟩ := h
  refine ⟨?_, rest, ?_⟩
  · rw [length_buffer_filled (by omega)]
    simp only [filled]
    omega
  · simp only [filled]
    rw [← List.drop_drop, hq, List.append_assoc, List.drop_left]

theorem filled_filled {c : Cursor} {a b : Bytes} {m n : Nat}
    (h : c.pos + a.length + b.length ≤ c.buffer.length) :
    (c.filled a m).filled b n = c.filled (a ++ b) (m + n) := by
  have hpos : (c.buffer.take c.pos).length = c.pos := by
    rw [List.length_take]
    omega
  have hhead : (c.buffer.take c.pos ++ a).length = c.pos + a.length := by
    rw [List.length_append, hpos]
  have htake : (c.buffer.take c.pos ++ a ++ c.buffer.drop (c.pos + a.length)).take
      (c.pos + a.length) = c.buffer.take c.pos ++ a := by
    rw [← hhead, List.take_left]
  have hdrop : (c.buffer.take c.pos ++ a ++ c.buffer.drop (c.pos + a.length)).drop
      (c.pos + a.length + b.length) = c.buffer.drop (c.pos + (a ++ b).length) := by
    rw [← List.drop_drop, ← hhead, List.drop_left, hhead, List.drop_drop, List.length_append,
      Nat.add_assoc]
  simp only [filled]
  rw [htake, hdrop]
  simp [Nat.add_assoc]

end Cursor

namespace CursorM

/-! ## What a pass does, whatever the cursor -/

/-- The measuring step succeeds with so many bytes and these frame lengths. -/
def Reserves (step : CursorM Unit) (n : Nat) (frames : List Nat) : Prop :=
  ∀ c : Cursor, step.runFrom c =
    (.ok (), { c with limit := c.limit + n, frames := c.frames ++ frames })

/-- The step fails on every cursor, with one fault. -/
def Refuses (step : CursorM Unit) (e : CodecError) : Prop :=
  ∀ c : Cursor, ∃ d, step.runFrom c = (.error e, d)

/-- The writing step writes these bytes and takes these frame lengths. -/
def Emits (step : CursorM Unit) (bytes : Bytes) (frames : List Nat) : Prop :=
  ∀ c : Cursor, c.Ready bytes.length frames →
    step.runFrom c = (.ok (), c.filled bytes frames.length)

/-- The writing step fails although the cursor is ready for what was measured. -/
def Balks (step : CursorM Unit) (n : Nat) (frames : List Nat) (e : CodecError) : Prop :=
  ∀ c : Cursor, c.Ready n frames → ∃ d, step.runFrom c = (.error e, d)

/-- A pair of passes measures and writes these bytes. -/
def Yields (measuring writing : CursorM Unit) (bytes : Bytes) : Prop :=
  ∃ frames, Reserves measuring bytes.length frames ∧ Emits writing bytes frames

/-- A pair of passes that writes nothing: the first fails, or the second fails for a fault of the
value. -/
inductive Barren (measuring writing : CursorM Unit) : Prop
  | refused (e : CodecError) (h : Refuses measuring e)
  | failed (n : Nat) (frames : List Nat) (e : CodecError) (hm : Reserves measuring n frames)
      (he : e.OfValue) (hw : Balks writing n frames e)

/-- The two passes over a value agree: they write nothing, or as many bytes as were measured. -/
def Tandem (measuring writing : CursorM Unit) : Prop :=
  Barren measuring writing ∨ ∃ bytes, Yields measuring writing bytes

theorem Reserves.unique {step : CursorM Unit} {m n : Nat} {fs gs : List Nat}
    (h : Reserves step m fs) (h' : Reserves step n gs) : m = n ∧ fs = gs := by
  have heq := (h {}).symm.trans (h' {})
  simp only [Prod.mk.injEq, Cursor.mk.injEq, true_and, Nat.zero_add, List.nil_append, and_true]
    at heq
  exact heq

theorem Reserves.not_refuses {step : CursorM Unit} {n : Nat} {fs : List Nat} {e : CodecError}
    (h : Reserves step n fs) (h' : Refuses step e) : False := by
  obtain ⟨d, hd⟩ := h' {}
  rw [h {}] at hd
  cases hd

/-- A cursor that is ready for so many bytes and these frame lengths, and for nothing more. -/
def blank (n : Nat) (frames : List Nat) : Cursor :=
  { limit := n, buffer := List.replicate n 0, frames := frames }

theorem ready_blank (n : Nat) (frames : List Nat) : (blank n frames).Ready n frames :=
  ⟨by simp [blank], [], by simp [blank]⟩

theorem buffer_filled_blank (bytes : Bytes) (frames : List Nat) (taken : Nat) :
    ((blank bytes.length frames).filled bytes taken).buffer = bytes := by
  simp [blank, Cursor.filled]

theorem Yields.unique {r w : CursorM Unit} {a b : Bytes} (ha : Yields r w a) (hb : Yields r w b) :
    a = b := by
  obtain ⟨fs, hra, hwa⟩ := ha
  obtain ⟨gs, hrb, hwb⟩ := hb
  obtain ⟨hlen, rfl⟩ := hra.unique hrb
  have hready := ready_blank a.length fs
  have heq := (hwa _ hready).symm.trans (hwb _ (hlen ▸ hready))
  have hbuf := congrArg (fun p => p.2.buffer) heq
  dsimp only at hbuf
  rw [buffer_filled_blank] at hbuf
  rw [hbuf, hlen, buffer_filled_blank]

theorem Barren.not_yields {r w : CursorM Unit} (h : Barren r w) {b : Bytes} (hy : Yields r w b) :
    False := by
  obtain ⟨fs, hr, hw⟩ := hy
  cases h with
  | refused e h => exact hr.not_refuses h
  | failed n gs e hm he hb =>
    obtain ⟨rfl, rfl⟩ := hr.unique hm
    obtain ⟨d, hd⟩ := hb _ (ready_blank _ _)
    rw [hw _ (ready_blank _ _)] at hd
    cases hd

/-- A measuring step of passes in tandem has one outcome on every cursor. -/
theorem Tandem.measures {r w : CursorM Unit} (h : Tandem r w) :
    (∃ e, Refuses r e) ∨ ∃ n fs, Reserves r n fs := by
  rcases h with h | ⟨b, fs, hm, -⟩
  · cases h with
    | refused e h => exact .inl ⟨e, h⟩
    | failed n fs e hm he hw => exact .inr ⟨n, fs, hm⟩
  · exact .inr ⟨_, fs, hm⟩

/-! ## Passes one after the other -/

theorem yields_pure : Yields (pure ()) (pure ()) [] := by
  refine ⟨[], fun c => ?_, fun c _ => ?_⟩
  · simp
  · simp

theorem tandem_pure : Tandem (pure ()) (pure ()) := .inr ⟨[], yields_pure⟩

theorem barren_throw (e : CodecError) : Barren (throw e) (throw e) :=
  .refused e fun c => ⟨c, rfl⟩

theorem reserves_bind {r s : CursorM Unit} {m n : Nat} {fs gs : List Nat} (hr : Reserves r m fs)
    (hs : Reserves s n gs) : Reserves (r >>= fun _ => s) (m + n) (fs ++ gs) := by
  intro c
  rw [runFrom_bind_ok (hr c), hs]
  simp only [Nat.add_assoc, List.append_assoc]

theorem yields_bind {r w s x : CursorM Unit} {a b : Bytes} (h : Yields r w a) (h' : Yields s x b) :
    Yields (r >>= fun _ => s) (w >>= fun _ => x) (a ++ b) := by
  obtain ⟨fs, hr, hw⟩ := h
  obtain ⟨gs, hs, hx⟩ := h'
  refine ⟨fs ++ gs, ?_, ?_⟩
  · rw [List.length_append]
    exact reserves_bind hr hs
  · intro c hc
    rw [List.length_append] at hc
    rw [runFrom_bind_ok (hw c hc.left), hx _ hc.right, List.length_append,
      Cursor.filled_filled (by have := hc.room; omega)]

theorem refuses_bind {r : CursorM Unit} {e : CodecError} (h : Refuses r e) (s : CursorM Unit) :
    Refuses (r >>= fun _ => s) e := by
  intro c
  obtain ⟨d, hd⟩ := h c
  exact ⟨d, runFrom_bind_error hd⟩

theorem refuses_bind_right {r s : CursorM Unit} {n : Nat} {fs : List Nat} {e : CodecError}
    (hr : Reserves r n fs) (hs : Refuses s e) : Refuses (r >>= fun _ => s) e := by
  intro c
  rw [runFrom_bind_ok (hr c)]
  exact hs _

/-- When the first part writes nothing, neither does the whole. -/
theorem Barren.bind {r w s x : CursorM Unit} (h : Barren r w) (h' : Tandem s x) :
    Barren (r >>= fun _ => s) (w >>= fun _ => x) := by
  cases h with
  | refused e h => exact .refused e (refuses_bind h s)
  | failed n fs e hm he hw =>
    rcases h'.measures with ⟨e', hs⟩ | ⟨n', gs, hs⟩
    · exact .refused e' (refuses_bind_right hm hs)
    · refine .failed (n + n') (fs ++ gs) e (reserves_bind hm hs) he fun c hc => ?_
      obtain ⟨d, hd⟩ := hw c hc.left
      exact ⟨d, runFrom_bind_error hd⟩

/-- When the second part writes nothing, neither does the whole. -/
theorem Yields.bind_barren {r w s x : CursorM Unit} {a : Bytes} (h : Yields r w a)
    (h' : Barren s x) : Barren (r >>= fun _ => s) (w >>= fun _ => x) := by
  obtain ⟨fs, hr, hw⟩ := h
  cases h' with
  | refused e h => exact .refused e (refuses_bind_right hr h)
  | failed n gs e hm he hb =>
    refine .failed _ (fs ++ gs) e (reserves_bind hr hm) he fun c hc => ?_
    rw [runFrom_bind_ok (hw c hc.left)]
    exact hb _ hc.right

theorem Tandem.bind {r w s x : CursorM Unit} (h : Tandem r w) (h' : Tandem s x) :
    Tandem (r >>= fun _ => s) (w >>= fun _ => x) := by
  rcases h with h | ⟨a, ha⟩
  · exact .inl (h.bind h')
  · rcases h' with h' | ⟨b, hb⟩
    · exact .inl (ha.bind_barren h')
    · exact .inr ⟨a ++ b, yields_bind ha hb⟩

/-- What two pairs of passes yield one after the other is what each yields, put together. -/
theorem yields_bind_inv {r w s x : CursorM Unit} (h : Tandem r w) (h' : Tandem s x) {bytes : Bytes}
    (hy : Yields (r >>= fun _ => s) (w >>= fun _ => x) bytes) :
    ∃ a b, bytes = a ++ b ∧ Yields r w a ∧ Yields s x b := by
  rcases h with h | ⟨a, ha⟩
  · exact ((h.bind h').not_yields hy).elim
  · rcases h' with h' | ⟨b, hb⟩
    · exact ((ha.bind_barren h').not_yields hy).elim
    · exact ⟨a, b, hy.unique (yields_bind ha hb), ha, hb⟩

theorem yields_ofExcept_inv {α : Type} {x : Except CodecError α} {r w : α → CursorM Unit}
    {bytes : Bytes} (h : Yields (ofExcept x >>= r) (ofExcept x >>= w) bytes) :
    ∃ a, x = .ok a ∧ Yields (r a) (w a) bytes := by
  cases x with
  | error e => exact ((barren_throw e).not_yields h).elim
  | ok a => exact ⟨a, rfl, h⟩

/-! ## Bytes -/

theorem reserves_reserve (n : Nat) : Reserves (reserve n) n [] := by
  intro c
  simp

theorem emits_write (bytes : Bytes) : Emits (write bytes) bytes [] := by
  intro c hc
  rw [runFrom_write, if_pos hc.room]
  rfl

theorem emits_writeAll (pieces : List Bytes) : Emits (writeAll pieces) pieces.flatten [] := by
  induction pieces with
  | nil =>
    intro c _
    simp [writeAll]
  | cons piece rest ih =>
    intro c hc
    rw [List.flatten_cons] at hc ⊢
    rw [List.length_append] at hc
    have hc' : c.Ready (piece.length + rest.flatten.length) ([] ++ []) := hc
    unfold writeAll
    rw [runFrom_bind_ok (emits_write piece c hc'.left), ih _ hc'.right,
      Cursor.filled_filled (by have := hc.room; omega)]
    rfl

theorem yields_pieces (pieces : List Bytes) :
    Yields (reserve pieces.flatten.length) (writeAll pieces) pieces.flatten :=
  ⟨[], reserves_reserve _, emits_writeAll pieces⟩

/-! ## Relations between two passes -/

/-- A relation between measuring and writing passes that a whole takes over from its parts. -/
structure Composable (R : CursorM Unit → CursorM Unit → Prop) : Prop where
  nothing : R (pure ()) (pure ())
  fault (e : CodecError) : R (throw e) (throw e)
  bytes (pieces : List Bytes) : R (reserve pieces.flatten.length) (writeAll pieces)
  bind {r w s x : CursorM Unit} : R r w → R s x → R (r >>= fun _ => s) (w >>= fun _ => x)

/-- Both passes look at the same part of a value first. -/
theorem Composable.ofExcept {R : CursorM Unit → CursorM Unit → Prop} (hR : Composable R) {α : Type}
    (x : Except CodecError α) {r w : α → CursorM Unit} (h : ∀ a, x = .ok a → R (r a) (w a)) :
    R (ofExcept x >>= r) (ofExcept x >>= w) := by
  cases x with
  | error e => exact hR.fault e
  | ok a => exact h a rfl

theorem composable_tandem : Composable Tandem where
  nothing := tandem_pure
  fault e := .inl (barren_throw e)
  bytes pieces := .inr ⟨_, yields_pieces pieces⟩
  bind := Tandem.bind

end CursorM

/-! ## Codecs whose passes agree -/

namespace Codec

/-- The bytes that the passes of a codec yield for a value. -/
def Yields (c : Codec) (v : Value) (bytes : Bytes) : Prop :=
  CursorM.Yields (c.reserve v) (c.write v) bytes

/-- The two passes of a codec agree on every value. -/
def Regular (c : Codec) : Prop := ∀ v, CursorM.Tandem (c.reserve v) (c.write v)

theorem regular_fail (e : CodecError) : (fail e).Regular := fun _ => .inl (CursorM.barren_throw e)

theorem measure_of_reserves {c : Codec} {v : Value} {n : Nat} {frames : List Nat}
    (h : CursorM.Reserves (c.reserve v) n frames) : c.measure v = .ok n := by
  unfold measure
  rw [h {}]
  simp

/-- What the measuring pass leaves is a buffer for just what was measured. -/
theorem alloc_measured (n : Nat) (frames : List Nat) :
    Cursor.alloc { limit := 0 + n, frames := [] ++ frames } = CursorM.blank n frames := by
  simp [Cursor.alloc, CursorM.blank]

theorem encode_of_yields {c : Codec} {v : Value} {bytes : Bytes} (h : c.Yields v bytes) :
    c.encode v = .ok bytes := by
  obtain ⟨fs, hm, hw⟩ := h
  unfold encode
  rw [hm {}]
  dsimp only
  rw [alloc_measured, hw _ (CursorM.ready_blank _ _)]
  dsimp only
  rw [CursorM.buffer_filled_blank]

theorem encode_of_barren {c : Codec} {v : Value} (h : CursorM.Barren (c.reserve v) (c.write v)) :
    ∃ e, c.encode v = .error e := by
  unfold encode
  cases h with
  | refused e hr =>
    obtain ⟨d, hd⟩ := hr {}
    rw [hd]
    exact ⟨e, rfl⟩
  | failed n fs e hm he hw =>
    obtain ⟨d, hd⟩ := hw _ (CursorM.ready_blank n fs)
    rw [hm {}]
    dsimp only
    rw [alloc_measured, hd]
    exact ⟨e, rfl⟩

/-- The encoding of a value is what the passes yield for it. -/
theorem encode_eq_ok_iff {c : Codec} (hc : c.Regular) {v : Value} {bytes : Bytes} :
    c.encode v = .ok bytes ↔ c.Yields v bytes := by
  refine ⟨fun h => ?_, encode_of_yields⟩
  rcases hc v with hb | ⟨b, hb⟩
  · obtain ⟨e, he⟩ := encode_of_barren hb
    rw [he] at h
    cases h
  · have hy : c.Yields v b := hb
    rw [encode_of_yields hy] at h
    cases h
    exact hy

end Codec

end WireSchema
