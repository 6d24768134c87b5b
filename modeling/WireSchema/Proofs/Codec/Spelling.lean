import WireSchema.Proofs.Codec.Choice
import WireSchema.Proofs.Codec.Record
import WireSchema.Proofs.Codec.Tagged

/-!
# What a writing pass leaves behind

A writing pass may run on a cursor that no measuring pass prepared for it: the frame lengths that it
takes were recorded for something else, or there are none and it measures again.  A pair of passes
*spells* bytes when these are plain bytes, parts one after the other, or a payload behind its length
(`CursorM.Spells`).  A writing pass is *faithful* when each of its successes spells the bytes that it
leaves, whatever the cursor (`CursorM.Faithful`).  A wrong frame length cannot slip through, since a
frame compares the length it announced with what its payload wrote (`Codec.faithful_frame`).
-/

namespace WireSchema

/-! ## Bytes left in a buffer -/

namespace Cursor

variable {c d e : Cursor} {a b bytes : Bytes} {m n taken : Nat}

/-- The second cursor is the first after these bytes were written, for which there was room, and so
many frame lengths were taken. -/
structure Wrote (c : Cursor) (bytes : Bytes) (taken : Nat) (d : Cursor) : Prop where
  eq : d = c.filled bytes taken
  room : bytes ≠ [] → c.pos + bytes.length ≤ c.buffer.length

theorem filled_nil_right (c : Cursor) (a : Bytes) (m n : Nat) :
    (c.filled a m).filled [] n = c.filled a (m + n) := by
  simp [filled, Nat.add_assoc]

theorem filled_nil_left (c : Cursor) (b : Bytes) (m n : Nat) :
    (c.filled [] m).filled b n = c.filled b (m + n) := by
  simp [filled, Nat.add_assoc]

theorem Wrote.refl (c : Cursor) : c.Wrote [] 0 c := ⟨(filled_nil c).symm, fun h => (h rfl).elim⟩

theorem Wrote.trans (h : c.Wrote a m d) (h' : d.Wrote b n e) : c.Wrote (a ++ b) (m + n) e := by
  obtain ⟨rfl, ha⟩ := h
  obtain ⟨rfl, hb⟩ := h'
  by_cases hanil : a = []
  · subst hanil
    have hbuffer : (c.filled [] m).buffer = c.buffer := by simp [filled]
    refine ⟨filled_nil_left c b m n, fun hne => ?_⟩
    have hroom := hb hne
    rw [hbuffer] at hroom
    exact hroom
  · by_cases hbnil : b = []
    · subst hbnil
      rw [List.append_nil]
      exact ⟨filled_nil_right c a m n, ha⟩
    · have hroom := hb hbnil
      rw [length_buffer_filled (ha hanil)] at hroom
      have hroom : c.pos + a.length + b.length ≤ c.buffer.length := hroom
      refine ⟨filled_filled hroom, fun _ => ?_⟩
      rw [List.length_append, ← Nat.add_assoc]
      exact hroom

/-- The bytes that were written stand between the old position and the new one. -/
theorem Wrote.between (h : c.Wrote bytes taken d) :
    (d.buffer.drop c.pos).take (d.pos - c.pos) = bytes := by
  obtain ⟨rfl, hroom⟩ := h
  have hlength : (c.filled bytes taken).pos - c.pos = bytes.length := Nat.add_sub_cancel_left _ _
  rw [hlength]
  by_cases hnil : bytes = []
  · simp [hnil]
  · have hpos : (c.buffer.take c.pos).length = c.pos := by
      have := hroom hnil
      rw [List.length_take]
      omega
    simp only [filled]
    rw [List.append_assoc, List.drop_left' hpos, List.take_left]

end Cursor

namespace CursorM

variable {r w s x : CursorM Unit}

theorem wrote_of_write {bytes : Bytes} {c d : Cursor} (h : (write bytes).runFrom c = (.ok (), d)) :
    c.Wrote bytes 0 d := by
  rw [runFrom_write] at h
  split at h
  · rename_i hroom
    cases h
    exact ⟨rfl, fun _ => hroom⟩
  · cases h

theorem wrote_of_writeAll {pieces : List Bytes} {c d : Cursor}
    (h : (writeAll pieces).runFrom c = (.ok (), d)) : c.Wrote pieces.flatten 0 d := by
  induction pieces generalizing c with
  | nil =>
    obtain ⟨-, rfl⟩ := Prod.mk.inj h
    exact .refl _
  | cons piece rest ih =>
    obtain ⟨_, c', hpiece, hrest⟩ := runFrom_bind_inv h
    exact (wrote_of_write hpiece).trans (ih hrest)

/-! ## Spelling -/

/-- How a pair of passes over a value comes to its bytes. -/
inductive Spells : CursorM Unit → CursorM Unit → Bytes → Prop
  | nothing : Spells (pure ()) (pure ()) []
  | bytes (pieces : List Bytes) :
    Spells (reserve pieces.flatten.length) (writeAll pieces) pieces.flatten
  | both {r w s x : CursorM Unit} {a b : Bytes} (first : Spells r w a) (second : Spells s x b) :
    Spells (r >>= fun _ => s) (w >>= fun _ => x) (a ++ b)
  | frame {c : Codec} {v : Value} {b : Bytes} (payload : Spells (c.reserve v) (c.write v) b) :
    Spells (c.frame.reserve v) (c.frame.write v) (Varint.bytes b.length ++ b)

theorem Spells.yields {bytes : Bytes} (h : Spells r w bytes) : Yields r w bytes := by
  induction h with
  | nothing => exact yields_pure
  | bytes pieces => exact yields_pieces pieces
  | both _ _ ih ih' => exact yields_bind ih ih'
  | frame _ ih => exact Codec.yields_frame ih

/-- Where the writing pass succeeds, it leaves the bytes that the pair spells. -/
def Faithful (measuring writing : CursorM Unit) : Prop :=
  ∀ c d : Cursor, writing.runFrom c = (.ok (), d) →
    ∃ bytes taken, Spells measuring writing bytes ∧ c.Wrote bytes taken d

theorem faithful_pure : Faithful (pure ()) (pure ()) := by
  rintro c _ ⟨⟩
  exact ⟨[], 0, .nothing, .refl c⟩

theorem Faithful.bind (h : Faithful r w) (h' : Faithful s x) :
    Faithful (r >>= fun _ => s) (w >>= fun _ => x) := by
  intro c e hrun
  obtain ⟨_, d, hw, hx⟩ := runFrom_bind_inv hrun
  obtain ⟨a, m, ha, hcd⟩ := h c d hw
  obtain ⟨b, n, hb, hde⟩ := h' d e hx
  exact ⟨a ++ b, m + n, .both ha hb, hcd.trans hde⟩

theorem composable_faithful : Composable Faithful where
  nothing := faithful_pure
  fault _ _ _ := nofun
  bytes pieces _ _ h := ⟨pieces.flatten, 0, .bytes pieces, wrote_of_writeAll h⟩
  bind := Faithful.bind

end CursorM

/-! ## Faithful codecs -/

namespace Codec

open CursorM

/-- The writing pass of a codec is faithful for every value. -/
def Faithful (c : Codec) : Prop := ∀ v, CursorM.Faithful (c.reserve v) (c.write v)

/-- Finding out the length of a frame writes nothing. -/
theorem wrote_of_frameLength {c : Codec} {v : Value} {d d' : Cursor} {n : Nat}
    (h : (c.frameLength v).runFrom d = (.ok n, d')) : ∃ taken, d.Wrote [] taken d' := by
  cases hq : d.frames[d.nextFrame]? with
  | none =>
    unfold frameLength at h
    rw [runFrom_bind_ok (runFrom_takeFrame_none hq)] at h
    dsimp only at h
    cases hm : c.measure v with
    | error e =>
      rw [hm] at h
      cases h
    | ok k =>
      rw [hm] at h
      cases h
      exact ⟨0, .refl d⟩
  | some k =>
    unfold frameLength at h
    rw [runFrom_bind_ok (runFrom_takeFrame_some hq)] at h
    cases h
    exact ⟨1, by simp [Cursor.filled], fun hne => (hne rfl).elim⟩

/-- A frame is written when its length is found out and written, and its payload is written and has
that length. -/
theorem frame_write_eq_ok_iff {c : Codec} {v : Value} {d d' : Cursor} :
    (c.frame.write v).runFrom d = (.ok (), d') ↔
      ∃ n d₁ d₂, (c.frameLength v).runFrom d = (.ok n, d₁) ∧
        (Varint.write n).runFrom d₁ = (.ok (), d₂) ∧ (c.write v).runFrom d₂ = (.ok (), d') ∧
        d'.pos - d₂.pos = n := by
  simp only [frame]
  constructor
  · intro h
    obtain ⟨n, d₁, hlength, h⟩ := runFrom_bind_inv h
    obtain ⟨_, d₂, hannounced, h⟩ := runFrom_bind_inv h
    rw [runFrom_bind_ok (runFrom_get d₂)] at h
    obtain ⟨_, d₃, hpayload, h⟩ := runFrom_bind_inv h
    rw [runFrom_bind_ok (runFrom_get d₃)] at h
    split at h
    · rename_i heq
      cases h
      exact ⟨n, d₁, d₂, hlength, hannounced, hpayload, heq⟩
    · cases h
  · rintro ⟨n, d₁, d₂, hlength, hannounced, hpayload, heq⟩
    rw [runFrom_bind_ok hlength, runFrom_bind_ok hannounced, runFrom_bind_ok (runFrom_get _),
      runFrom_bind_ok hpayload, runFrom_bind_ok (runFrom_get _), if_pos heq, runFrom_pure]

theorem faithful_frame {c : Codec} (h : c.Faithful) : c.frame.Faithful := by
  intro v d d' hrun
  obtain ⟨n, d₁, d₂, hlength, hannounced, hpayload, heq⟩ := frame_write_eq_ok_iff.mp hrun
  obtain ⟨k, hd₁⟩ := wrote_of_frameLength hlength
  have hd₂ : d₁.Wrote (Varint.bytes n) 0 d₂ := wrote_of_writeAll hannounced
  obtain ⟨b, taken, hb, hd'⟩ := h v d₂ d' hpayload
  -- the length that was announced is the payload's, wherever it came from
  have hn : n = b.length := by
    rw [← heq, hd'.eq]
    exact Nat.add_sub_cancel_left _ _
  rw [hn] at hd₂
  exact ⟨_, _, .frame hb, hd₁.trans (hd₂.trans hd')⟩

end Codec

theorem Primitive.faithful_codec (p : Primitive) : p.codec.Faithful := by
  intro v
  rw [codec_reserve, codec_write]
  cases hp : p.pieces v with
  | error e => exact fun _ _ => nofun
  | ok ps =>
    rw [announces_pieces p v ps hp]
    exact CursorM.composable_faithful.bytes ps

end WireSchema
