import WireSchema.Codec.Frame
import WireSchema.Proofs.Integer

/-!
# Framed values

A frame is written as the length of its payload and the payload (`yields_frame`,
`frame_yields_inv`). Its reader hands the payload's reader just the announced bytes and goes on
behind them (`parse_frame`), so a reader of a frame never depends on what follows the frame.
-/

namespace WireSchema

namespace Codec

open CursorM

/-! ## Measuring and writing -/

theorem reserves_frame {c : Codec} {v : Value} {n : Nat} {fs : List Nat}
    (h : Reserves (c.reserve v) n fs) :
    Reserves (c.frame.reserve v) (Varint.size n + n) (n :: fs) := by
  intro d
  have hopen : openFrame.runFrom d = (.ok d.frames.length, { d with frames := d.frames ++ [0] }) :=
    rfl
  simp only [frame]
  rw [runFrom_bind_ok hopen, runFrom_bind_ok (runFrom_get _), runFrom_bind_ok (h _),
    runFrom_bind_ok (runFrom_get _)]
  dsimp only
  rw [Nat.add_sub_cancel_left, closeFrame, runFrom_bind_ok (runFrom_modify _ _), Varint.reserve,
    runFrom_reserve]
  simp [Nat.add_assoc, Nat.add_comm n]

theorem refuses_frame {c : Codec} {v : Value} {e : CodecError} (h : Refuses (c.reserve v) e) :
    Refuses (c.frame.reserve v) e := by
  intro d
  have hopen : openFrame.runFrom d = (.ok d.frames.length, { d with frames := d.frames ++ [0] }) :=
    rfl
  obtain ⟨d', hd'⟩ := h { d with frames := d.frames ++ [0] }
  refine ⟨d', ?_⟩
  simp only [frame]
  rw [runFrom_bind_ok hopen, runFrom_bind_ok (runFrom_get _), runFrom_bind_error hd']

theorem runFrom_takeFrame_some {d : Cursor} {n : Nat} (h : d.frames[d.nextFrame]? = some n) :
    takeFrame.runFrom d = (.ok (some n), { d with nextFrame := d.nextFrame + 1 }) := by
  unfold takeFrame
  rw [runFrom_bind_ok (runFrom_get d), h]
  rfl

theorem runFrom_takeFrame_none {d : Cursor} (h : d.frames[d.nextFrame]? = none) :
    takeFrame.runFrom d = (.ok none, d) := by
  unfold takeFrame
  rw [runFrom_bind_ok (runFrom_get d), h]
  rfl

/-- The next frame length of a cursor that is ready for a frame. -/
theorem getElem?_nextFrame {d : Cursor} {n k : Nat} {fs : List Nat} (h : d.Ready k (n :: fs)) :
    d.frames[d.nextFrame]? = some n := by
  obtain ⟨-, rest, hq⟩ := h
  rw [← List.head?_drop, hq]
  rfl

/-- The length of the next frame is the next one that was recorded. -/
theorem runFrom_frameLength {c : Codec} {v : Value} {d : Cursor} {n k : Nat} {fs : List Nat}
    (h : d.Ready k (n :: fs)) :
    (c.frameLength v).runFrom d = (.ok n, { d with nextFrame := d.nextFrame + 1 }) := by
  unfold frameLength
  rw [runFrom_bind_ok (runFrom_takeFrame_some (getElem?_nextFrame h))]
  rfl

/-- Behind the length of a frame the cursor is ready for the payload. -/
theorem ready_payload {d : Cursor} {n : Nat} {fs : List Nat}
    (h : d.Ready (Varint.size n + n) (n :: fs)) : (d.filled (Varint.bytes n) 1).Ready n fs := by
  have hready : d.Ready ((Varint.bytes n).length + n) ([n] ++ fs) := by
    rw [Varint.length_bytes]
    exact h
  exact hready.right

/-- The length that was taken is written in front of the payload. -/
theorem runFrom_announce {d : Cursor} {n : Nat} {fs : List Nat}
    (h : d.Ready (Varint.size n + n) (n :: fs)) :
    (Varint.write n).runFrom { d with nextFrame := d.nextFrame + 1 } =
      (.ok (), d.filled (Varint.bytes n) 1) := by
  have hroom := h.room
  refine emits_writeAll (Varint.pieces n) _ ⟨?_, _, rfl⟩
  show d.pos + (Varint.bytes n).length ≤ d.buffer.length
  rw [Varint.length_bytes]
  omega

/-- Writing a frame comes down to writing its payload behind the length. -/
theorem runFrom_frame_write {c : Codec} {v : Value} {d : Cursor} {n : Nat} {fs : List Nat}
    (h : d.Ready (Varint.size n + n) (n :: fs)) :
    (c.frame.write v).runFrom d =
      (do
        c.write v
        let written := (← get).pos - (d.pos + Varint.size n)
        if written = n then pure () else throw (.frameMismatch n written) :
          CursorM Unit).runFrom (d.filled (Varint.bytes n) 1) := by
  have hpos : (d.filled (Varint.bytes n) 1).pos = d.pos + Varint.size n := by
    rw [← Varint.length_bytes]
    rfl
  simp only [frame]
  rw [runFrom_bind_ok (runFrom_frameLength h), runFrom_bind_ok (runFrom_announce h),
    runFrom_bind_ok (runFrom_get _), hpos]

theorem yields_frame {c : Codec} {v : Value} {b : Bytes} (h : c.Yields v b) :
    c.frame.Yields v (Varint.bytes b.length ++ b) := by
  obtain ⟨fs, hr, hw⟩ := h
  have hlen := Varint.length_bytes b.length
  refine ⟨b.length :: fs, ?_, ?_⟩
  · rw [List.length_append, hlen]
    exact reserves_frame hr
  · intro d hd
    rw [List.length_append, hlen] at hd
    have hroom := hd.room
    have hpos : ((d.filled (Varint.bytes b.length) 1).filled b fs.length).pos -
        (d.pos + Varint.size b.length) = b.length := by
      simp only [Cursor.filled, hlen]
      omega
    rw [runFrom_frame_write hd, runFrom_bind_ok (hw _ (ready_payload hd)),
      runFrom_bind_ok (runFrom_get _), hpos, if_pos rfl, runFrom_pure,
      Cursor.filled_filled (by omega), List.length_cons, Nat.add_comm 1]

theorem barren_frame {c : Codec} {v : Value} (h : Barren (c.reserve v) (c.write v)) :
    Barren (c.frame.reserve v) (c.frame.write v) := by
  cases h with
  | refused e h => exact .refused e (refuses_frame h)
  | failed n fs e hm he hw =>
    refine .failed _ _ e (reserves_frame hm) he fun d hd => ?_
    obtain ⟨d', hd'⟩ := hw _ (ready_payload hd)
    exact ⟨d', by rw [runFrom_frame_write hd, runFrom_bind_error hd']⟩

theorem regular_frame {c : Codec} (h : c.Regular) : c.frame.Regular := by
  intro v
  rcases h v with hb | ⟨b, hb⟩
  · exact .inl (barren_frame hb)
  · exact .inr ⟨_, yields_frame hb⟩

/-- What a frame writes is the length of its payload and the payload. -/
theorem frame_yields_inv {c : Codec} (hc : c.Regular) {v : Value} {bytes : Bytes}
    (h : c.frame.Yields v bytes) :
    ∃ b, bytes = Varint.bytes b.length ++ b ∧ c.Yields v b := by
  rcases hc v with hb | ⟨b, hb⟩
  · exact ((barren_frame hb).not_yields h).elim
  · exact ⟨b, h.unique (yields_frame hb), hb⟩

/-- A frame takes at least the byte of its length. -/
theorem not_yields_frame {c : Codec} (hc : c.Regular) (v : Value) : ¬ c.frame.Yields v [] := by
  intro hy
  obtain ⟨b, hb, -⟩ := frame_yields_inv hc hy
  exact Varint.bytes_ne_nil _ (List.append_eq_nil_iff.mp hb.symm).1

/-! ## Reading -/

theorem runFrom_within {α : Type} (limit : Nat) (step : CursorM α) (d : Cursor) :
    (within limit step).runFrom d =
      ((step.runFrom { d with limit := limit }).1,
        { (step.runFrom { d with limit := limit }).2 with limit := d.limit }) := rfl

/-- Reads a payload of a known length. -/
def readPayload (c : Codec) (length : Nat) : CursorM Value := do
  let cursor ← get
  let frameEnd := cursor.pos + length
  if frameEnd ≤ cursor.limit then
    let v ← within frameEnd c.read
    modify fun c => { c with pos := frameEnd }
    return v
  else throw .unexpectedEnd

theorem frame_read (c : Codec) : c.frame.read = Varint.read >>= c.readPayload := rfl

theorem outcome_readPayload {c : Codec} (hc : Confined c.read) (n : Nat) :
    Outcome (c.readPayload n)
      (fun w => if n ≤ w.length then (c.read.parse (w.take n)).map fun p => (p.1, n)
        else .error .unexpectedEnd)
      fun w => if n ≤ w.length then
          match c.read.parse (w.take n) with
          | .ok _ => n
          | .error _ => c.read.passed (w.take n)
        else 0 := by
  -- the payload's reader runs on a cursor whose window is the frame
  have hwf {d : Cursor} (hd : d.WellFormed) (hn : n ≤ d.window.length) :
      ({ d with limit := d.pos + n } : Cursor).WellFormed := by
    rw [Cursor.length_window hd] at hn
    have := hd.1
    have := hd.2
    constructor <;> simp only <;> omega
  have hwin {d : Cursor} (hd : d.WellFormed) (hn : n ≤ d.window.length) :
      ({ d with limit := d.pos + n } : Cursor).window = d.window.take n := by
    rw [Cursor.length_window hd] at hn
    simp only [Cursor.window, Nat.add_sub_cancel_left, List.take_take]
    rw [Nat.min_eq_left hn]
  refine ⟨fun d hd => ?_, fun d hd => ?_, fun w v m hm => ?_⟩
  · split
    · rename_i hn
      split
      · exact hn
      · have hle := (hc _ (hwf hd hn)).1
        rw [hwin hd hn, List.length_take] at hle
        omega
    · exact Nat.zero_le _
  · have hlen := Cursor.length_window hd
    have h1 := hd.1
    unfold readPayload
    rw [runFrom_bind_ok (runFrom_get d)]
    dsimp only
    by_cases hn : n ≤ d.window.length
    · rw [if_pos (by omega), if_pos hn, if_pos hn]
      have hwithin : (within (d.pos + n) c.read).runFrom d =
          ((c.read.parse (d.window.take n)).map Prod.fst,
            d.advance (c.read.passed (d.window.take n))) := by
        rw [runFrom_within, (hc _ (hwf hd hn)).2, hwin hd hn]
        rfl
      cases hp : c.read.parse (d.window.take n) with
      | error e =>
        rw [hp] at hwithin
        rw [runFrom_bind_error hwithin]
        rfl
      | ok p =>
        rw [hp] at hwithin
        rw [runFrom_bind_ok hwithin, runFrom_bind_ok (runFrom_modify _ _)]
        rfl
    · rw [if_neg (by omega), if_neg hn, if_neg hn]
      rfl
  · by_cases hn : n ≤ w.length
    · rw [if_pos hn] at hm ⊢
      cases hp : c.read.parse (w.take n) with
      | error e => rw [hp] at hm; cases hm
      | ok p => rw [hp] at hm; cases hm; rfl
    · rw [if_neg hn] at hm
      cases hm

theorem confined_frame {c : Codec} (hc : Confined c.read) : Confined c.frame.read :=
  confined_bind Varint.confined_varint fun n => (outcome_readPayload hc n).confined

theorem onward_readPayload {c : Codec} (hc : Onward c.read) (n : Nat) :
    Onward (c.readPayload n) := by
  intro d v d' hd hrun
  unfold readPayload at hrun
  rw [runFrom_bind_ok (runFrom_get d)] at hrun
  dsimp only at hrun
  split at hrun
  · rename_i hle
    have hwf : ({ d with limit := d.pos + n } : Cursor).WellFormed :=
      ⟨Nat.le_add_right _ _, Nat.le_trans hle hd.2⟩
    rcases h : c.read.runFrom { d with limit := d.pos + n } with ⟨e | w, after⟩
    · rw [runFrom_bind_error (by rw [runFrom_within, h])] at hrun
      cases hrun
    · obtain ⟨k, rfl, -⟩ := hc _ w after hwf h
      rw [runFrom_bind_ok (by rw [runFrom_within, h]), runFrom_bind_ok (runFrom_modify _ _)] at hrun
      cases hrun
      exact ⟨n, rfl, hle⟩
  · cases hrun

theorem onward_frame {c : Codec} (hc : Onward c.read) : Onward c.frame.read :=
  onward_bind Varint.confined_varint.onward (onward_readPayload hc)

/-- A frame is read as its length and as many bytes. -/
theorem parse_frame {c : Codec} (hc : Confined c.read) {w : Bytes} {n k : Nat}
    (h : Varint.read.parse w = .ok (n, k)) :
    c.frame.read.parse w =
      if n ≤ (w.drop k).length then
        (c.read.parse ((w.drop k).take n)).map fun p => (p.1, k + n)
      else .error .unexpectedEnd := by
  rw [frame_read, parse_bind_ok Varint.confined_varint
    (fun n => (outcome_readPayload hc n).confined) h, (outcome_readPayload hc n).parse_eq]
  split
  · cases c.read.parse ((w.drop k).take n) <;> rfl
  · rfl

/-- A frame is read back by what its payload's reader makes of the payload alone. -/
theorem parse_frame_append {c : Codec} (hc : Confined c.read) {b : Bytes}
    (hb : b.length < 0x10000000000000000) (s : Bytes) :
    c.frame.read.parse (Varint.bytes b.length ++ b ++ s) =
      (c.read.parse b).map fun p => (p.1, (Varint.bytes b.length ++ b).length) := by
  have hn := Varint.parse_varint_append hb (b ++ s)
  rw [← Varint.length_bytes] at hn
  rw [List.append_assoc, parse_frame hc hn, List.drop_left, if_pos (by simp), List.take_left,
    List.length_append]

/-- A payload is read behind the length of its frame. -/
theorem runFrom_frame_congr {c c' : Codec} {d : Cursor} (hd : d.WellFormed)
    (h : ∀ d', d.Ahead 1 d' → c'.read.runFrom d' = c.read.runFrom d') :
    c'.frame.read.runFrom d = c.frame.read.runFrom d := by
  rw [frame_read, frame_read]
  refine runFrom_bind_congr Varint.confined_varint hd rfl fun n k hp hk => ?_
  have hpos := Varint.parse_varint_pos hp
  unfold readPayload
  rw [runFrom_bind_ok (runFrom_get _), runFrom_bind_ok (runFrom_get _)]
  dsimp only
  split
  · rename_i hle
    have hahead : d.Ahead 1 { d.advance k with limit := (d.advance k).pos + n } :=
      ⟨rfl, (hk.mono hpos).pos, Nat.le_add_right _ _, hle⟩
    have hwithin : (within ((d.advance k).pos + n) c'.read).runFrom (d.advance k) =
        (within ((d.advance k).pos + n) c.read).runFrom (d.advance k) := by
      rw [runFrom_within, runFrom_within, h _ hahead]
    rw [runFrom_bind, runFrom_bind, hwithin]
  · rfl

end Codec

end WireSchema
