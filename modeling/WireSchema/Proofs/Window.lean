import WireSchema.Proofs.SchemaRoundTrip

/-!
# Readers and their windows

A reader sees the bytes from the position up to the limit and nothing else of the cursor: what it
gives and how far it moves, also when it fails, is a function of these bytes, and it moves nothing
but the position (`Composed.reads_window`).  This holds of every codec that is built from primitive
kinds, choices and declared types by framing and sequencing.  In a frame the payload's reader sees
the payload alone, whatever stands behind it.
-/

namespace WireSchema

namespace Codec

open CursorM

/-- A codec built from primitive kinds, choices and the types of schemas that reach no external
type. -/
inductive Composed : Codec → Prop
  | primitive (p : Primitive) : Composed p.codec
  | choice (e : Choice) : Composed e.codec
  | type {s : Schema} {b : Bindings} {name : String} {c : Codec}
      (hclosed : s.types.Throughout (s.types.IsClosed b) name) (hc : s.codec? b name = .ok c) :
      Composed c
  | frame {c : Codec} (h : Composed c) : Composed c.frame
  | sequence {c : Codec} (h : Composed c) : Composed c.sequence

/-- What codecs take over from their parts holds of composed codecs, once it does of types. -/
theorem Composed.of_inherited {P : Codec → Prop} (hP : Inherited P)
    (htype : ∀ {t : TypeTable} {b : Bindings} {name : String},
      t.Throughout (t.IsClosed b) name → P (t.typeCodec b name))
    {c : Codec} (h : c.Composed) : P c := by
  induction h with
  | primitive p => exact hP.primitive p
  | choice e => exact hP.choice e
  | type hclosed hc =>
    rw [Schema.codec?_eq_ok hc]
    exact htype hclosed
  | frame _ ih => exact hP.frame ih
  | sequence _ ih => exact hP.sequence ih

theorem Composed.confined {c : Codec} (h : c.Composed) : Confined c.read :=
  h.of_inherited inherited_confined TypeTable.confined_typeCodec

theorem Composed.regular {c : Codec} (h : c.Composed) : c.Regular :=
  h.of_inherited inherited_regular TypeTable.regular_typeCodec

/-- An unsigned number is written as a variable-length integer. -/
theorem encode_uint_eq_ok {n : UInt64} {bytes : Bytes}
    (h : Primitive.uint.codec.encode (.uint n) = .ok bytes) : bytes = Varint.bytes n.toNat := by
  obtain ⟨pieces, hpieces, rfl⟩ :=
    Primitive.pieces_of_yields ((encode_eq_ok_iff Primitive.uint.regular_codec).mp h)
  rw [Primitive.pieces, Choice.toUInt64_uint] at hpieces
  cases hpieces
  rfl

/-- Behind its length a frame gives what the payload's reader gives on the payload alone, and ends
at the payload's end. -/
theorem run_frame {c : Codec} (hc : Confined c.read) {payload suffix : Bytes} {d : Cursor}
    (hd : d.WellFormed) (hfits : payload.length < 0x10000000000000000)
    (hw : d.window = Varint.bytes payload.length ++ payload ++ suffix) :
    (c.frame.read.runFrom d).1 = (c.read.runFrom (Cursor.ofBytes payload)).1 ∧
      ∀ v, (c.frame.read.runFrom d).1 = .ok v →
        (c.frame.read.runFrom d).2.pos =
          d.pos + (Varint.bytes payload.length).length + payload.length := by
  have hframe := parse_frame_append hc hfits suffix
  rw [← hw] at hframe
  have halone := (hc _ (Cursor.wellFormed_ofBytes payload)).2
  rw [Cursor.window_ofBytes] at halone
  rw [halone]
  cases hp : c.read.parse payload with
  | error e =>
    rw [hp] at hframe
    rw [((confined_frame hc).run_error hd hframe).1]
    exact ⟨rfl, nofun⟩
  | ok p =>
    rw [hp] at hframe
    rw [((confined_frame hc).run_ok hd hframe).1]
    refine ⟨rfl, fun _ _ => ?_⟩
    simp [Cursor.advance, Nat.add_assoc]

/-- The outcome of a reader and its move are told by the window, and it moves only the position, up
to the limit at most.  A frame with bytes behind it gives what its payload gives alone, and when it
succeeds the position is right behind the payload. -/
theorem Composed.reads_window {c : Codec} (h : c.Composed) :
    (∃ outcome : Bytes → Except CodecError Value × Nat, ∀ d : Cursor, d.WellFormed →
      c.read.runFrom d =
          ((outcome d.window).1, { d with pos := d.pos + (outcome d.window).2 }) ∧
        d.pos + (outcome d.window).2 ≤ d.limit) ∧
      ∀ (n : UInt64) (head payload suffix : Bytes) (d : Cursor), n.toNat = payload.length →
        Primitive.uint.codec.encode (.uint n) = .ok head → d.WellFormed →
        d.window = head ++ payload ++ suffix →
          (c.frame.read.runFrom d).1 = (c.read.runFrom (Cursor.ofBytes payload)).1 ∧
          ∀ v, (c.frame.read.runFrom d).1 = .ok v →
            (c.frame.read.runFrom d).2.pos = d.pos + head.length + payload.length := by
  constructor
  · refine ⟨fun w => ((c.read.parse w).map Prod.fst, c.read.passed w), fun d hd => ?_⟩
    obtain ⟨hle, hrun⟩ := h.confined d hd
    have hpos := hd.1
    rw [Cursor.length_window hd] at hle
    exact ⟨hrun, by dsimp only; omega⟩
  · intro n head payload suffix d hlen hhead hd hw
    obtain rfl := encode_uint_eq_ok hhead
    rw [hlen] at hw ⊢
    exact run_frame h.confined hd (hlen ▸ n.toNat_lt) hw

/-- A framed node in the middle of a buffer: the node stops early in its frame, the bytes behind it
are skipped up to the frame's end, and neither the byte in front nor those behind matter. -/
theorem reads_window_tree :
    ((Schema.tree.types.typeCodec {} "@a/node").frame.read.runFrom
        { pos := 1, limit := 9, buffer := [255, 5, 7, 0, 9, 9, 9, 3, 3, 1] }).1 =
        .ok (.struct [("id", .uint 7), ("kids", .null), ("on", .bool false), ("tag", .null)]) ∧
      ((Schema.tree.types.typeCodec {} "@a/node").frame.read.runFrom
        { pos := 1, limit := 9, buffer := [255, 5, 7, 0, 9, 9, 9, 3, 3, 1] }).2.pos = 7 ∧
      ∃ outcome : Bytes → Except CodecError Value × Nat, ∀ d : Cursor, d.WellFormed →
        (Schema.tree.types.typeCodec {} "@a/node").frame.sequence.read.runFrom d =
            ((outcome d.window).1, { d with pos := d.pos + (outcome d.window).2 }) ∧
          d.pos + (outcome d.window).2 ≤ d.limit := by
  have hcodec : Schema.tree.codec? {} "@a/node" =
      .ok (Schema.tree.types.typeCodec {} "@a/node") := rfl
  have hnode : (Schema.tree.types.typeCodec {} "@a/node").Composed :=
    .type (fun _ _ _ _ _ _ => rfl) hcodec
  obtain ⟨hgives, hends⟩ := hnode.reads_window.2 5 [5] [7, 0, 9, 9, 9] [3, 3]
    { pos := 1, limit := 9, buffer := [255, 5, 7, 0, 9, 9, 9, 3, 3, 1] } rfl (by decide +kernel)
    ⟨by decide, by decide⟩ rfl
  have halone : ((Schema.tree.types.typeCodec {} "@a/node").read.runFrom
      (Cursor.ofBytes [7, 0, 9, 9, 9])).1 =
        .ok (.struct [("id", .uint 7), ("kids", .null), ("on", .bool false), ("tag", .null)]) := by
    rfl
  rw [halone] at hgives
  exact ⟨hgives, hends _ hgives, hnode.frame.sequence.reads_window.1⟩

end Codec

end WireSchema
