import WireSchema.Proofs.Codec.Spelling
import WireSchema.Proofs.Window

/-!
# The queue of frame lengths

The measuring pass records the lengths of frames in one flat queue, in the order in which the frames
are opened, and the writing pass takes them by their place in the queue.  Values that share a cursor
share the queue.  When all of them are measured and then all are written in the same order, each
frame takes back the length that it recorded (`CursorM.Replays`), so the buffer ends up with the
encodings one after the other (`Codec.write_jobs`).

A cursor may also hold a queue that was recorded for something else.  Then a value is written as it
is encoded or not at all, and a queue with nothing left in it is as good as the right one
(`Codec.Composed.write_unprepared`).
-/

namespace WireSchema

namespace CursorM

/-! ## Each frame and its length -/

/-- The frames that the passes over a value come by, when the measuring pass starts at one cursor and
the writing pass at another.  A frame is told by its place in the queue of lengths: the measuring
pass opens that place and records a length there, and the writing pass, at the same frame, takes the
length from that place. -/
inductive Replays : CursorM Unit → CursorM Unit → Cursor → Cursor → List Nat → Prop
  | nothing {d e : Cursor} : Replays (pure ()) (pure ()) d e []
  | bytes {n : Nat} {pieces : List Bytes} {d e : Cursor} : Replays (reserve n) (writeAll pieces) d e []
  | both {r w s x : CursorM Unit} {d d' e e' : Cursor} {first second : List Nat}
      (measured : r.runFrom d = (.ok (), d')) (written : w.runFrom e = (.ok (), e'))
      (head : Replays r w d e first) (tail : Replays s x d' e' second) :
      Replays (r >>= fun _ => s) (w >>= fun _ => x) d e (first ++ second)
  | frame {c : Codec} {v : Value} {d d₁ d₂ e e₁ e₂ : Cursor} {slot length : Nat}
      {inner : List Nat} (opened : openFrame.runFrom d = (.ok slot, d₁))
      (measured : (c.frame.reserve v).runFrom d = (.ok (), d₂))
      (recorded : d₂.frames[slot]? = some length) (next : e.nextFrame = slot)
      (taken : takeFrame.runFrom e = (.ok (some length), e₁))
      (announced : (Varint.write length).runFrom e₁ = (.ok (), e₂))
      (payload : Replays (c.reserve v) (c.write v) d₁ e₂ inner) :
      Replays (c.frame.reserve v) (c.frame.write v) d e (slot :: inner)

/-- On a cursor that is ready for what the measuring pass records, at the place where it records it,
each frame takes back its own length, and the frames come by in the order of the queue. -/
theorem Spells.replays {r w : CursorM Unit} {b : Bytes} (h : Spells r w b) {fs : List Nat}
    (hr : Reserves r b.length fs) {d e : Cursor} (hready : e.Ready b.length fs)
    (hnext : e.nextFrame = d.frames.length) :
    Replays r w d e (List.range' d.frames.length fs.length) := by
  induction h generalizing fs d e with
  | nothing =>
    have hnone : Reserves (pure ()) 0 [] := fun c => by simp
    obtain ⟨-, rfl⟩ := hr.unique hnone
    exact .nothing
  | bytes pieces =>
    obtain ⟨-, rfl⟩ := hr.unique (reserves_reserve _)
    exact .bytes
  | both first second ih ih' =>
    obtain ⟨gs, hr₁, hw₁⟩ := first.yields
    obtain ⟨hs, hr₂, -⟩ := second.yields
    obtain ⟨-, rfl⟩ := hr.unique (reserves_bind hr₁ hr₂)
    rw [List.length_append] at hready
    rw [List.length_append, ← List.range'_append_1]
    refine .both (hr₁ d) (hw₁ e hready.left) (ih hr₁ hready.left hnext) ?_
    -- both passes have come as far in the queue when the second part starts
    have hafter : (d.frames ++ gs).length = d.frames.length + gs.length := List.length_append
    rw [← hafter]
    refine ih' hr₂ hready.right ?_
    simp only [Cursor.filled]
    rw [hnext, hafter]
  | @frame c v b payload ih =>
    obtain ⟨gs, hr₁, hw₁⟩ := payload.yields
    have hmeasured := Codec.reserves_frame hr₁
    obtain ⟨-, rfl⟩ := hr.unique hmeasured
    rw [List.length_append, Varint.length_bytes] at hready
    rw [List.length_cons, List.range'_succ]
    refine .frame rfl (hmeasured d) ?_ hnext
      (Codec.runFrom_takeFrame_some (Codec.getElem?_nextFrame hready))
      (Codec.runFrom_announce hready) ?_
    · simp
    · -- inside the frame both passes are one place further in the queue
      have hopened : (d.frames ++ [0]).length = d.frames.length + 1 := by simp
      rw [← hopened]
      refine ih hr₁ (Codec.ready_payload hready) ?_
      simp only [Cursor.filled]
      rw [hnext, hopened]

/-! ## An exhausted queue -/

/-- With no frame length left in the queue, each frame measures its payload again and the same bytes
are written. -/
theorem Spells.runFrom_exhausted {r w : CursorM Unit} {b : Bytes} (h : Spells r w b) {d : Cursor}
    (hnone : d.frames.length ≤ d.nextFrame) (hroom : d.pos + b.length ≤ d.buffer.length) :
    w.runFrom d = (.ok (), d.filled b 0) := by
  induction h generalizing d with
  | nothing => simp
  | bytes pieces => exact emits_writeAll pieces d ⟨hroom, _, rfl⟩
  | @both r w s x a b _ _ ih ih' =>
    rw [List.length_append, ← Nat.add_assoc] at hroom
    have hfirst : d.pos + a.length ≤ d.buffer.length := by omega
    have hsecond := ih' (d := d.filled a 0) hnone (by
      rw [Cursor.length_buffer_filled hfirst]
      exact hroom)
    rw [runFrom_bind_ok (ih hnone hfirst), hsecond, Cursor.filled_filled hroom]
  | @frame c v b payload ih =>
    rw [List.length_append, ← Nat.add_assoc] at hroom
    have hfirst : d.pos + (Varint.bytes b.length).length ≤ d.buffer.length := by omega
    obtain ⟨fs, hr, -⟩ := payload.yields
    have hlength : (c.frameLength v).runFrom d = (.ok b.length, d) := by
      unfold Codec.frameLength
      rw [runFrom_bind_ok (Codec.runFrom_takeFrame_none (List.getElem?_eq_none hnone)),
        Codec.measure_of_reserves hr]
      rfl
    have hannounce : (Varint.write b.length).runFrom d =
        (.ok (), d.filled (Varint.bytes b.length) 0) :=
      emits_writeAll (Varint.pieces b.length) d ⟨hfirst, _, rfl⟩
    have hpayload := ih (d := d.filled (Varint.bytes b.length) 0) hnone (by
      rw [Cursor.length_buffer_filled hfirst]
      exact hroom)
    rw [Cursor.filled_filled hroom] at hpayload
    refine Codec.frame_write_eq_ok_iff.mpr ⟨_, _, _, hlength, hannounce, hpayload, ?_⟩
    simp only [Cursor.filled, List.length_append]
    omega

end CursorM

namespace Codec

open CursorM

theorem inherited_faithful : Inherited Faithful where
  fail e _ := composable_faithful.fault e
  primitive := Primitive.faithful_codec
  choice e := Choice.composable_choice composable_faithful e e.wireKind.faithful_codec
  frame := faithful_frame
  sequence := composable_sequence composable_faithful
  record := RecordLayout.composable_record composable_faithful
  tagged := composable_tagged composable_faithful

theorem Composed.faithful {c : Codec} (h : c.Composed) : c.Faithful :=
  h.of_inherited inherited_faithful fun hclosed v =>
    TypeTable.codecWithin_of_inherited inherited_faithful hclosed.binds _ v

/-- What is encoded is spelled. -/
theorem spells_of_encode {c : Codec} (hc : c.Faithful) {v : Value} {b : Bytes}
    (h : c.encode v = .ok b) : Spells (c.reserve v) (c.write v) b := by
  have hrun := h
  unfold encode at hrun
  split at hrun
  · cases hrun
  · split at hrun
    · rename_i hwrite
      obtain ⟨b', _, hb', -⟩ := hc v _ _ hwrite
      have hb := encode_of_yields hb'.yields
      rw [h] at hb
      cases hb
      exact hb'
    · cases hrun

/-! ## Values that share a cursor -/

/-- The passes over values that are measured and written one after the other. -/
theorem spells_jobs {jobs : List (Codec × Value)} {bs : List Bytes}
    (h : List.Forall₂ (fun job b => job.1.Composed ∧ job.1.encode job.2 = .ok b) jobs bs) :
    Spells (jobs.forM fun job => job.1.reserve job.2) (jobs.forM fun job => job.1.write job.2)
      bs.flatten := by
  induction h with
  | nil => exact .nothing
  | cons head _ ih => exact .both (spells_of_encode head.1.faithful head.2) ih

/-- Values that are all measured on a fresh cursor, and all written in the same order into a buffer of
the measured size, fill it with their encodings.  Every frame length in the queue is taken once, by
the frame that recorded it. -/
theorem write_jobs {jobs : List (Codec × Value)} {bs : List Bytes}
    (h : List.Forall₂ (fun job b => job.1.Composed ∧ job.1.encode job.2 = .ok b) jobs bs) :
    ∃ measured written,
      (jobs.forM fun job => job.1.reserve job.2).runFrom {} = (.ok (), measured) ∧
      (jobs.forM fun job => job.1.write job.2).runFrom measured.alloc = (.ok (), written) ∧
      written.buffer = bs.flatten ∧ written.pos = written.buffer.length ∧
      written.frames = measured.frames ∧ written.nextFrame = measured.frames.length ∧
      Replays (jobs.forM fun job => job.1.reserve job.2) (jobs.forM fun job => job.1.write job.2)
        {} measured.alloc (List.range measured.frames.length) := by
  have hspells := spells_jobs h
  obtain ⟨fs, hr, hw⟩ := hspells.yields
  have hready := ready_blank bs.flatten.length fs
  have hmeasured : Cursor.alloc { limit := 0 + bs.flatten.length, frames := [] ++ fs } =
      blank bs.flatten.length fs := alloc_measured _ _
  refine ⟨_, _, hr {}, by rw [hmeasured, hw _ hready], buffer_filled_blank _ _ _, ?_, ?_, ?_, ?_⟩
  · rw [buffer_filled_blank]
    simp [Cursor.filled, blank]
  · rfl
  · simp [Cursor.filled, blank]
  · rw [hmeasured, List.range_eq_range']
    exact hspells.replays (d := {}) hr hready rfl

/-- The nodes of a tree, whose kids are framed. -/
def node : Codec := Schema.tree.types.typeCodec {} "@a/node"

theorem composed_node : node.Composed := by
  have hcodec : Schema.tree.codec? {} "@a/node" = .ok node := rfl
  exact .type (fun _ _ _ _ _ _ => rfl) hcodec

/-- A node with two kids, two framed nodes in a frame, one of which has none, and a framed number. -/
def forest : List (Codec × Value) :=
  [(node, Schema.treeRoot),
    (node.frame.sequence.frame, .array [Schema.treeRoot, .struct [("id", .uint 5)]]),
    (Primitive.uint.codec.frame, .uint 300)]

theorem write_jobs_forest :
    ∃ measured written,
      (forest.forM fun job => job.1.reserve job.2).runFrom {} = (.ok (), measured) ∧
      (forest.forM fun job => job.1.write job.2).runFrom measured.alloc = (.ok (), written) ∧
      measured.frames = [4, 2, 18, 13, 4, 2, 2, 3] ∧
      written.buffer = [7, 7, 1, 120, 2, 4, 253, 44, 1, 0, 2, 1, 1, 18, 2, 13, 7, 7, 1, 120, 2, 4,
        253, 44, 1, 0, 2, 1, 1, 2, 5, 0, 3, 253, 44, 1] ∧ written.nextFrame = 8 ∧
      Replays (forest.forM fun job => job.1.reserve job.2)
        (forest.forM fun job => job.1.write job.2) {} measured.alloc [0, 1, 2, 3, 4, 5, 6, 7] := by
  have hroot : node.encode Schema.treeRoot =
      .ok [7, 7, 1, 120, 2, 4, 253, 44, 1, 0, 2, 1, 1] := by decide +kernel
  have hnodes : node.frame.sequence.frame.encode
      (.array [Schema.treeRoot, .struct [("id", .uint 5)]]) =
        .ok [18, 2, 13, 7, 7, 1, 120, 2, 4, 253, 44, 1, 0, 2, 1, 1, 2, 5, 0] := by decide +kernel
  have hnumber : Primitive.uint.codec.frame.encode (.uint 300) = .ok [3, 253, 44, 1] := by
    decide +kernel
  have hframes : ((forest.forM fun job => job.1.reserve job.2).runFrom {}).2.frames =
      [4, 2, 18, 13, 4, 2, 2, 3] := by decide +kernel
  have hjobs : List.Forall₂ (fun (job : Codec × Value) b =>
      job.1.Composed ∧ job.1.encode job.2 = .ok b) forest _ :=
    .cons ⟨composed_node, hroot⟩ (.cons ⟨composed_node.frame.sequence.frame, hnodes⟩
      (.cons ⟨(Composed.primitive .uint).frame, hnumber⟩ .nil))
  obtain ⟨measured, written, hmeasured, hwritten, hbuffer, -, -, hnext, hreplays⟩ :=
    write_jobs hjobs
  rw [hmeasured] at hframes
  have hframes : measured.frames = [4, 2, 18, 13, 4, 2, 2, 3] := hframes
  rw [hframes] at hnext hreplays
  exact ⟨measured, written, hmeasured, hwritten, hframes, hbuffer, hnext, hreplays⟩

/-! ## A queue of something else -/

/-- On whatever cursor, a value is written as it is encoded or not at all.  When no frame length is
left in the queue, a value that cannot be measured is not written, and one for whose measured bytes
there is room is written just when it can be encoded. -/
theorem Composed.write_unprepared {c : Codec} (h : c.Composed) (v : Value) (d : Cursor) :
    (∀ d', (c.write v).runFrom d = (.ok (), d') →
      ∃ b taken, c.encode v = .ok b ∧ d' = d.filled b taken ∧
        (d'.buffer.drop d.pos).take (d'.pos - d.pos) = b) ∧
      (d.frames.length ≤ d.nextFrame →
        (∀ e, c.measure v = .error e → ∃ e' d', (c.write v).runFrom d = (.error e', d')) ∧
        ∀ m, c.measure v = .ok m → d.pos + m ≤ d.buffer.length →
          ((∃ d', (c.write v).runFrom d = (.ok (), d')) ↔ ∃ b, c.encode v = .ok b)) := by
  have hwritten : ∀ d', (c.write v).runFrom d = (.ok (), d') →
      ∃ b taken, c.encode v = .ok b ∧ d.Wrote b taken d' := by
    intro d' hrun
    obtain ⟨b, taken, hb, hd'⟩ := h.faithful v d d' hrun
    exact ⟨b, taken, encode_of_yields hb.yields, hd'⟩
  refine ⟨fun d' hrun => ?_, fun hnone => ⟨fun e he => ?_, fun m hm hroom => ⟨?_, ?_⟩⟩⟩
  · obtain ⟨b, taken, hb, hd'⟩ := hwritten d' hrun
    exact ⟨b, taken, hb, hd'.eq, hd'.between⟩
  · rcases hrun : (c.write v).runFrom d with ⟨e' | u, d'⟩
    · exact ⟨e', d', rfl⟩
    · obtain ⟨b, -, hb, -⟩ := hwritten d' hrun
      obtain ⟨fs, hr, -⟩ := (spells_of_encode h.faithful hb).yields
      rw [measure_of_reserves hr] at he
      cases he
  · rintro ⟨d', hrun⟩
    obtain ⟨b, -, hb, -⟩ := hwritten d' hrun
    exact ⟨b, hb⟩
  · rintro ⟨b, hb⟩
    have hspells := spells_of_encode h.faithful hb
    obtain ⟨fs, hr, -⟩ := hspells.yields
    rw [measure_of_reserves hr] at hm
    cases hm
    exact ⟨_, hspells.runFrom_exhausted hnone hroom⟩

/-- A cursor in the middle of a buffer, with two frame lengths that were recorded for something
else. -/
def stale (nextFrame : Nat) : Cursor :=
  { pos := 2, buffer := List.replicate 17 9, frames := [5, 13], nextFrame := nextFrame }

/-- The last length happens to fit the outer frame, and the kids in it are measured again; with the
length before it a frame of a kid ends in the wrong place.  On the exhausted queue every frame is
measured again, and what is no node is refused. -/
theorem write_unprepared_node :
    (∃ d', (node.frame.write Schema.treeRoot).runFrom (stale 1) = (.ok (), d') ∧
      ∃ b taken, node.frame.encode Schema.treeRoot = .ok b ∧ d' = (stale 1).filled b taken ∧
        (d'.buffer.drop 2).take (d'.pos - 2) = b) ∧
      ((node.frame.write Schema.treeRoot).runFrom (stale 0)).1 = .error (.frameMismatch 13 4) ∧
      (∃ d', (node.frame.write Schema.treeRoot).runFrom (stale 2) = (.ok (), d')) ∧
      ∃ e' d', (node.frame.write (.bool true)).runFrom (stale 2) = (.error e', d') := by
  have hstale : (node.frame.write Schema.treeRoot).runFrom (stale 1) =
      (.ok (), (stale 1).filled [13, 7, 7, 1, 120, 2, 4, 253, 44, 1, 0, 2, 1, 1] 1) := by
    decide +kernel
  have hencode : node.frame.encode Schema.treeRoot =
      .ok [13, 7, 7, 1, 120, 2, 4, 253, 44, 1, 0, 2, 1, 1] := by decide +kernel
  have hmeasure : node.frame.measure Schema.treeRoot = .ok 14 := by decide +kernel
  have hrefused : node.frame.measure (.bool true) =
      .error (.invalidValue "struct" "bool") := by decide +kernel
  refine ⟨⟨_, hstale, (composed_node.frame.write_unprepared Schema.treeRoot (stale 1)).1 _ hstale⟩,
    by decide +kernel, ?_, ?_⟩
  · exact ((composed_node.frame.write_unprepared Schema.treeRoot (stale 2)).2 (by decide)).2 14
      hmeasure (by decide) |>.mpr ⟨_, hencode⟩
  · exact ((composed_node.frame.write_unprepared (.bool true) (stale 2)).2 (by decide)).1 _ hrefused

end Codec

end WireSchema
