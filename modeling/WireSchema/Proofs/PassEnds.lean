import WireSchema.Codec.Expression
import WireSchema.Proofs.SchemaRoundTrip

/-!
# How the two passes over a value end

A value is measured, a buffer of the measured size is made, and the value is written into it.  When
the passes of a codec agree this ends in exactly one of three ways (`Codec.Regular.ends`): the
measuring pass refuses the value, the writing pass finds a fault in it, or the buffer is filled up
to its last byte.  The passes agree for every expression over primitive kinds and choices, and for
every declared type that reaches no external type (`passes_end_once`).
-/

namespace WireSchema

/-- How the two passes over a value end. -/
inductive PassEnd where
  /-- The measuring pass fails. -/
  | refused (e : CodecError)
  /-- The value is measured, and the writing pass fails. -/
  | faulted (e : CodecError)
  /-- The value is written. -/
  | filled (bytes : Bytes)
  deriving DecidableEq

namespace Codec

/-- The writing pass goes through a buffer of the measured size up to its end, and leaves these
bytes in it whatever it held: no byte of the buffer is left as it was. -/
def Fills (c : Codec) (v : Value) (bytes : Bytes) : Prop :=
  ∃ frames, (c.reserve v).runFrom {} = (.ok (), { limit := bytes.length, frames := frames }) ∧
    ∀ buffer : Bytes, buffer.length = bytes.length →
      ∃ d, (c.write v).runFrom { limit := bytes.length, buffer := buffer, frames := frames } =
        (.ok (), d) ∧ d.buffer = bytes ∧ d.pos = bytes.length

/-- The passes of a codec over a value end in this way. -/
def Ends (c : Codec) (v : Value) : PassEnd → Prop
  | .refused e => c.measure v = .error e ∧ c.encode v = .error e
  | .faulted e => (∃ n, c.measure v = .ok n) ∧ c.encode v = .error e ∧ e.OfValue
  | .filled bytes => c.measure v = .ok bytes.length ∧ c.encode v = .ok bytes ∧ c.Fills v bytes

theorem encode_of_refuses {c : Codec} {v : Value} {e : CodecError}
    (h : CursorM.Refuses (c.reserve v) e) : c.measure v = .error e ∧ c.encode v = .error e := by
  obtain ⟨d, hd⟩ := h {}
  unfold measure encode
  rw [hd]
  exact ⟨rfl, rfl⟩

theorem encode_of_balks {c : Codec} {v : Value} {n : Nat} {frames : List Nat} {e : CodecError}
    (hm : CursorM.Reserves (c.reserve v) n frames) (hw : CursorM.Balks (c.write v) n frames e) :
    c.encode v = .error e := by
  obtain ⟨d, hd⟩ := hw _ (CursorM.ready_blank n frames)
  unfold encode
  rw [hm {}]
  dsimp only
  rw [alloc_measured, hd]

theorem fills_of_yields {c : Codec} {v : Value} {bytes : Bytes} (h : c.Yields v bytes) :
    c.Fills v bytes := by
  obtain ⟨frames, hm, hw⟩ := h
  refine ⟨frames, ?_, ?_⟩
  · rw [hm {}]
    simp
  · intro buffer hlen
    have hready : Cursor.Ready { limit := bytes.length, buffer := buffer, frames := frames }
        bytes.length frames := ⟨by simp [hlen], [], by simp⟩
    refine ⟨_, hw _ hready, ?_, ?_⟩
    · simp [Cursor.filled, ← hlen]
    · simp [Cursor.filled]

/-- The way in which the passes can end, as their results tell it. -/
def passEnd (c : Codec) (v : Value) : PassEnd :=
  match c.measure v, c.encode v with
  | .error e, _ => .refused e
  | .ok _, .error e => .faulted e
  | .ok _, .ok bytes => .filled bytes

theorem Ends.eq_passEnd {c : Codec} {v : Value} {o : PassEnd} (h : c.Ends v o) :
    o = c.passEnd v := by
  unfold passEnd
  cases o with
  | refused e => rw [h.1]
  | faulted e =>
    obtain ⟨⟨n, hm⟩, he, -⟩ := h
    rw [hm, he]
  | filled bytes => rw [h.1, h.2.1]

theorem Regular.ends {c : Codec} (hc : c.Regular) (v : Value) : ∃! o, c.Ends v o := by
  refine existsUnique_of_exists_of_unique ?_ fun o o' h h' => h.eq_passEnd.trans h'.eq_passEnd.symm
  rcases hc v with hbarren | ⟨bytes, hyields⟩
  · cases hbarren with
    | refused e h => exact ⟨.refused e, encode_of_refuses h⟩
    | failed n frames e hm he hw =>
      exact ⟨.faulted e, ⟨n, measure_of_reserves hm⟩, encode_of_balks hm hw, he⟩
  · obtain ⟨frames, hm, -⟩ := id hyields
    exact ⟨.filled bytes, measure_of_reserves hm, encode_of_yields hyields,
      fills_of_yields hyields⟩

end Codec

theorem CodecExpr.regular_codec (e : CodecExpr) : e.codec.Regular := by
  induction e with
  | primitive p => exact p.regular_codec
  | choice e => exact e.regular_choice
  | frame e ih => exact Codec.regular_frame ih
  | sequence e ih => exact Codec.regular_sequence ih

namespace Schema

/-- The passes over a value end in exactly one way, for every expression over primitive kinds and
choices and for every type of a schema that reaches no external type. -/
theorem passes_end_once (v : Value) :
    (∀ e : CodecExpr, ∃! o, e.codec.Ends v o) ∧
      ∀ (s : Schema) (b : Bindings) (name : String) (c : Codec),
        s.types.Throughout (s.types.IsClosed b) name → s.codec? b name = .ok c →
          ∃! o, c.Ends v o := by
  refine ⟨fun e => e.regular_codec.ends v, ?_⟩
  intro s b name c hclosed hc
  rw [codec?_eq_ok hc]
  exact (TypeTable.regular_typeCodec hclosed).ends v

/-- A node of the tree is written, a node without its number is refused, and an item that is too
large for its byte is found when it is written. -/
theorem passes_end_once_tree :
    (tree.types.typeCodec {} "@a/node").Ends treeRoot
        (.filled [7, 7, 1, 120, 2, 4, 253, 44, 1, 0, 2, 1, 1]) ∧
      (tree.types.typeCodec {} "@a/node").Ends (.struct [("on", .bool true)])
        (.refused (.missingRequiredField "@a/node" "id")) ∧
      (CodecExpr.frame (.sequence (.primitive (.uintBytes 0)))).codec.Ends
        (.array [.uint 1, .uint 300]) (.faulted (.outOfRange "uint8" "300")) := by
  have hclosed : tree.types.Throughout (tree.types.IsClosed {}) "@a/node" :=
    fun _ _ _ _ _ _ => rfl
  have hcodec : tree.codec? {} "@a/node" = .ok (tree.types.typeCodec {} "@a/node") := rfl
  refine ⟨?_, ?_, ?_⟩
  · obtain ⟨o, ho, -⟩ := (passes_end_once treeRoot).2 tree {} _ _ hclosed hcodec
    have hend : (tree.types.typeCodec {} "@a/node").passEnd treeRoot =
      .filled [7, 7, 1, 120, 2, 4, 253, 44, 1, 0, 2, 1, 1] := by decide +kernel
    exact hend ▸ ho.eq_passEnd ▸ ho
  · obtain ⟨o, ho, -⟩ := (passes_end_once (.struct [("on", .bool true)])).2 tree {} _ _ hclosed
      hcodec
    have hend : (tree.types.typeCodec {} "@a/node").passEnd (.struct [("on", .bool true)]) =
      .refused (.missingRequiredField "@a/node" "id") := by decide +kernel
    exact hend ▸ ho.eq_passEnd ▸ ho
  · obtain ⟨o, ho, -⟩ := (passes_end_once (.array [.uint 1, .uint 300])).1
      (.frame (.sequence (.primitive (.uintBytes 0))))
    have hend : (CodecExpr.frame (.sequence (.primitive (.uintBytes 0)))).codec.passEnd
      (.array [.uint 1, .uint 300]) = .faulted (.outOfRange "uint8" "300") := by decide +kernel
    exact hend ▸ ho.eq_passEnd ▸ ho

end Schema

end WireSchema
