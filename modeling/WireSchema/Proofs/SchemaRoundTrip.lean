import WireSchema.Proofs.Built
import WireSchema.Proofs.RoundTrip

/-!
# Schemas read back what they write

What a built schema writes for a value of one of its types is read back as the normal form of the
value (`decodeFirst_encode`).
-/

namespace WireSchema

namespace Schema

theorem codec?_eq_ok {s : Schema} {b : Bindings} {name : String} {c : Codec}
    (h : s.codec? b name = .ok c) : c = s.types.typeCodec b name := by
  unfold codec? TypeTable.codec? at h
  split at h
  · cases h
    rfl
  · cases h

/-- A named type has a codec when one of its values was written. -/
theorem codec?_of_encode {s : Schema} {b : Bindings} {name : String} {v : Value} {bytes : Bytes}
    (h : s.encode b name v = .ok bytes) : s.codec? b name = .ok (s.types.typeCodec b name) ∧
      (s.types.typeCodec b name).encode v = .ok bytes := by
  obtain ⟨c, hc, h⟩ := ok_of_bind h
  obtain rfl := codec?_eq_ok hc
  exact ⟨hc, h⟩

/-- What a schema has written is yielded by its codec at the depth of the value. -/
theorem yields_of_encode {s : Schema} {b : Bindings} {name : String}
    (hT : s.types.Throughout s.types.Portable name) {v : Value} {bytes : Bytes}
    (h : s.encode b name v = .ok bytes) :
    (s.types.codecWithin b (s.types.depthFor v.depth) name).Yields v bytes :=
  (Codec.encode_eq_ok_iff (TypeTable.regular_typeCodec hT.closed)).mp (codec?_of_encode h).2

theorem readsBack_of_encode {s : Schema} (hs : s.Built) {b : Bindings} {name : String}
    (hT : s.types.Throughout (s.types.Restorable b) name) {v : Value}
    (hj : s.types.PlainJson false name v) {bytes : Bytes} (hfits : bytes.Fits)
    (h : s.encode b name v = .ok bytes) :
    ∃ w, s.types.norm name v = .ok w ∧ (s.types.typeCodec b name).ReadsBack bytes w :=
  TypeTable.readsBack_of_yields hs.sound hT
    (TypeTable.enough_le_depthFor hs.sound.finite name v.depth) hj bytes hfits
    (yields_of_encode (hT.imp fun _ ho => ho.portable) h)

/-- What a built schema writes is read back in front of any further bytes, up to its end and as the
normal form of the value, for every type that reaches no external type, no `raw`, no migrated latest
shape, no struct with two fields of one name, no enum that runs out of numbers, and no array of
items that may be empty. -/
theorem decodeFirst_encode {s : Schema} (hs : s.Built) {b : Bindings} {name : String}
    (hT : s.types.Throughout (s.types.Restorable b) name) {v : Value}
    (hj : s.types.PlainJson false name v) {bytes : Bytes} (hfits : bytes.Fits)
    (h : s.encode b name v = .ok bytes) :
    ∃ w c, s.types.norm name v = .ok w ∧ s.codec? b name = .ok c ∧
      ∀ rest, c.decodeFirst (bytes ++ rest) = .ok (w, bytes.length) := by
  obtain ⟨w, hw, hback⟩ := readsBack_of_encode hs hT hj hfits h
  refine ⟨w, _, hw, (codec?_of_encode h).1, fun rest => ?_⟩
  rw [Codec.decodeFirst_eq]
  exact hback rest

/-! A tree of nodes: a struct with a bool field and an alias, which holds an array of itself. -/

/-- The fields of a node. -/
def treeFields : List FieldDescription :=
  [{ name := "id", typeName := "uint", required := true }, { name := "on", typeName := "bool" },
    { name := "tag", typeName := "@a/tag" },
    { name := "kids", typeName := "@a/node", array := true }]

/-- The calls that register the tree. -/
def treeCalls : List Builder.Call :=
  [.declareNamespace "a", .registerIn "a" (.aliasOf "tag" "string"),
    .registerIn "a" { name := "node", fields := some treeFields }]

/-- The struct of a node. -/
def treeNode : StructBody :=
  ⟨false, some 1, [⟨"id", "uint", true, false, 1⟩, ⟨"on", "bool", false, false, 1⟩,
    ⟨"tag", "@a/tag", false, false, 1⟩, ⟨"kids", "@a/node", false, true, 1⟩]⟩

/-- The schema of the tree. -/
def tree : Schema :=
  ⟨1, true, true, [⟨"tag", "a", 1, .alias "string"⟩, ⟨"node", "a", 1, .struct treeNode⟩],
    [("a", none)], [⟨.typeAdded, "@a/tag", none, 1⟩, ⟨.typeAdded, "@a/node", none, 1⟩]⟩

theorem tree_built : tree.Built :=
  ⟨(Builder.fresh true).after treeCalls, (Builder.Reachable.fresh true).after treeCalls,
    rfl⟩

/-- The types of the tree. -/
def treeTypes : List String := ["@a/node", "@a/tag", "uint", "bool", "string"]

theorem tree_restorable : ∀ name ∈ treeTypes, tree.types.Restorable {} name := by
  have hnode : tree.types.resolve? "@a/node" =
      some (.declared ⟨"node", "a", 1, .struct treeNode⟩) := rfl
  have htag : tree.types.resolve? "@a/tag" = some (.declared ⟨"tag", "a", 1, .alias "string"⟩) :=
    rfl
  have huint : tree.types.resolve? "uint" = some (.primitive .uint) := rfl
  have hbool : tree.types.resolve? "bool" = some (.primitive .bool) := rfl
  have hstring : tree.types.resolve? "string" = some (.primitive .string) := rfl
  simp only [treeTypes, List.forall_mem_cons]
  refine ⟨TypeTable.restorable_struct hnode rfl (by decide) (by decide), ?_⟩
  simp [TypeTable.Restorable, htag, huint, hbool, hstring]

theorem tree_no_json : ∀ name ∈ treeTypes, tree.types.resolve? name ≠ some (.primitive .json) := by
  decide

/-- A node with two kids. -/
def treeRoot : Value :=
  .struct [("id", .int 7),
    ("kids", .array [.struct [("id", .uint 300)], .struct [("id", .uint 1), ("on", .bool true)]]),
    ("on", .bool true), ("tag", .string "x")]

theorem decodeFirst_encode_tree :
    tree.encode {} "@a/node" treeRoot = .ok [7, 7, 1, 120, 2, 4, 253, 44, 1, 0, 2, 1, 1] ∧
      ∃ w c, tree.types.norm "@a/node" treeRoot = .ok w ∧ tree.codec? {} "@a/node" = .ok c ∧
        ∀ rest, c.decodeFirst ([7, 7, 1, 120, 2, 4, 253, 44, 1, 0, 2, 1, 1] ++ rest) =
          .ok (w, 13) := by
  have hclosed : tree.types.encloses treeTypes = true := by decide +kernel
  have hnode : "@a/node" ∈ treeTypes := by decide +kernel
  have hencode : tree.encode {} "@a/node" treeRoot =
      .ok [7, 7, 1, 120, 2, 4, 253, 44, 1, 0, 2, 1, 1] := by decide +kernel
  exact ⟨hencode, decodeFirst_encode tree_built
    (TypeTable.throughout_of_encloses hclosed tree_restorable hnode)
    (TypeTable.plainJson_of_unreached
      (TypeTable.throughout_of_encloses hclosed tree_no_json hnode) false treeRoot)
    (by decide) hencode⟩

end Schema

end WireSchema
