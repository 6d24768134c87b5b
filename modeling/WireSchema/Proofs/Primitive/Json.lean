import WireSchema.Proofs.Json
import WireSchema.Proofs.Primitive.Norm

/-!
# Values as JSON

Any value is written as the JSON text of what it is as plain JSON.  Where no double occurs in it, it
is read back as that, up to the depth that the reader follows, and refused beyond
(`Primitive.decodeFirst_json`).
-/

namespace WireSchema

namespace Value

/-! ## Plain values -/

mutual

/-- No double occurs, also not inside JSON, and fields and members stand in the order of their
names, as a table keeps them. -/
def Plain : Value → Prop
  | .float _ => False
  | .array items => PlainItems items
  | .struct fields => Assoc.Sorted fields ∧ PlainFields fields
  | .json j => j.Plain
  | _ => True

/-- Every item is plain. -/
def PlainItems : List Value → Prop
  | [] => True
  | v :: rest => v.Plain ∧ PlainItems rest

/-- Every field is plain. -/
def PlainFields : List (String × Value) → Prop
  | [] => True
  | (_, v) :: rest => v.Plain ∧ PlainFields rest

end

theorem plain_ofInt64 (n : Int64) : (Json.ofInt64 n).Plain := by
  unfold Json.ofInt64
  by_cases hn : 0 ≤ n.toInt
  · rw [if_pos hn]
    trivial
  · rw [if_neg hn]
    exact Int.not_le.mp hn

theorem plain_bytes (bytes : Bytes) :
    Json.PlainItems (bytes.map fun x => Json.ofNat x.toNat) := by
  induction bytes with
  | nil => trivial
  | cons x bytes ih => exact ⟨trivial, ih⟩

theorem names_fieldsToJson (fields : List (String × Value)) :
    (fieldsToJson fields).map Prod.fst = fields.map Prod.fst := by
  induction fields with
  | nil => rfl
  | cons f fields ih => rw [fieldsToJson, List.map_cons, List.map_cons, ih]

/-- Fields keep their order as members. -/
theorem sorted_fieldsToJson {fields : List (String × Value)} (h : Assoc.Sorted fields) :
    Assoc.Sorted (fieldsToJson fields) := by
  unfold Assoc.Sorted at *
  rw [← List.pairwise_map (f := Prod.fst) (R := (· < ·))] at *
  rwa [names_fieldsToJson]

mutual

/-- A plain value is plain JSON. -/
theorem Plain.toJson {v : Value} (h : v.Plain) : v.toJson.Plain := by
  match v with
  | .null | .bool _ | .uint _ | .bigInt _ | .string _ => trivial
  | .int n => exact plain_ofInt64 n
  | .float _ => exact h.elim
  | .bytes b => exact plain_bytes b
  | .array items => exact PlainItems.toJson h
  | .struct fields =>
    obtain ⟨hsorted, hfields⟩ : Assoc.Sorted fields ∧ PlainFields fields := h
    exact ⟨sorted_fieldsToJson hsorted, PlainFields.toJson hfields⟩
  | .json _ => exact h

theorem PlainItems.toJson {items : List Value} (h : PlainItems items) :
    Json.PlainItems (itemsToJson items) := by
  match items with
  | [] => trivial
  | _ :: _ => exact ⟨Plain.toJson h.1, PlainItems.toJson h.2⟩

theorem PlainFields.toJson {fields : List (String × Value)} (h : PlainFields fields) :
    Json.PlainMembers (fieldsToJson fields) := by
  match fields with
  | [] => trivial
  | (_, _) :: _ => exact ⟨Plain.toJson h.1, PlainFields.toJson h.2⟩

end

end Value

namespace Primitive

/-! ## The kind of JSON -/

/-- A value without doubles is written, and read back as plain JSON from in front of whatever
follows if that nests at most 127 deep; if it nests deeper, reading it fails. -/
theorem decodeFirst_json {v : Value} (h : v.Plain) :
    ∃ b, json.codec.encode v = .ok b ∧ (b.Fits → ∀ s, json.codec.decodeFirst (b ++ s) =
      if v.toJson.depth ≤ 127 then .ok (.json v.toJson, b.length) else .error .json) := by
  refine ⟨_, Codec.encode_of_yields (yields_codec rfl), fun hfits s => ?_⟩
  rw [Codec.decodeFirst_eq, codec, parse_pieces_json hfits]
  by_cases hdepth : v.toJson.depth ≤ 127
  · rw [if_pos hdepth, Json.parse_compact h.toJson hdepth]
  · rw [if_neg hdepth, Json.parse_compact_deep h.toJson.whole (Nat.lt_of_not_le hdepth)]

/-- Bytes are read back as an array of numbers, and a big integer as a text. -/
theorem decodeFirst_json_struct :
    json.codec.decodeFirst (31 :: utf8Bytes "\x7b\"a\":[0,255],\"b\":[-7,\"5\",\"\\n\"]\x7d") =
      .ok (.json (.object [("a", .array [.number (.natural 0), .number (.natural 255)]),
        ("b", .array [.number (.negative (-7)), .string "5", .string "\n"])]), 32) := by
  have hplain : (Value.struct [("a", .bytes [0, 255]),
      ("b", .array [.int (-7), .bigInt (Int128.ofInt 5), .string "\n"])]).Plain := by
    have hsorted : "a" < "b" := by decide
    exact ⟨by simpa [Assoc.Sorted] using hsorted, trivial, ⟨trivial, trivial, trivial, trivial⟩,
      trivial⟩
  obtain ⟨b, hb, hread⟩ := decodeFirst_json hplain
  obtain rfl : 31 :: utf8Bytes "\x7b\"a\":[0,255],\"b\":[-7,\"5\",\"\\n\"]\x7d" = b :=
    Except.ok.inj hb
  have hwhole := hread (by decide) []
  rw [List.append_nil, if_pos (by decide)] at hwhole
  exact hwhole

end Primitive

end WireSchema
