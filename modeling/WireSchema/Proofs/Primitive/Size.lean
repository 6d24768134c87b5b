import WireSchema.Proofs.Basic
import WireSchema.Proofs.Integer
import WireSchema.Proofs.Text

/-!
# Sizes of primitive values

The size of a value is the number of bytes that are written for it (`announces_pieces`), and what
keeps a value from being written is a fault of the value, so the codec of a primitive kind measures
and writes in step (`regular_codec`).
-/

namespace WireSchema

open CursorM

/-! ## Faults of the value -/

@[simp] theorem CodecError.ofValue_outOfRange (kind value : String) :
    (CodecError.outOfRange kind value).OfValue := ⟨nofun, nofun⟩

@[simp] theorem CodecError.ofValue_invalidValue (expected found : String) :
    (CodecError.invalidValue expected found).OfValue := ⟨nofun, nofun⟩

/-- A computation on a value that fails only for faults of the value. -/
def FaultsOfValue {α : Type} (x : Except CodecError α) : Prop := ∀ e, x = .error e → e.OfValue

namespace FaultsOfValue

variable {α β : Type}

theorem ok (a : α) : FaultsOfValue (.ok a : Except CodecError α) := nofun

theorem error {e : CodecError} (h : e.OfValue) : FaultsOfValue (.error e : Except CodecError α) := by
  rintro _ ⟨⟩
  exact h

theorem bind {x : Except CodecError α} {f : α → Except CodecError β} (hx : FaultsOfValue x)
    (hf : ∀ a, FaultsOfValue (f a)) : FaultsOfValue (x >>= f) := by
  intro e he
  rcases error_of_bind he with h | ⟨a, -, h⟩
  · exact hx e h
  · exact hf a e h

theorem map {x : Except CodecError α} (hx : FaultsOfValue x) (f : α → β) :
    FaultsOfValue (do return f (← x)) := bind hx fun a => ok (f a)

theorem ite {p : Prop} [Decidable p] {x y : Except CodecError α} (hx : FaultsOfValue x)
    (hy : FaultsOfValue y) : FaultsOfValue (if p then x else y) := by
  split
  · exact hx
  · exact hy

theorem toUInt64 (v : Value) : FaultsOfValue v.toUInt64 := by
  unfold Value.toUInt64
  split
  · exact error (by simp [Value.mismatch])
  · exact ite (ok _) (error (by simp))

theorem toInt64 (v : Value) : FaultsOfValue v.toInt64 := by
  unfold Value.toInt64
  split
  · exact error (by simp [Value.mismatch])
  · exact ite (ok _) (error (by simp))

theorem toInt128 (v : Value) : FaultsOfValue v.toInt128 := by
  unfold Value.toInt128
  split
  · exact error (by simp [Value.mismatch])
  · exact ok _

theorem toDouble (v : Value) : FaultsOfValue v.toDouble := by
  unfold Value.toDouble
  split
  · exact ok _
  · exact ok _
  · exact ok _
  · exact error (by simp [Value.mismatch])

theorem toBool (v : Value) : FaultsOfValue v.toBool := by
  unfold Value.toBool
  split
  · exact ok _
  · exact error (by simp [Value.mismatch])

theorem toText (v : Value) : FaultsOfValue v.toText := by
  unfold Value.toText
  split
  · exact ok _
  · exact error (by simp [Value.mismatch])

theorem toBytes (v : Value) : FaultsOfValue v.toBytes := by
  unfold Value.toBytes
  split
  · exact ok _
  · exact error (by simp [Value.mismatch])

variable (p : Primitive) (v : Value)

theorem checkBits (n bits : Nat) : FaultsOfValue (p.checkBits n bits) := ite (ok _) (error (by simp))

theorem addressBytes (f : Option Family) (a : Address) : FaultsOfValue (p.addressBytes f a) := by
  unfold Primitive.addressBytes
  split
  · exact ok _
  · exact ite (ok _) (error (by simp [Primitive.notOfKind]))

theorem toAddress : FaultsOfValue (p.toAddress v) := by
  refine bind (toText v) fun s => ?_
  split
  · exact ok _
  · exact error (by simp [Primitive.notOfKind])

theorem toEndpoint : FaultsOfValue (p.toEndpoint v) := by
  refine bind (toText v) fun s => ?_
  split
  · exact ok _
  · exact error (by simp [Primitive.notOfKind])

theorem toBlock (length : Nat) : FaultsOfValue (p.toBlock v length) :=
  bind (toBytes v) fun _ => ite (ok _) (error (by simp))

theorem pieces : FaultsOfValue (p.pieces v) := by
  cases p with
  | uint => exact map (toUInt64 v) _
  | uintBits k => exact bind (toUInt64 v) fun _ => map (checkBits _ _ _) _
  | uintBytes w => exact bind (toUInt64 v) fun _ => map (checkBits _ _ _) _
  | int => exact map (toInt64 v) _
  | intBytes w => exact bind (toInt64 v) fun _ => map (checkBits _ _ _) _
  | float32 => exact map (toDouble v) _
  | float64 => exact map (toDouble v) _
  | port => exact bind (toUInt64 v) fun _ => map (checkBits _ _ _) _
  | lexint => exact map (toUInt64 v) _
  | signedLexint => exact map (toInt64 v) _
  | string => exact map (toText v) _
  | utf8 => exact map (toText v) _
  | ascii => exact bind (toText v) fun _ => ite (ok _) (error (by simp))
  | hex =>
    refine bind (toText v) fun s => ?_
    split
    · exact ok _
    · exact error (by simp)
  | bigint => exact map (toInt128 v) _
  | biguint64 => exact bind (toInt128 v) fun _ => ite (ok _) (error (by simp))
  | bigint64 => exact bind (toInt128 v) fun _ => ite (ok _) (error (by simp))
  | fixed32 => exact map (toBlock _ v _) _
  | fixed64 => exact map (toBlock _ v _) _
  | buffer =>
    cases v with
    | null => exact ok _
    | _ => exact map (toBytes _) _
  | date => exact map (toInt64 v) _
  | lexdate => exact map (toInt64 v) _
  | bool => exact map (toBool v) _
  | address f => exact bind (toAddress _ v) fun _ => map (addressBytes _ _ _) _
  | endpoint f => exact bind (toEndpoint _ v) fun _ => map (addressBytes _ _ _) _
  | none => exact ok _
  | raw => exact map (toBytes v) _
  | json => exact ok _

end FaultsOfValue

namespace Primitive

/-! ## Sizes -/

/-- A size is that of the pieces, whenever there are pieces. -/
def Announces (x : Except CodecError Nat) (y : Except CodecError (List Bytes)) : Prop :=
  ∀ ps, y = .ok ps → x = .ok ps.flatten.length

namespace Announces

theorem ok {n : Nat} {ps : List Bytes} (h : n = ps.flatten.length) :
    Announces (.ok n) (.ok ps) := by
  rintro _ ⟨⟩
  rw [h]

theorem error {x : Except CodecError Nat} (e : CodecError) : Announces x (.error e) := nofun

/-- Both look at the same part of the value. -/
theorem bind {α : Type} (z : Except CodecError α) {f : α → Except CodecError Nat}
    {g : α → Except CodecError (List Bytes)} (h : ∀ a, z = .ok a → Announces (f a) (g a)) :
    Announces (z >>= f) (z >>= g) := by
  intro ps hps
  obtain ⟨a, rfl, ha⟩ := ok_of_bind hps
  exact h a rfl ps ha

/-- Only the pieces look at that part of the value. -/
theorem bind_right {α : Type} (z : Except CodecError α) {x : Except CodecError Nat}
    {g : α → Except CodecError (List Bytes)} (h : ∀ a, z = .ok a → Announces x (g a)) :
    Announces x (z >>= g) := by
  intro ps hps
  obtain ⟨a, ha, hg⟩ := ok_of_bind hps
  exact h a ha ps hg

end Announces

theorem length_of_toBlock {p : Primitive} {v : Value} {n : Nat} {b : Bytes}
    (h : p.toBlock v n = .ok b) : b.length = n := by
  obtain ⟨a, -, ha⟩ := ok_of_bind h
  split at ha
  · cases ha
    assumption
  · cases ha

theorem flatten_prefixedPieces (bytes : Bytes) :
    (prefixedPieces bytes).flatten = Varint.bytes bytes.length ++ bytes := by
  simp [prefixedPieces, Varint.bytes]

theorem length_prefixed (bytes : Bytes) :
    prefixedSize bytes.length = (prefixedPieces bytes).flatten.length := by
  rw [flatten_prefixedPieces, List.length_append, prefixedSize, Varint.length_bytes]

theorem length_words (words : List Nat) :
    Varint.size words.length + 8 * words.length =
      (Varint.pieces words.length ++ words.map (leBytes 8)).flatten.length := by
  have h : ∀ ws : List Nat, ((ws.map (leBytes 8)).flatten).length = 8 * ws.length := by
    intro ws
    induction ws with
    | nil => rfl
    | cons w rest ih =>
      rw [List.map_cons, List.flatten_cons, List.length_append, ih, leBytes_length,
        List.length_cons]
      omega
  rw [List.flatten_append, List.length_append, h, ← Varint.length_bytes]
  rfl

/-- The size of a value is the number of bytes that are written for it. -/
theorem announces_pieces (p : Primitive) (v : Value) : Announces (p.size v) (p.pieces v) := by
  have hvarint (n : Nat) : Varint.size n = (Varint.pieces n).flatten.length :=
    (Varint.length_bytes n).symm
  have hlexint (n : Nat) : Lexint.size n = (Lexint.pieces n).flatten.length :=
    (Lexint.length_bytes n).symm
  have hblock (n : Nat) (k : Nat) : k = [leBytes k n].flatten.length := by
    simp [leBytes_length]
  cases p with
  | uint => exact .bind _ fun _ _ => .ok (hvarint _)
  | uintBits k => exact .bind_right _ fun _ _ => .bind_right _ fun _ _ => .ok (hblock _ _)
  | uintBytes w => exact .bind_right _ fun _ _ => .bind_right _ fun _ _ => .ok (hblock _ _)
  | int => exact .bind _ fun _ _ => .ok (hvarint _)
  | intBytes w => exact .bind_right _ fun _ _ => .bind_right _ fun _ _ => .ok (hblock _ _)
  | float32 => exact .bind_right _ fun _ _ => .ok (hblock _ _)
  | float64 => exact .bind_right _ fun _ _ => .ok (hblock _ _)
  | port => exact .bind_right _ fun _ _ => .bind_right _ fun _ _ => .ok (hblock _ _)
  | lexint => exact .bind _ fun _ _ => .ok (hlexint _)
  | signedLexint => exact .bind _ fun _ _ => .ok (hlexint _)
  | string => exact .bind _ fun _ _ => .ok (by rw [← length_utf8Bytes, length_prefixed])
  | utf8 => exact .bind _ fun _ _ => .ok (by rw [← length_utf8Bytes, length_prefixed])
  | ascii =>
    refine .bind _ fun s _ => ?_
    split
    · exact .ok (by rw [← length_utf8Bytes, length_prefixed])
    · exact .error _
  | hex =>
    refine .bind _ fun s _ => ?_
    split
    · rename_i bytes h
      rw [slicesToBytes?_utf8Bytes] at h
      exact .ok (by rw [length_of_pairsToBytes? h, length_prefixed])
    · exact .error _
  | bigint => exact .bind _ fun _ _ => .ok (length_words _)
  | biguint64 =>
    refine .bind_right _ fun n _ => ?_
    dsimp only
    split
    · exact .ok (hblock _ _)
    · exact .error _
  | bigint64 =>
    refine .bind_right _ fun n _ => ?_
    dsimp only
    split
    · exact .ok (hblock _ _)
    · exact .error _
  | fixed32 => exact .bind_right _ fun b hb => .ok (by simp [length_of_toBlock hb])
  | fixed64 => exact .bind_right _ fun b hb => .ok (by simp [length_of_toBlock hb])
  | buffer =>
    cases v with
    | null => exact .ok (hvarint _)
    | _ => exact .bind _ fun _ _ => .ok (length_prefixed _)
  | date => exact .bind _ fun _ _ => .ok (hvarint _)
  | lexdate => exact .bind _ fun _ _ => .ok (hlexint _)
  | bool => exact .bind_right _ fun _ _ => .ok rfl
  | address f => exact .bind _ fun _ _ => .bind _ fun _ _ => .ok (by simp)
  | endpoint f => exact .bind _ fun _ _ => .bind _ fun _ _ => .ok (by simp [leBytes_length])
  | none => exact .ok rfl
  | raw => exact .bind _ fun _ _ => .ok (by simp)
  | json => exact .ok (by rw [← length_utf8Bytes, length_prefixed])

theorem codec_reserve (p : Primitive) (v : Value) :
    p.codec.reserve v = ofExcept (p.size v) >>= fun n => reserve n := rfl

theorem codec_write (p : Primitive) (v : Value) :
    p.codec.write v = ofExcept (p.pieces v) >>= fun ps => writeAll ps := rfl

/-- What the passes of a primitive kind yield are the pieces. -/
theorem yields_codec {p : Primitive} {v : Value} {ps : List Bytes} (h : p.pieces v = .ok ps) :
    p.codec.Yields v ps.flatten := by
  rw [Codec.Yields, codec_reserve, codec_write, announces_pieces p v ps h, h]
  exact yields_pieces ps

theorem barren_codec {p : Primitive} {v : Value} {e : CodecError} (h : p.pieces v = .error e) :
    Barren (p.codec.reserve v) (p.codec.write v) := by
  rw [codec_reserve, codec_write, h]
  cases p.size v with
  | error e' => exact .refused e' fun c => ⟨c, rfl⟩
  | ok n =>
    exact .failed n [] e (reserves_reserve n) (FaultsOfValue.pieces p v e h) fun c _ => ⟨c, rfl⟩

theorem regular_codec (p : Primitive) : p.codec.Regular := by
  intro v
  cases hp : p.pieces v with
  | ok ps => exact .inr ⟨_, yields_codec hp⟩
  | error e => exact .inl (barren_codec hp)

theorem pieces_of_yields {p : Primitive} {v : Value} {bytes : Bytes}
    (h : p.codec.Yields v bytes) : ∃ ps, p.pieces v = .ok ps ∧ bytes = ps.flatten := by
  cases hp : p.pieces v with
  | ok ps => exact ⟨ps, rfl, h.unique (yields_codec hp)⟩
  | error e => exact ((barren_codec hp).not_yields h).elim

end Primitive

end WireSchema
