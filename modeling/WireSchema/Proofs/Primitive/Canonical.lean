import WireSchema.Proofs.AddressText
import WireSchema.Proofs.Codec.Choice

/-!
# Canonical values written again

The canonical variant of a value, which is what its reader gives, is written as the bytes of the
value itself (`pieces_norm`), with the exception of single precision.  The default of a kind, where
it is not null, is canonical (`pieces_defaultValue`).
-/

namespace WireSchema

theorem Value.toInt64_int (n : Int64) : (Value.int n).toInt64 = .ok n := by
  have hl := n.le_toInt
  have hu := n.toInt_lt
  simp only [toInt64, integer?]
  rw [if_pos ⟨by omega, by omega⟩, Int64.ofInt_toInt]

theorem Value.toInt128_bigInt (n : Int128) : (Value.bigInt n).toInt128 = .ok n := by
  simp only [toInt128, integer?]
  rw [Int128.ofInt_val]

namespace Primitive

/-! ## Hexadecimal digits -/

theorem pairValue?_hexPair (b : UInt8) :
    pairValue? (hexDigit (b.toNat / 16)) (hexDigit (b.toNat % 16)) = some b.toNat := by
  have hdigit : ∀ d : Fin 16, hexValue? (hexDigit d.val) = some d.val ∧ hexDigit d.val ≠ '+' := by
    decide
  have hlt := b.toNat_lt
  obtain ⟨hhigh, hplus⟩ := hdigit ⟨b.toNat / 16, by omega⟩
  obtain ⟨hlow, -⟩ := hdigit ⟨b.toNat % 16, by omega⟩
  dsimp only at hhigh hplus hlow
  rw [pairValue?, if_neg hplus, hhigh, hlow]
  simp only [Option.bind_eq_bind, Option.bind_some, Option.pure_def, Option.some.injEq]
  omega

/-- The digits of octets stand for the octets. -/
theorem pairsToBytes?_hexText (bytes : Bytes) :
    pairsToBytes? (hexText bytes).toList = some bytes := by
  rw [hexText, String.toList_ofList]
  induction bytes with
  | nil => rfl
  | cons b bytes ih =>
    rw [List.flatMap_cons, hexPair, List.cons_append, List.cons_append, List.nil_append,
      pairsToBytes?, pairValue?_hexPair, ih]
    simp

/-! ## Values -/

/-- A value is canonical for what it is viewed as. -/
theorem pieces_view {α : Type} {x : Value → Except CodecError α}
    {f : α → Except CodecError (List Bytes)} {g : α → Value} (hg : ∀ a, x (g a) = .ok a)
    {v w : Value} {ps : List Bytes} (h : x v >>= f = .ok ps)
    (hw : (do return g (← x v)) = Except.ok w) :
    ∃ qs, x w >>= f = .ok qs ∧ qs.flatten = ps.flatten := by
  obtain ⟨a, ha, hps⟩ := ok_of_bind h
  rw [ha] at hw
  cases hw
  exact ⟨ps, by rw [hg, ok_bind, hps], rfl⟩

theorem toAddress_text (p : Primitive) (a : Address) : p.toAddress (.string a.text) = .ok a := by
  rw [toAddress, Value.toText, ok_bind, Address.ofText?_text]

theorem toEndpoint_text (p : Primitive) (e : Endpoint) : p.toEndpoint (.string e.text) = .ok e := by
  rw [toEndpoint, Value.toText, ok_bind, Endpoint.ofText?_text]

/-- The canonical variant of a value is written as the same bytes. -/
theorem pieces_norm {p : Primitive} (hsingle : p ≠ .float32) {v w : Value} {ps : List Bytes}
    (h : p.pieces v = .ok ps) (hw : p.norm v = .ok w) :
    ∃ qs, p.pieces w = .ok qs ∧ qs.flatten = ps.flatten := by
  cases p with
  | uint | uintBits k | uintBytes w | port | lexint => exact pieces_view Choice.toUInt64_uint h hw
  | int | intBytes w | signedLexint | date | lexdate => exact pieces_view Value.toInt64_int h hw
  | bigint | biguint64 | bigint64 => exact pieces_view Value.toInt128_bigInt h hw
  | float32 => exact absurd rfl hsingle
  | float64 => exact pieces_view (x := Value.toDouble) (fun _ => rfl) h hw
  | string | utf8 | ascii => exact pieces_view (x := Value.toText) (fun _ => rfl) h hw
  | hex =>
    obtain ⟨s, hs, h⟩ := ok_of_bind h
    rw [slicesToBytes?_utf8Bytes] at h
    cases hb : pairsToBytes? s.toList with
    | none =>
      rw [hb] at h
      cases h
    | some b =>
      rw [hb] at h
      cases h
      simp only [norm, hs, ok_bind, hb] at hw
      cases hw
      refine ⟨prefixedPieces b, ?_, rfl⟩
      simp only [pieces, Value.toText, ok_bind, slicesToBytes?_utf8Bytes, pairsToBytes?_hexText]
      rfl
  | fixed32 | fixed64 =>
    obtain ⟨b, hb, ⟨⟩⟩ := ok_of_bind h
    rw [norm, toBytes_of_toBlock hb] at hw
    cases hw
    refine ⟨[b], ?_, rfl⟩
    rw [pieces, toBlock, Value.toBytes, ok_bind, if_pos (length_of_toBlock hb)]
    rfl
  | buffer =>
    cases v with
    | null =>
      cases hw
      exact ⟨ps, h, rfl⟩
    | bytes b =>
      cases h
      cases b with
      | nil =>
        -- no bytes at all are written like nothing
        cases hw
        exact ⟨Varint.pieces 0, rfl, by simp [prefixedPieces]⟩
      | cons x b =>
        cases hw
        exact ⟨_, rfl, rfl⟩
    | _ => cases h
  | bool => exact pieces_view (x := Value.toBool) (fun _ => rfl) h hw
  | address f => exact pieces_view (toAddress_text _) h hw
  | endpoint f => exact pieces_view (toEndpoint_text _) h hw
  | none => exact ⟨[], rfl, by cases h; rfl⟩
  | raw => exact pieces_view (x := Value.toBytes) (fun _ => rfl) h hw
  | json =>
    cases hw
    exact ⟨ps, h, rfl⟩

theorem checkBits_zero (p : Primitive) (bits : Nat) : p.checkBits 0 bits = .ok 0 :=
  if_pos (Nat.two_pow_pos bits)

/-- A default other than null is canonical. -/
theorem pieces_defaultValue {p : Primitive} (hsingle : p ≠ .float32)
    (h : p.defaultValue ≠ .null) :
    ∃ ps, p.pieces p.defaultValue = .ok ps ∧ p.norm p.defaultValue = .ok p.defaultValue := by
  have hunsigned : (Value.uint 0).toUInt64 = .ok 0 := Choice.toUInt64_uint 0
  have hsigned : (Value.int 0).toInt64 = .ok 0 := Value.toInt64_int 0
  have hzero : zigzag (0 : Int64).toInt = 0 := rfl
  cases p with
  | uint | uintBits k | uintBytes w | port | lexint =>
    simp only [pieces, norm, defaultValue, category, hunsigned, ok_bind, UInt64.toNat_zero,
      checkBits_zero]
    exact ⟨_, rfl, rfl⟩
  | int | intBytes w | signedLexint =>
    simp only [pieces, norm, defaultValue, category, hsigned, ok_bind, hzero, checkBits_zero]
    exact ⟨_, rfl, rfl⟩
  | float64 | bigint | biguint64 | bigint64 | bool => exact ⟨_, rfl, rfl⟩
  | float32 => exact absurd rfl hsingle
  | _ => exact absurd rfl h

end Primitive

end WireSchema
