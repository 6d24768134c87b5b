import Mathlib.Algebra.Ring.Int.Defs
import WireSchema.Proofs.Codec.Ensures

/-!
# Shapes of primitive values

Each primitive kind is read as one variant of values, with the range of the kind
(`Primitive.HasShape`), whatever the bytes are (`ensures_primitive`).
-/

namespace WireSchema

/-- A digit of a hexadecimal text in lower case. -/
def IsLowerHex (c : Char) : Prop := '0' ≤ c ∧ c ≤ '9' ∨ 'a' ≤ c ∧ c ≤ 'f'

instance (c : Char) : Decidable (IsLowerHex c) :=
  inferInstanceAs (Decidable ('0' ≤ c ∧ c ≤ '9' ∨ 'a' ≤ c ∧ c ≤ 'f'))

theorem isLowerHex_hexDigit {n : Nat} (h : n < 16) : IsLowerHex (hexDigit n) := by
  have hall : ∀ d : Fin 16, IsLowerHex (hexDigit d.val) := by decide
  exact hall ⟨n, h⟩

theorem isLowerHex_hexText {bytes : Bytes} {c : Char} (h : c ∈ (hexText bytes).toList) :
    IsLowerHex c := by
  rw [hexText, String.toList_ofList, List.mem_flatMap] at h
  obtain ⟨b, -, hc⟩ := h
  have hlt := b.toNat_lt
  simp only [hexPair, List.mem_cons, List.not_mem_nil, or_false] at hc
  rcases hc with rfl | rfl
  · exact isLowerHex_hexDigit (by omega)
  · exact isLowerHex_hexDigit (by omega)

theorem length_hexText (bytes : Bytes) : (hexText bytes).toList.length = 2 * bytes.length := by
  rw [hexText, String.toList_ofList]
  induction bytes with
  | nil => rfl
  | cons b bytes ih =>
    rw [List.flatMap_cons, List.length_append, ih, List.length_cons]
    simp only [hexPair, List.length_cons, List.length_nil]
    omega

/-- Half of the naturals of so many bits are those of integers that are not negative. -/
theorem unzigzag_bounds (bits : Nat) {z : Nat} (h : z < Nat.pow 2 (bits + 1)) :
    -(2 : Int) ^ bits ≤ unzigzag z ∧ unzigzag z < (2 : Int) ^ bits := by
  have hpow : Nat.pow 2 (bits + 1) = 2 * 2 ^ bits := Nat.pow_succ'
  have hcast : ((2 ^ bits : Nat) : Int) = (2 : Int) ^ bits := by push_cast; rfl
  rw [hpow] at h
  rw [← hcast]
  unfold unzigzag
  split
  · omega
  · omega

/-- An integer of fewer bits is not changed by taking it modulo a power of two. -/
theorem bmod_eq_self (width : Nat) {n : Int} {bits : Nat} (hbits : bits < width)
    (h : -(2 : Int) ^ bits ≤ n ∧ n < (2 : Int) ^ bits) : n.bmod (2 ^ width) = n := by
  have hpow : 2 * 2 ^ bits ≤ 2 ^ width := by
    rw [← Nat.pow_succ']
    exact Nat.pow_le_pow_right (by decide) hbits
  have hcast : ((2 ^ bits : Nat) : Int) = (2 : Int) ^ bits := by push_cast; rfl
  rw [← hcast] at h
  exact Int.bmod_eq_of_le (by omega) (by omega)

theorem Int128.val_ofInt {n : Int} {bits : Nat} (hbits : bits < 128)
    (h : -(2 : Int) ^ bits ≤ n ∧ n < (2 : Int) ^ bits) : (ofInt n).val = n :=
  bmod_eq_self 128 hbits h

namespace Primitive

open CursorM

/-- The values that a primitive kind is read as. -/
def HasShape : Primitive → Value → Prop
  | .uint, .uint _ | .lexint, .uint _ => True
  | .uintBits k, .uint n => n.toNat < 2 ^ (k.val + 1)
  | .uintBytes w, .uint n => n.toNat < 2 ^ (8 * (w.val + 1))
  | .port, .uint n => n.toNat < 2 ^ 16
  | .int, .int _ | .date, .int _ | .signedLexint, .int _ | .lexdate, .int _ => True
  | .intBytes w, .int n =>
    -(2 : Int) ^ (8 * w.val + 7) ≤ n.toInt ∧ n.toInt < (2 : Int) ^ (8 * w.val + 7)
  | .float32, .float x => ∃ bits < 2 ^ 32, x = Double.ofSingleBits bits
  | .float64, .float _ => True
  | .string, .string _ | .utf8, .string _ => True
  | .ascii, .string s => ∀ c ∈ s.toList, c.toNat < 128
  | .hex, .string s => s.toList.length % 2 = 0 ∧ ∀ c ∈ s.toList, IsLowerHex c
  | .bigint, .bigInt _ => True
  | .biguint64, .bigInt n => 0 ≤ n.val ∧ n.val < 2 ^ 64
  | .bigint64, .bigInt n => -2 ^ 63 ≤ n.val ∧ n.val < 2 ^ 63
  | .fixed32, .bytes b => b.length = 32
  | .fixed64, .bytes b => b.length = 64
  | .buffer, .null => True
  | .buffer, .bytes b => b ≠ []
  | .bool, .bool _ => True
  | .address f, .string s => ∃ a : Address, s = a.text ∧ ∀ g ∈ f, a.family = g
  | .endpoint f, .string s => ∃ e : Endpoint, s = e.text ∧ ∀ g ∈ f, e.address.family = g
  | .none, .null => True
  | .raw, .bytes _ => True
  | .json, .json _ => True
  | _, _ => False

theorem ensures_readAddress (f : Option Family) :
    Ensures (readAddress f) fun a => ∀ g ∈ f, a.family = g := by
  have hfamily : Ensures (readFamily f) fun g' => ∀ g ∈ f, g' = g := by
    cases f with
    | none => exact (ensures_true _).imp fun _ _ => nofun
    | some g => exact ensures_pure (by simp)
  refine ensures_bind hfamily fun g hg => ensures_bind (ensures_true _) fun bytes _ => ?_
  refine ensures_pure fun g' hg' => ?_
  rw [← hg g' hg']
  cases g <;> rfl

theorem toNat_ofNat_lt {n bits : Nat} (h : n < Nat.pow 2 bits) :
    (UInt64.ofNat n).toNat < 2 ^ bits :=
  Nat.lt_of_le_of_lt (by rw [UInt64.toNat_ofNat']; exact Nat.mod_le _ _) h

theorem pow_bytes (width : Nat) : Nat.pow 256 width = Nat.pow 2 (8 * width) :=
  (Nat.pow_mul 2 8 width).symm

/-- Whatever the bytes, a primitive value has the shape of its kind. -/
theorem ensures_primitive (p : Primitive) : Ensures p.read p.HasShape := by
  have hfixed (width : Nat) : Ensures (Varint.readFixed width) (· < Nat.pow 2 (8 * width)) :=
    (Varint.ensures_readFixed width).imp fun n hn => by rwa [pow_bytes] at hn
  cases p with
  | uint | int | date | lexint | signedLexint | lexdate | float64 | string | utf8 | bool =>
    exact ensures_bind (ensures_true _) fun _ _ => ensures_pure trivial
  | uintBits k =>
    refine ensures_bind (ensures_true _) fun n _ => ?_
    refine ensures_bind (P := (· < Nat.pow 2 (k.val + 1))) ?_ fun m hm =>
      ensures_pure (toNat_ofNat_lt hm)
    refine ensures_ofExcept fun m hm => ?_
    obtain ⟨rfl, hlt⟩ := checkBits_eq_ok hm
    exact hlt
  | uintBytes w => exact ensures_bind (hfixed _) fun n hn => ensures_pure (toNat_ofNat_lt hn)
  | port => exact ensures_bind (hfixed 2) fun n hn => ensures_pure (toNat_ofNat_lt hn)
  | intBytes w =>
    refine ensures_bind (hfixed _) fun n hn => ensures_pure ?_
    have hbounds := unzigzag_bounds (8 * w.val + 7) hn
    have hvalue : (Int64.ofInt (unzigzag n)).toInt = unzigzag n := by
      rw [Int64.toInt_ofInt]
      exact bmod_eq_self 64 (by omega) hbounds
    rw [HasShape, hvalue]
    exact hbounds
  | float32 =>
    exact ensures_bind (hfixed 4) fun n hn => ensures_pure ⟨n, hn, rfl⟩
  | ascii =>
    refine ensures_bind (ensures_true _) fun s _ => ?_
    split
    · rename_i hall
      refine ensures_pure fun c hc => ?_
      exact of_decide_eq_true (List.all_eq_true.mp hall c hc)
    · exact ensures_throw _
  | hex =>
    refine ensures_bind (ensures_true _) fun bytes _ => ensures_pure ⟨?_, fun c hc => ?_⟩
    · rw [length_hexText]
      omega
    · exact isLowerHex_hexText hc
  | bigint =>
    refine ensures_bind (ensures_true _) fun count _ => ?_
    split
    · exact ensures_throw _
    · exact ensures_bind (ensures_true _) fun _ _ => ensures_pure trivial
  | biguint64 =>
    refine ensures_bind (hfixed 8) fun n hn => ensures_pure ?_
    have hbounds : (0 : Int) ≤ n ∧ (n : Int) < 2 ^ 64 := by
      rw [show Nat.pow 2 (8 * 8) = 0x10000000000000000 from rfl] at hn
      omega
    have hsigned : -(2 : Int) ^ 64 ≤ n ∧ (n : Int) < 2 ^ 64 := by omega
    rw [HasShape, Int128.val_ofInt (by decide) hsigned]
    exact hbounds
  | bigint64 =>
    refine ensures_bind (hfixed 8) fun n hn => ensures_pure ?_
    have hbounds := unzigzag_bounds 63 hn
    rw [HasShape, Int128.val_ofInt (by decide) hbounds]
    exact hbounds
  | fixed32 | fixed64 => exact ensures_bind (ensures_read _) fun b hb => ensures_pure hb
  | buffer =>
    refine ensures_bind (ensures_true _) fun bytes _ => ensures_pure ?_
    cases bytes with
    | nil => trivial
    | cons x rest => exact List.cons_ne_nil x rest
  | address f =>
    exact ensures_bind (ensures_readAddress f) fun a ha => ensures_pure ⟨a, rfl, ha⟩
  | endpoint f =>
    exact ensures_bind (ensures_readAddress f) fun a ha =>
      ensures_bind (ensures_true _) fun port _ => ensures_pure ⟨⟨a, UInt16.ofNat port⟩, rfl, ha⟩
  | none => exact ensures_pure trivial
  | raw =>
    exact ensures_bind (ensures_true _) fun _ _ => ensures_bind (ensures_true _) fun _ _ =>
      ensures_pure trivial
  | json =>
    refine ensures_bind (ensures_true _) fun s _ => ?_
    split
    · exact ensures_pure trivial
    · exact ensures_throw _

end Primitive

end WireSchema
