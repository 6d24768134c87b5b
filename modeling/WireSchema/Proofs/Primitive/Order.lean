import WireSchema.Proofs.Primitive.Canonical

/-!
# Bytes that sort like the numbers

One byte string stands *before* another when it is strictly smaller in lexicographic order whatever
bytes follow either of them (`Bytes.Before`), so that it may be the first part of a composite key.
Octets written from the most significant one on stand in the order of the numbers
(`beBytes_before`), and so do the bytes behind growing markers (`Lexint.bytes_before`).  The kinds
that are written this way, with a sign and without, sort like their numbers and read them back
(`Primitive.sorts_lexint`).
-/

namespace WireSchema

/-! ## The order of byte strings -/

/-- Strictly smaller in lexicographic order, whatever follows. -/
def Bytes.Before (a b : Bytes) : Prop := ∀ s t : Bytes, List.Lex (· < ·) (a ++ s) (b ++ t)

theorem Bytes.before_cons {x y : UInt8} (h : x < y) (a b : Bytes) : Before (x :: a) (y :: b) :=
  fun _ _ => .rel h

theorem Bytes.Before.append_left {a b : Bytes} (h : Before a b) (c : Bytes) :
    Before (c ++ a) (c ++ b) := by
  intro s t
  induction c with
  | nil => exact h s t
  | cons x c ih => exact .cons ih

theorem Bytes.Before.append_right {a b : Bytes} (h : Before a b) (c d : Bytes) :
    Before (a ++ c) (b ++ d) := by
  intro s t
  rw [List.append_assoc, List.append_assoc]
  exact h (c ++ s) (d ++ t)

theorem ofNat_lt {n m : Nat} (h : n < m) (hm : m < 256) : UInt8.ofNat n < UInt8.ofNat m := by
  rw [UInt8.lt_iff_toNat_lt, UInt8.toNat_ofNat', UInt8.toNat_ofNat']
  omega

/-! ## Octets, most significant first -/

theorem beBytes_succ (width n : Nat) :
    beBytes (width + 1) n = beBytes width (n / 256) ++ [UInt8.ofNat (n % 256)] := by
  simp [beBytes, leBytes]

/-- Octets of one width stand in the order of the numbers. -/
theorem beBytes_before {width n m : Nat} (h : n < m) (hm : m < Nat.pow 256 width) :
    (beBytes width n).Before (beBytes width m) := by
  induction width generalizing n m with
  | zero =>
    have hone : Nat.pow 256 0 = 1 := rfl
    omega
  | succ width ih =>
    have hpow : Nat.pow 256 (width + 1) = Nat.pow 256 width * 256 := rfl
    rw [beBytes_succ, beBytes_succ]
    by_cases hhigh : n / 256 < m / 256
    · apply Bytes.Before.append_right
      exact ih hhigh (Nat.div_lt_of_lt_mul (by rwa [Nat.mul_comm, ← hpow]))
    · -- the octets before the last one agree
      have heq : n / 256 = m / 256 := by omega
      rw [heq]
      apply Bytes.Before.append_left
      exact Bytes.before_cons (ofNat_lt (by omega) (Nat.mod_lt m (by decide))) [] []

/-! ## Markers -/

namespace Lexint

theorem bytes_of_lt {n : Nat} (h : n < 251) : bytes n = [UInt8.ofNat n] := by
  have hmod : n % 256 = n := Nat.mod_eq_of_lt (by omega)
  simp [bytes, pieces, h, leBytes, hmod]

/-- A marker is an octet above every natural that has none. -/
theorem marker_bounds (width : Nat) : marker width ≤ 255 ∧ (1 ≤ width → 251 ≤ marker width) := by
  unfold marker
  split <;> omega

theorem bytes_of_not_lt {n : Nat} (h : ¬ n < 251) :
    bytes n = UInt8.ofNat (marker (width n)) :: beBytes (width n) n := by
  have hmod : marker (width n) % 256 = marker (width n) :=
    Nat.mod_eq_of_lt (Nat.lt_succ_of_le (marker_bounds _).1)
  simp [bytes, pieces, h, leBytes, hmod]

theorem width_mono {n m : Nat} (h : n ≤ m) : width n ≤ width m := by
  unfold width
  repeat' split
  all_goals omega

theorem marker_lt {n m : Nat} (hn : ¬ n < 251) (hm : ¬ m < 251) (h : width n < width m) :
    marker (width n) < marker (width m) := by
  have hwn := width_cases hn
  have hwm := width_cases hm
  unfold marker
  split <;> split <;> omega

/-- The bytes of naturals stand in the order of the naturals. -/
theorem bytes_before {n m : Nat} (h : n < m) (hm : m < 0x10000000000000000) :
    (bytes n).Before (bytes m) := by
  have hbounds := marker_bounds (width m)
  by_cases hlarge : m < 251
  · rw [bytes_of_lt (Nat.lt_trans h hlarge), bytes_of_lt hlarge]
    exact Bytes.before_cons (ofNat_lt h (by omega)) [] []
  · have hwm := width_cases hlarge
    rw [bytes_of_not_lt hlarge]
    by_cases hsmall : n < 251
    · rw [bytes_of_lt hsmall]
      exact Bytes.before_cons (ofNat_lt (by omega) (by omega)) [] _
    · rw [bytes_of_not_lt hsmall]
      by_cases hwidth : width n < width m
      · exact Bytes.before_cons (ofNat_lt (marker_lt hsmall hlarge hwidth) (by omega)) _ _
      · -- one marker, so the octets behind it decide
        have heq : width n = width m :=
          Nat.le_antisymm (width_mono (Nat.le_of_lt h)) (Nat.not_lt.mp hwidth)
        rw [heq]
        exact (beBytes_before h (lt_pow_width hm hlarge)).append_left
          [UInt8.ofNat (marker (width m))]

theorem shift_lt {n m : Int} (hn : -0x8000000000000000 ≤ n) (h : n < m) : shift n < shift m := by
  unfold shift
  omega

end Lexint

/-! ## Kinds -/

namespace Primitive

/-- A kind writes every number of a type, reads it back as the number up to its last byte, whatever
follows it, and its bytes stand before those of every greater number. -/
structure Sorts {α : Type} [LT α] (p : Primitive) (value : α → Value) : Prop where
  before : ∀ n m : α, n < m → ∃ a b, p.codec.encode (value n) = .ok a ∧
    p.codec.encode (value m) = .ok b ∧ a.Before b
  back : ∀ n : α, ∃ a, p.codec.encode (value n) = .ok a ∧
    ∀ s : Bytes, p.codec.decodeFirst (a ++ s) = .ok (value n, a.length)

/-- A kind sorts numbers when it writes the bytes of naturals that are ordered like them, and the
numbers are what it reads back. -/
theorem sorts_of_pieces {α : Type} [LT α] {p : Primitive} {value : α → Value} (code : α → Nat)
    (hraw : p ≠ .raw) (hjson : p ≠ .json) (hlt : ∀ n, code n < 0x10000000000000000)
    (hmono : ∀ n m, n < m → code n < code m)
    (hpieces : ∀ n, p.pieces (value n) = .ok (Lexint.pieces (code n)))
    (hnorm : ∀ n, p.norm (value n) = .ok (value n)) : p.Sorts value := by
  have hencode (n : α) : p.codec.encode (value n) = .ok (Lexint.bytes (code n)) :=
    Codec.encode_of_yields (yields_codec (hpieces n))
  constructor
  · intro n m h
    exact ⟨_, _, hencode n, hencode m, Lexint.bytes_before (hmono n m h) (hlt m)⟩
  · intro n
    refine ⟨_, hencode n, fun s => ?_⟩
    have hfits : Bytes.Fits (Lexint.pieces (code n)).flatten := by
      rw [Bytes.Fits, ← Lexint.bytes, Lexint.length_bytes, Lexint.size, Lexint.width]
      repeat' split
      all_goals decide
    obtain ⟨w, hw, hparse⟩ := parse_pieces hraw hjson (hpieces n) hfits s
    rw [hnorm] at hw
    cases hw
    rw [Codec.decodeFirst_eq]
    exact hparse

theorem sorts_unsigned : lexint.Sorts Value.uint := by
  refine sorts_of_pieces UInt64.toNat (by simp) (by simp) UInt64.toNat_lt ?_ ?_ ?_
  · intro n m h
    exact UInt64.lt_iff_toNat_lt.mp h
  · intro n
    simp only [pieces, Choice.toUInt64_uint, ok_bind]
    rfl
  · intro n
    simp only [norm, Choice.toUInt64_uint, ok_bind]
    rfl

theorem sorts_signed {p : Primitive} (h : p = .signedLexint ∨ p = .lexdate) :
    p.Sorts Value.int := by
  refine sorts_of_pieces (fun n => Lexint.shift n.toInt) ?_ ?_ shift_toInt_lt ?_ ?_ ?_
  · rcases h with rfl | rfl <;> simp
  · rcases h with rfl | rfl <;> simp
  · intro n m hlt
    exact Lexint.shift_lt n.le_toInt (Int64.lt_iff_toInt_lt.mp hlt)
  · intro n
    rcases h with rfl | rfl <;> simp only [pieces, Value.toInt64_int, ok_bind] <;> rfl
  · intro n
    rcases h with rfl | rfl <;> simp only [norm, Value.toInt64_int, ok_bind] <;> rfl

/-- Naturals of 64 bits, integers of 64 bits and dates sort by their bytes, also as the first part
of a composite key, and are read back from in front of the other parts. -/
theorem sorts_lexint :
    lexint.Sorts Value.uint ∧ signedLexint.Sorts Value.int ∧ lexdate.Sorts Value.int :=
  ⟨sorts_unsigned, sorts_signed (.inl rfl), sorts_signed (.inr rfl)⟩

/-! The bytes on both sides of the first markers, and of the shortest width for negative numbers. -/

example : lexint.codec.encode (.uint 250) = .ok [250] ∧
    lexint.codec.encode (.uint 251) = .ok [251, 251] ∧
    lexint.codec.encode (.uint 256) = .ok [252, 1, 0] ∧
    signedLexint.codec.encode (.int (-0x8000000000000000)) = .ok [0] := by
  refine ⟨?_, ?_, ?_, ?_⟩ <;> rfl

end Primitive

end WireSchema
