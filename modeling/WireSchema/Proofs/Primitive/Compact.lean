import WireSchema.Proofs.Primitive.Canonical
import WireSchema.Proofs.Primitive.FixedWidth

/-!
# Compact integers take the fewest bytes

A compact natural may be read from a longer spelling than the one it is written in, such as a small
number behind a marker, but never from a shorter one (`Varint.size_le_of_parse`).  Integers are
folded onto naturals with the sign as the last bit.  On words of any width this is a shift, with all
bits turned over for a sign (`foldSign`, `unfoldSign`), and the two directions are inverse to each
other.  So the kinds that are written this way are codes that end by themselves and that no spelling
undercuts (`Primitive.MinimalCode`), also for integers of 128 bits as words behind their count.
-/

namespace WireSchema

open CursorM

/-! ## Naturals -/

namespace Varint

/-- What is read is a byte below the markers, or a number of a fixed width behind its marker. -/
theorem parse_varint_inv {w : Bytes} {n k : Nat} (h : read.parse w = .ok (n, k)) :
    n < 0xfd ∧ k = 1 ∨ n < Nat.pow 256 2 ∧ k = 3 ∨ n < Nat.pow 256 4 ∧ k = 5 ∨
      n < Nat.pow 256 8 ∧ k = 9 := by
  have hfixed {width m j : Nat} {s : Bytes} (hread : (readFixed width).parse s = .ok (m, j)) :
      m < Nat.pow 256 width ∧ j = width := by
    obtain ⟨hle, rfl, rfl⟩ := parse_readFixed_inv hread
    have hlt := ofLE_lt (s.take j)
    rw [List.length_take_of_le hle] at hlt
    exact ⟨hlt, rfl⟩
  cases w with
  | nil =>
    rw [parse_varint_nil] at h
    cases h
  | cons x s =>
    rw [parse_varint_cons] at h
    obtain ⟨j, hj, rfl⟩ := shift_eq_ok h
    split at hj
    · obtain ⟨hlt, rfl⟩ := hfixed hj
      exact .inr (.inl ⟨hlt, rfl⟩)
    · split at hj
      · obtain ⟨hlt, rfl⟩ := hfixed hj
        exact .inr (.inr (.inl ⟨hlt, rfl⟩))
      · split at hj
        · obtain ⟨hlt, rfl⟩ := hfixed hj
          exact .inr (.inr (.inr ⟨hlt, rfl⟩))
        · cases hj
          have hx := x.toNat_lt
          exact .inl ⟨by omega, rfl⟩

/-- A natural is read from no fewer bytes than it is written in. -/
theorem size_le_of_parse {w : Bytes} {n k : Nat} (h : read.parse w = .ok (n, k)) :
    n < 0x10000000000000000 ∧ size n ≤ k := by
  have hcases := parse_varint_inv h
  simp only [Nat.pow_eq, Nat.reducePow] at hcases
  unfold size
  repeat' split
  all_goals omega

end Varint

/-! ## The sign as the last bit -/

/-- A word shifted to the left, with all bits turned over if it was negative. -/
def foldSign {w : Nat} (n : BitVec w) : BitVec w := (n <<< 1) ^^^ n.sshiftRight (w - 1)

/-- A word shifted to the right, with all bits turned over if its last bit was set. -/
def unfoldSign {w : Nat} (z : BitVec w) : BitVec w := (z >>> 1) ^^^ -(z &&& 1)

section

variable {w : Nat}

theorem ushiftRight_eq_zero {n : BitVec (w + 1)} (h : n.msb = false) : n >>> w = 0#(w + 1) := by
  have hlt := BitVec.msb_eq_false_iff_two_mul_lt.mp h
  rw [Nat.pow_succ'] at hlt
  apply BitVec.eq_of_toNat_eq
  rw [BitVec.toNat_ushiftRight, Nat.shiftRight_eq_div_pow, Nat.div_eq_of_lt (by omega)]
  rfl

/-- A shift by all bits but one leaves the sign in every bit. -/
theorem sshiftRight_sign (n : BitVec (w + 1)) :
    n.sshiftRight w = if n.msb then BitVec.allOnes (w + 1) else 0#(w + 1) := by
  cases h : n.msb with
  | false => exact (BitVec.sshiftRight_eq_of_msb_false h).trans (ushiftRight_eq_zero h)
  | true =>
    have hnot : (~~~n).msb = false := by
      rw [BitVec.msb_not]
      simp [h]
    rw [BitVec.sshiftRight_eq_of_msb_true h, ushiftRight_eq_zero hnot]
    exact BitVec.not_zero

theorem toNat_foldSign (n : BitVec (w + 1)) : (foldSign n).toNat = zigzag n.toInt := by
  have hlt := n.isLt
  have hshift : (n <<< 1).toNat = 2 * n.toNat % 2 ^ (w + 1) := by
    rw [BitVec.toNat_shiftLeft, Nat.shiftLeft_eq, Nat.mul_comm, Nat.pow_one]
  rw [foldSign, Nat.add_sub_cancel, sshiftRight_sign, BitVec.toInt_eq_msb_cond]
  cases h : n.msb with
  | false =>
    have hhalf := BitVec.msb_eq_false_iff_two_mul_lt.mp h
    rw [if_neg Bool.false_ne_true, if_neg Bool.false_ne_true, BitVec.xor_zero, hshift,
      Nat.mod_eq_of_lt hhalf, zigzag, if_pos (Int.natCast_nonneg _), Int.toNat_natCast]
  | true =>
    -- the bit that is shifted out is the sign
    have hhalf := BitVec.msb_eq_true_iff_two_mul_ge.mp h
    have hmod : 2 * n.toNat % 2 ^ (w + 1) = 2 * n.toNat - 2 ^ (w + 1) := by
      rw [Nat.mod_eq_sub_mod hhalf, Nat.mod_eq_of_lt (by omega)]
    rw [if_pos rfl, if_pos rfl, BitVec.xor_allOnes, BitVec.toNat_not, hshift, hmod, zigzag]
    generalize 2 ^ (w + 1) = m at *
    rw [if_neg (by omega)]
    omega

theorem toInt_unfoldSign (z : BitVec (w + 1)) : (unfoldSign z).toInt = unzigzag z.toNat := by
  have hlt := z.isLt
  have hhalf : (z >>> 1).toNat = z.toNat / 2 := by
    rw [BitVec.toNat_ushiftRight, Nat.shiftRight_eq_div_pow, Nat.pow_one]
  have hsign : (z >>> 1).msb = false := by
    rw [BitVec.msb_eq_false_iff_two_mul_lt, hhalf]
    omega
  have hlast : (z &&& 1).toNat = z.toNat % 2 := by
    rw [BitVec.toNat_and]
    simp
  rw [unfoldSign, unzigzag]
  split
  · rename_i heven
    have hzero : z &&& 1 = 0#(w + 1) := BitVec.eq_of_toNat_eq (by rw [hlast, heven]; rfl)
    rw [hzero, BitVec.neg_zero, BitVec.xor_zero, BitVec.toInt_eq_toNat_of_msb hsign, hhalf]
  · rename_i hodd
    have hone : z &&& 1 = 1#(w + 1) := BitVec.eq_of_toNat_eq (by rw [hlast]; simp; omega)
    rw [hone, BitVec.neg_one_eq_allOnes, BitVec.xor_allOnes, BitVec.toInt_eq_msb_cond,
      BitVec.msb_not, hsign, BitVec.toNat_not, hhalf]
    simp only [Nat.zero_lt_succ, decide_true, Bool.not_false, Bool.and_self, if_true]
    generalize 2 ^ (w + 1) = m at *
    omega

theorem unfoldSign_foldSign (n : BitVec (w + 1)) : unfoldSign (foldSign n) = n := by
  apply BitVec.eq_of_toInt_eq
  rw [toInt_unfoldSign, toNat_foldSign, unzigzag_zigzag]

theorem foldSign_unfoldSign (z : BitVec (w + 1)) : foldSign (unfoldSign z) = z := by
  apply BitVec.eq_of_toNat_eq
  rw [toNat_foldSign, toInt_unfoldSign, zigzag_unzigzag]

end

/-! ## Words behind their count -/

namespace Primitive

/-- The bytes of words behind their count. -/
def wordBytes (words : List Nat) : Bytes :=
  Varint.bytes words.length ++ (words.map (leBytes 8)).flatten

theorem length_flatten_words (words : List Nat) :
    (words.map (leBytes 8)).flatten.length = 8 * words.length := by
  induction words with
  | nil => rfl
  | cons word rest ih =>
    rw [List.map_cons, List.flatten_cons, List.length_append, leBytes_length, ih, List.length_cons]
    omega

theorem length_wordBytes {words : List Nat} (h : words.length ≤ 2) :
    (wordBytes words).length = 1 + 8 * words.length := by
  have hone : Varint.size words.length = 1 := if_pos (Nat.le_trans h (by decide))
  rw [wordBytes, List.length_append, Varint.length_bytes, hone, length_flatten_words]

theorem parse_readWords_inv {count z k : Nat} {s : Bytes}
    (h : (readWords count).parse s = .ok (z, k)) : z < wordCount ^ count ∧ k = 8 * count := by
  induction count generalizing s z k with
  | zero =>
    cases h
    exact ⟨Nat.one_pos, rfl⟩
  | succ count ih =>
    obtain ⟨low, i, j, hlow, hrest, rfl⟩ := parse_bind_inv (Varint.confined_readFixed 8)
      (fun _ => confined_bind (confined_readWords count) fun _ => confined_pure _) h
    obtain ⟨high, hhigh, rfl⟩ := parse_return_inv (confined_readWords count) hrest
    obtain ⟨hlt, rfl⟩ := ih hhigh
    obtain ⟨hle, rfl, rfl⟩ := Varint.parse_readFixed_inv hlow
    have hword := ofLE_lt (s.take 8)
    rw [List.length_take_of_le hle] at hword
    have hword : ofLE (s.take 8) < wordCount := hword
    refine ⟨?_, by omega⟩
    calc ofLE (s.take 8) + wordCount * high < wordCount * (high + 1) := by
          rw [Nat.mul_succ]
          omega
      _ ≤ wordCount * wordCount ^ count := Nat.mul_le_mul_left _ hlt
      _ = wordCount ^ (count + 1) := Nat.pow_succ'.symm

theorem length_wordsOf_le {z count : Nat} (h : z < wordCount ^ count) :
    (wordsOf z).length ≤ count := by
  have hcount := length_wordsOf z
  match count with
  | 0 =>
    rw [Nat.pow_zero] at h
    rw [wordsOf, if_pos (by omega)]
    exact Nat.le_refl 0
  | 1 =>
    rw [Nat.pow_one] at h
    rw [wordsOf, if_pos h]
    split
    · exact Nat.zero_le 1
    · exact Nat.le_refl 1
  | count + 2 => omega

/-! ## Kinds -/

/-- A kind writes each number as bytes that are read back as the number whatever follows them, and
reads no number from fewer bytes. -/
structure MinimalCode {α : Type} (p : Primitive) (value : α → Value) (bytes : α → Bytes) :
    Prop where
  written : ∀ a, p.codec.encode (value a) = .ok (bytes a)
  back : ∀ a s, p.codec.decodeFirst (bytes a ++ s) = .ok (value a, (bytes a).length)
  least : ∀ s a k, p.codec.decodeFirst s = .ok (value a, k) → (bytes a).length ≤ k

/-- A kind that is read and written as the compact natural of a number. -/
theorem minimalCode_of_code {α : Type} {p : Primitive} {value : α → Value} {g : Nat → Value}
    (code : α → Nat) (hread : p.read = do return g (← Varint.read))
    (hlt : ∀ a, code a < 0x10000000000000000)
    (hpieces : ∀ a, p.pieces (value a) = .ok (Varint.pieces (code a)))
    (hvalue : ∀ a z, z < 0x10000000000000000 → (g z = value a ↔ z = code a)) :
    p.MinimalCode value fun a => Varint.bytes (code a) where
  written a := Codec.encode_of_yields (yields_codec (hpieces a))
  back a s := by
    have hback := Varint.parse_varint_append (hlt a) s
    rw [Codec.decodeFirst_eq, Varint.length_bytes]
    show p.read.parse _ = _
    rw [hread, parse_return Varint.confined_varint g hback, (hvalue a _ (hlt a)).mpr rfl]
  least s a k h := by
    rw [Codec.decodeFirst_eq] at h
    have h : p.read.parse s = .ok (value a, k) := h
    rw [hread] at h
    obtain ⟨z, hz, hg⟩ := parse_return_inv Varint.confined_varint h
    obtain ⟨hsmall, hsize⟩ := Varint.size_le_of_parse hz
    rwa [Varint.length_bytes, ← (hvalue a z hsmall).mp hg.symm]

theorem minimalCode_uint : uint.MinimalCode Value.uint fun n => Varint.bytes n.toNat := by
  refine minimalCode_of_code (g := fun z => .uint (UInt64.ofNat z)) UInt64.toNat rfl
    UInt64.toNat_lt ?_ ?_
  · intro n
    simp only [pieces, Choice.toUInt64_uint, ok_bind]
    rfl
  · intro n z hz
    rw [Value.uint.injEq, ← UInt64.toNat_inj, UInt64.toNat_ofNat_of_lt' hz]

/-- An integer of 64 bits is the one that its code is unfolded to. -/
theorem ofInt_unzigzag_eq_iff (n : Int64) {z : Nat} (hz : z < 0x10000000000000000) :
    Int64.ofInt (unzigzag z) = n ↔ z = zigzag n.toInt := by
  constructor
  · rintro rfl
    obtain ⟨hl, hu⟩ := unzigzag_bounds 63 hz
    rw [Int64.toInt_ofInt_of_le hl (by omega), zigzag_unzigzag]
  · rintro rfl
    rw [unzigzag_zigzag, Int64.ofInt_toInt]

theorem minimalCode_signed {p : Primitive} (h : p = .int ∨ p = .date) :
    p.MinimalCode Value.int fun n => Varint.bytes (zigzag n.toInt) := by
  refine minimalCode_of_code (g := fun z => .int (Int64.ofInt (unzigzag z)))
    (fun n : Int64 => zigzag n.toInt) ?_ zigzag_toInt_lt ?_ ?_
  · rcases h with rfl | rfl <;> rfl
  · intro n
    rcases h with rfl | rfl <;> simp only [pieces, Value.toInt64_int, ok_bind] <;> rfl
  · intro n z hz
    rw [Value.int.injEq, ofInt_unzigzag_eq_iff n hz]

theorem pieces_bigint (n : Int128) :
    bigint.pieces (.bigInt n) = .ok (Varint.pieces (wordsOf (zigzag n.val)).length ++
      (wordsOf (zigzag n.val)).map (leBytes 8)) := by
  simp only [pieces, Value.toInt128_bigInt, ok_bind]
  rfl

/-- A spelling of an integer of 128 bits has at least the words that its code has. -/
theorem parse_bigint_inv {n : Int128} {s : Bytes} {k : Nat}
    (h : bigint.read.parse s = .ok (.bigInt n, k)) :
    ∃ count i, Varint.read.parse s = .ok (count, i) ∧ (wordsOf (zigzag n.val)).length ≤ count ∧
      count ≤ 2 ∧ k = i + 8 * count := by
  obtain ⟨count, i, j, hcount, hrest, rfl⟩ := parse_bind_inv Varint.confined_varint
    (fun count => by
      split
      · exact confined_throw _
      · exact confined_bind (confined_readWords count) fun _ => confined_pure _) h
  split at hrest
  · cases hrest
  · rename_i hfew
    obtain ⟨z, hz, hn⟩ := parse_return_inv (confined_readWords count) hrest
    obtain ⟨hlt, rfl⟩ := parse_readWords_inv hz
    cases hn
    have hbound : z < Nat.pow 2 128 := by
      have hpow : wordCount ^ count ≤ wordCount ^ 2 :=
        Nat.pow_le_pow_right (by decide) (Nat.not_lt.mp hfew)
      exact Nat.lt_of_lt_of_le hlt hpow
    have hcode : zigzag (Int128.ofInt (unzigzag z)).val = z := by
      rw [Int128.val_ofInt (show 127 < 128 by decide) (unzigzag_bounds 127 hbound),
        zigzag_unzigzag]
    rw [hcode]
    exact ⟨count, i, hcount, length_wordsOf_le hlt, Nat.not_lt.mp hfew, rfl⟩

theorem minimalCode_bigint :
    bigint.MinimalCode Value.bigInt fun n => wordBytes (wordsOf (zigzag n.val)) where
  written n := by
    have hencode := Codec.encode_of_yields (yields_codec (pieces_bigint n))
    rwa [List.flatten_append] at hencode
  back n s := by
    have hfew := length_wordsOf (zigzag n.val)
    have hfits : (wordBytes (wordsOf (zigzag n.val))).Fits := by
      rw [Bytes.Fits, length_wordBytes hfew]
      omega
    have hbytes : (Varint.pieces (wordsOf (zigzag n.val)).length ++
        (wordsOf (zigzag n.val)).map (leBytes 8)).flatten = wordBytes (wordsOf (zigzag n.val)) :=
      List.flatten_append
    obtain ⟨v, hv, hread⟩ :=
      parse_pieces (by simp) (by simp) (pieces_bigint n) (hbytes ▸ hfits) s
    rw [norm, Value.toInt128_bigInt] at hv
    cases hv
    rw [hbytes] at hread
    rw [Codec.decodeFirst_eq]
    exact hread
  least s n k h := by
    rw [Codec.decodeFirst_eq] at h
    obtain ⟨count, i, hcount, hle, -, rfl⟩ := parse_bigint_inv h
    have hpos := Varint.parse_varint_pos hcount
    rw [length_wordBytes (length_wordsOf _)]
    omega

/-- Compact naturals of 64 bits are read back as so many bytes as they were written in, whatever
follows them, and from no fewer.  The sign of a word of any width, 64 and 128 bits among them, is
folded into its last bit and back without loss.  Naturals of 64 bits, integers of 64 bits, dates and
integers of 128 bits, which are at most two words behind their count, therefore have minimal
codes. -/
theorem compact_minimal :
    (∀ n : UInt64, Yields (Varint.reserve n.toNat) (Varint.write n.toNat) (Varint.bytes n.toNat) ∧
      ∀ s, Varint.read.parse (Varint.bytes n.toNat ++ s) = .ok (n.toNat, Varint.size n.toNat)) ∧
    (∀ (s : Bytes) (n k : Nat), Varint.read.parse s = .ok (n, k) →
      n < 0x10000000000000000 ∧ Varint.size n ≤ k) ∧
    (∀ (w : Nat) (n : BitVec (w + 1)), (foldSign n).toNat = zigzag n.toInt ∧
      unzigzag (zigzag n.toInt) = n.toInt ∧ unfoldSign (foldSign n) = n) ∧
    (∀ (w : Nat) (z : BitVec (w + 1)), (unfoldSign z).toInt = unzigzag z.toNat ∧
      zigzag (unzigzag z.toNat) = z.toNat ∧ foldSign (unfoldSign z) = z) ∧
    uint.MinimalCode Value.uint (fun n => Varint.bytes n.toNat) ∧
    int.MinimalCode Value.int (fun n => Varint.bytes (zigzag n.toInt)) ∧
    date.MinimalCode Value.int (fun n => Varint.bytes (zigzag n.toInt)) ∧
    bigint.MinimalCode Value.bigInt (fun n => wordBytes (wordsOf (zigzag n.val))) ∧
    ∀ n : Int128, (wordsOf (zigzag n.val)).length ≤ 2 := by
  refine ⟨fun n => ⟨Varint.yields_bytes _, Varint.parse_varint_append n.toNat_lt⟩,
    fun s n k => Varint.size_le_of_parse, fun w n => ?_, fun w z => ?_, minimalCode_uint,
    minimalCode_signed (.inl rfl), minimalCode_signed (.inr rfl), minimalCode_bigint,
    fun n => length_wordsOf _⟩
  · exact ⟨toNat_foldSign n, unzigzag_zigzag _, unfoldSign_foldSign n⟩
  · exact ⟨toInt_unfoldSign z, zigzag_unzigzag _, foldSign_unfoldSign z⟩

/-- Five behind a marker is read from more bytes than it is written in, and the least integer of 128
bits has two full words. -/
theorem compact_minimal_padded :
    Varint.read.parse [0xfd, 5, 0] = .ok (5, 3) ∧ Varint.size 5 ≤ 3 ∧
      bigint.codec.decodeFirst (2 :: List.replicate 16 0xff ++ [7]) =
        .ok (.bigInt (Int128.ofInt (-0x80000000000000000000000000000000)), 17) := by
  have hpadded : Varint.read.parse [0xfd, 5, 0] = .ok (5, 3) := by rfl
  have hfull : wordBytes (wordsOf (zigzag
      (Int128.ofInt (-0x80000000000000000000000000000000)).val)) = 2 :: List.replicate 16 0xff := by
    decide +kernel
  obtain ⟨-, hleast, -, -, -, -, -, hwords, -⟩ := compact_minimal
  have hback := hwords.back (Int128.ofInt (-0x80000000000000000000000000000000)) [7]
  rw [hfull] at hback
  exact ⟨hpadded, (hleast _ _ _ hpadded).2, hback⟩

end Primitive

end WireSchema
