import WireSchema.Proofs.Primitive.Shape

/-!
# Integers of a fixed width

The kinds of a fixed width hold the integers of so many bits, with a sign or without
(`Primitive.fixedWidth?`, `FixedWidth.Holds`).  Whichever variant an integer is given in, it is
written as the octets of one natural, its code, and an integer that the kind does not hold is out of
range (`guards_pieces`).  Octets are read as the integer with that code, unless the kind takes part
of an octet only and the code has more bits (`guards_read`).  So writing and reading are inverse to
each other (`fixedWidth_bijective`).
-/

namespace WireSchema

open CursorM

/-! ## Outcomes that hang on a range -/

/-- The outcome is the given one within a range, and the fault of being out of range outside. -/
def Guards {α : Type} (x : Except CodecError α) (within : Prop) (a : α) : Prop :=
  (within → x = .ok a) ∧ (¬ within → ∃ kind found, x = .error (.outOfRange kind found))

namespace Guards

variable {α β : Type} {x : Except CodecError α} {P Q : Prop} {a : α}

theorem ok (h : P) (a : α) : Guards (.ok a) P a := ⟨fun _ => rfl, fun hn => absurd h hn⟩

theorem ite [Decidable P] (a : α) (kind found : String) :
    Guards (if P then .ok a else .error (.outOfRange kind found)) P a :=
  ⟨fun h => if_pos h, fun h => ⟨kind, found, if_neg h⟩⟩

theorem congr (h : Guards x P a) (hiff : P ↔ Q) : Guards x Q a :=
  ⟨fun hq => h.1 (hiff.mpr hq), fun hq => h.2 fun hp => hq (hiff.mp hp)⟩

theorem map (h : Guards x P a) (f : α → β) : Guards (do return f (← x)) P (f a) := by
  constructor
  · intro hp
    rw [h.1 hp]
    rfl
  · intro hp
    obtain ⟨kind, found, he⟩ := h.2 hp
    exact ⟨kind, found, by rw [he]; rfl⟩

theorem bind (h : Guards x P a) {f : α → Except CodecError β} {b : β}
    (hf : P → Guards (f a) Q b) : Guards (x >>= f) (P ∧ Q) b := by
  constructor
  · rintro ⟨hp, hq⟩
    rw [h.1 hp, ok_bind]
    exact (hf hp).1 hq
  · intro hn
    by_cases hp : P
    · rw [h.1 hp, ok_bind]
      exact (hf hp).2 fun hq => hn ⟨hp, hq⟩
    · obtain ⟨kind, found, he⟩ := h.2 hp
      exact ⟨kind, found, by rw [he]; rfl⟩

/-- A success is the given outcome, within the range. -/
theorem of_ok (h : Guards x P a) {b : α} (hx : x = .ok b) : P ∧ b = a := by
  by_cases hp : P
  · exact ⟨hp, Except.ok.inj (hx.symm.trans (h.1 hp))⟩
  · obtain ⟨kind, found, he⟩ := h.2 hp
    rw [he] at hx
    cases hx

theorem ok_iff (h : Guards x P a) : (∃ b, x = .ok b) ↔ P :=
  ⟨fun ⟨_, hx⟩ => (h.of_ok hx).1, fun hp => ⟨a, h.1 hp⟩⟩

end Guards

namespace Value

variable {v : Value} {n : Int}

theorem guards_toUInt64 (h : v.integer? = some n) :
    Guards v.toUInt64 (0 ≤ n ∧ n < 0x10000000000000000) (UInt64.ofNat n.toNat) := by
  rw [toUInt64, h]
  exact .ite _ _ _

theorem guards_toInt64 (h : v.integer? = some n) :
    Guards v.toInt64 (-0x8000000000000000 ≤ n ∧ n < 0x8000000000000000) (Int64.ofInt n) := by
  rw [toInt64, h]
  exact .ite _ _ _

/-- An integer of any variant has at most 128 bits. -/
theorem val_of_integer? (h : v.integer? = some n) : (Int128.ofInt n).val = n := by
  cases v with
  | uint m =>
    cases h
    have hlt := m.toNat_lt
    exact Int128.val_ofInt (show 64 < 128 by decide) ⟨by omega, by omega⟩
  | int m =>
    cases h
    exact Int128.val_ofInt (show 63 < 128 by decide) ⟨m.le_toInt, m.toInt_lt⟩
  | bigInt m =>
    cases h
    rw [Int128.ofInt_val]
  | _ => cases h

end Value

/-! ## Widths -/

/-- Integers of so many bits, with a sign or without. -/
structure FixedWidth where
  signed : Bool
  bits : Nat

namespace FixedWidth

/-- The number of octets that hold the bits. -/
def octets (f : FixedWidth) : Nat := (f.bits + 7) / 8

/-- The integers of that many bits. -/
def Holds (f : FixedWidth) (n : Int) : Prop :=
  if f.signed then -(2 : Int) ^ (f.bits - 1) ≤ n ∧ n < (2 : Int) ^ (f.bits - 1)
  else 0 ≤ n ∧ n < (2 : Int) ^ f.bits

/-- The natural that is written for an integer. -/
def code (f : FixedWidth) (n : Int) : Nat := if f.signed then zigzag n else n.toNat

/-- The integer that a natural is written for. -/
def number (f : FixedWidth) (z : Nat) : Int := if f.signed then unzigzag z else z

end FixedWidth

/-- Integers that are not negative have the even codes, so a sign takes one bit. -/
theorem zigzag_lt_iff (bits : Nat) (n : Int) :
    zigzag n < Nat.pow 2 (bits + 1) ↔ -(2 : Int) ^ bits ≤ n ∧ n < (2 : Int) ^ bits := by
  have hpow : Nat.pow 2 (bits + 1) = 2 * 2 ^ bits := Nat.pow_succ'
  have hcast : ((2 ^ bits : Nat) : Int) = (2 : Int) ^ bits := by push_cast; rfl
  rw [hpow, ← hcast]
  unfold zigzag
  split <;> omega

theorem toNat_lt_iff (bits : Nat) {n : Int} (h : 0 ≤ n) :
    n.toNat < Nat.pow 2 bits ↔ n < (2 : Int) ^ bits := by
  have hcast : ((2 ^ bits : Nat) : Int) = (2 : Int) ^ bits := by push_cast; rfl
  rw [← hcast, Nat.pow_eq]
  omega

namespace FixedWidth

variable {f : FixedWidth}

theorem octets_bits (k : Fin 7) : octets ⟨false, k.val + 1⟩ = 1 := by
  show (k.val + 1 + 7) / 8 = 1
  omega

theorem octets_bytes (signed : Bool) (w : Nat) : octets ⟨signed, 8 * (w + 1)⟩ = w + 1 := by
  show (8 * (w + 1) + 7) / 8 = w + 1
  omega

theorem holds_unsigned (bits : Nat) (n : Int) :
    Holds ⟨false, bits⟩ n ↔ 0 ≤ n ∧ n.toNat < Nat.pow 2 bits := by
  rw [Holds, if_neg Bool.false_ne_true]
  exact and_congr_right fun h => (toNat_lt_iff bits h).symm

theorem holds_signed (bits : Nat) (n : Int) :
    Holds ⟨true, bits + 1⟩ n ↔ zigzag n < Nat.pow 2 (bits + 1) := by
  rw [Holds, if_pos rfl, zigzag_lt_iff]
  rfl

/-- Every code is that of one integer. -/
theorem code_number (f : FixedWidth) (z : Nat) : f.code (f.number z) = z := by
  unfold code number
  split
  · exact zigzag_unzigzag z
  · exact Int.toNat_natCast z

theorem code_lt (hpos : 0 < f.bits) {n : Int} (h : f.Holds n) : f.code n < Nat.pow 2 f.bits := by
  obtain ⟨signed, bits⟩ := f
  cases signed with
  | false => exact ((holds_unsigned bits n).mp h).2
  | true =>
    obtain ⟨bits, rfl⟩ := Nat.exists_eq_succ_of_ne_zero (Nat.ne_of_gt hpos)
    exact (holds_signed bits n).mp h

theorem holds_number (hpos : 0 < f.bits) {z : Nat} (h : z < Nat.pow 2 f.bits) :
    f.Holds (f.number z) := by
  obtain ⟨signed, bits⟩ := f
  cases signed with
  | false => exact (holds_unsigned bits z).mpr ⟨Int.natCast_nonneg z, h⟩
  | true =>
    obtain ⟨bits, rfl⟩ := Nat.exists_eq_succ_of_ne_zero (Nat.ne_of_gt hpos)
    have hcode : zigzag (number ⟨true, bits + 1⟩ z) = z := zigzag_unzigzag z
    exact (holds_signed bits _).mpr (by rwa [hcode])

/-- The octets have room for the code of every integer that is held. -/
theorem ofLE_code (hpos : 0 < f.bits) {n : Int} (h : f.Holds n) :
    ofLE (leBytes f.octets (f.code n)) = f.code n := by
  refine ofLE_leBytes_of_lt (Nat.lt_of_lt_of_le (code_lt hpos h) ?_)
  rw [Primitive.pow_bytes]
  refine Nat.pow_le_pow_right (by decide) ?_
  rw [octets]
  omega

theorem number_code {n : Int} (h : f.Holds n) : f.number (f.code n) = n := by
  unfold Holds at h
  unfold code number
  split
  · exact unzigzag_zigzag n
  · rename_i hsigned
    rw [if_neg hsigned] at h
    exact Int.toNat_of_nonneg h.1

end FixedWidth

namespace Primitive

/-- The integers that a kind of a fixed width holds. -/
def fixedWidth? : Primitive → Option FixedWidth
  | .uintBits k => some ⟨false, k.val + 1⟩
  | .uintBytes w => some ⟨false, 8 * (w.val + 1)⟩
  | .intBytes w => some ⟨true, 8 * (w.val + 1)⟩
  | .port => some ⟨false, 16⟩
  | .biguint64 => some ⟨false, 64⟩
  | .bigint64 => some ⟨true, 64⟩
  | _ => Option.none

theorem bits_pos {p : Primitive} {f : FixedWidth} (h : p.fixedWidth? = some f) : 0 < f.bits := by
  cases p with
  | uintBits k | uintBytes w | intBytes w =>
    cases h
    exact Nat.succ_pos _
  | port | biguint64 | bigint64 =>
    cases h
    decide
  | _ => cases h

/-! ## Writing -/

section Writing

variable {v : Value} {n : Int} (hv : v.integer? = some n)

include hv

/-- A natural that has to fit 64 bits first and fewer bits then. -/
theorem guards_unsigned (p : Primitive) (bits : Nat) (hbits : bits ≤ 64) (g : Nat → List Bytes) :
    Guards (do return g (← p.checkBits (← v.toUInt64).toNat bits))
      (FixedWidth.Holds ⟨false, bits⟩ n) (g n.toNat) := by
  have hpow : (2 : Int) ^ bits ≤ 2 ^ 64 := by
    exact_mod_cast Nat.pow_le_pow_right (by decide) hbits
  refine Guards.congr ((Value.guards_toUInt64 hv).bind (Q := n.toNat < Nat.pow 2 bits) ?_) ?_
  · intro h
    have hnat : (UInt64.ofNat n.toNat).toNat = n.toNat := by
      rw [UInt64.toNat_ofNat']
      omega
    rw [hnat]
    exact Guards.map (.ite _ _ _) g
  · rw [FixedWidth.holds_unsigned]
    constructor
    · rintro ⟨h, hlt⟩
      exact ⟨h.1, hlt⟩
    · rintro ⟨hpos, hlt⟩
      have hint := (toNat_lt_iff bits hpos).mp hlt
      exact ⟨⟨hpos, by omega⟩, hlt⟩

/-- An integer that has to fit 64 bits first and fewer bits then. -/
theorem guards_signed (p : Primitive) (bits : Nat) (hbits : bits < 64) (g : Nat → List Bytes) :
    Guards (do return g (← p.checkBits (zigzag (← v.toInt64).toInt) (bits + 1)))
      (FixedWidth.Holds ⟨true, bits + 1⟩ n) (g (zigzag n)) := by
  have hpow : (2 : Int) ^ bits ≤ 2 ^ 63 := by
    exact_mod_cast Nat.pow_le_pow_right (by decide) (Nat.le_of_lt_succ hbits)
  refine Guards.congr ((Value.guards_toInt64 hv).bind (Q := zigzag n < Nat.pow 2 (bits + 1)) ?_) ?_
  · intro h
    have hint : (Int64.ofInt n).toInt = n := by
      rw [Int64.toInt_ofInt]
      exact bmod_eq_self 64 (show 63 < 64 by decide) h
    rw [hint]
    exact Guards.map (.ite _ _ _) g
  · rw [FixedWidth.holds_signed]
    refine ⟨fun h => h.2, fun h => ⟨?_, h⟩⟩
    have hrange := (zigzag_lt_iff bits n).mp h
    omega

theorem guards_biguint64 : Guards (biguint64.pieces v) (FixedWidth.Holds ⟨false, 64⟩ n)
    [leBytes 8 n.toNat] := by
  simp only [pieces, Value.toInt128, hv, ok_bind, Value.val_of_integer? hv]
  exact .ite _ _ _

theorem guards_bigint64 : Guards (bigint64.pieces v) (FixedWidth.Holds ⟨true, 64⟩ n)
    [leBytes 8 (zigzag n)] := by
  simp only [pieces, Value.toInt128, hv, ok_bind, Value.val_of_integer? hv]
  exact .ite _ _ _

/-- An integer that the kind holds is written as the octets of its code, and any other is out of
range. -/
theorem guards_pieces {p : Primitive} {f : FixedWidth} (h : p.fixedWidth? = some f) :
    Guards (p.pieces v) (f.Holds n) [leBytes f.octets (f.code n)] := by
  cases p with
  | uintBits k =>
    cases h
    rw [FixedWidth.octets_bits]
    exact guards_unsigned hv (.uintBits k) (k.val + 1) (by omega) fun z => [leBytes 1 z]
  | uintBytes w =>
    cases h
    rw [FixedWidth.octets_bytes]
    exact guards_unsigned hv (.uintBytes w) (8 * (w.val + 1)) (by omega)
      fun z => [leBytes (w.val + 1) z]
  | intBytes w =>
    cases h
    rw [FixedWidth.octets_bytes]
    exact guards_signed hv (.intBytes w) (8 * w.val + 7) (by omega)
      fun z => [leBytes (w.val + 1) z]
  | port =>
    cases h
    exact guards_unsigned hv .port 16 (by decide) fun z => [leBytes 2 z]
  | biguint64 =>
    cases h
    exact guards_biguint64 hv
  | bigint64 =>
    cases h
    exact guards_bigint64 hv
  | _ => cases h

end Writing

theorem size_fixedWidth {p : Primitive} {f : FixedWidth} (h : p.fixedWidth? = some f) (v : Value) :
    p.size v = .ok f.octets := by
  cases p with
  | uintBits k =>
    cases h
    rw [FixedWidth.octets_bits]
    rfl
  | uintBytes w | intBytes w =>
    cases h
    rw [FixedWidth.octets_bytes]
    rfl
  | port | biguint64 | bigint64 =>
    cases h
    rfl
  | _ => cases h

/-- A fault that shows only when the value is written is that of its encoding. -/
theorem encode_of_error {p : Primitive} {v : Value} {size : Nat} {e : CodecError}
    (hsize : p.size v = .ok size) (h : p.pieces v = .error e) : p.codec.encode v = .error e := by
  unfold Codec.encode
  rw [codec_reserve, codec_write, hsize, h]
  rfl

theorem guards_encode {p : Primitive} {f : FixedWidth} (h : p.fixedWidth? = some f) {v : Value}
    {n : Int} (hv : v.integer? = some n) :
    Guards (p.codec.encode v) (f.Holds n) (leBytes f.octets (f.code n)) := by
  obtain ⟨hok, herror⟩ := guards_pieces hv h
  constructor
  · intro hn
    have hencode := Codec.encode_of_yields (yields_codec (hok hn))
    simpa using hencode
  · intro hn
    obtain ⟨kind, found, he⟩ := herror hn
    exact ⟨kind, found, encode_of_error (size_fixedWidth h v) he⟩

/-! ## Reading -/

theorem integer?_uint {z : Nat} (h : z < Nat.pow 2 64) :
    (Value.uint (UInt64.ofNat z)).integer? = some (z : Int) := by
  have hz : (UInt64.ofNat z).toNat = z := by
    rw [UInt64.toNat_ofNat']
    exact Nat.mod_eq_of_lt h
  rw [Value.integer?, hz]

theorem integer?_int {z : Nat} (h : z < Nat.pow 2 64) :
    (Value.int (Int64.ofInt (unzigzag z))).integer? = some (unzigzag z) := by
  rw [Value.integer?, Int64.toInt_ofInt]
  exact congrArg some (bmod_eq_self 64 (by decide) (unzigzag_bounds 63 h))

theorem integer?_bigInt {n : Int} (h : -(2 : Int) ^ 64 ≤ n ∧ n < (2 : Int) ^ 64) :
    (Value.bigInt (Int128.ofInt n)).integer? = some n :=
  congrArg some (Int128.val_ofInt (by decide) h)

/-- Octets all of whose bits count are read as a number. -/
theorem guards_readFixed {b : Bytes} {bits width : Nat} (hbits : bits = 8 * width)
    (hlength : b.length = width) (g : Nat → Value) (s : Bytes) :
    Guards ((do return g (← Varint.readFixed width)).parse (b ++ s)) (ofLE b < Nat.pow 2 bits)
      (g (ofLE b), width) := by
  have hlt : ofLE b < Nat.pow 2 bits := by
    have h := ofLE_lt b
    rwa [hlength, pow_bytes, ← hbits] at h
  have hread := Varint.parse_readFixed b s
  rw [hlength] at hread
  rw [parse_return (Varint.confined_readFixed width) g hread]
  exact .ok hlt _

/-- An octet is read as a number when only its lower bits are set. -/
theorem guards_readBits (k : Fin 7) (x : UInt8) (s : Bytes) :
    Guards ((read (.uintBits k)).parse (x :: s)) (x.toNat < Nat.pow 2 (k.val + 1))
      (.uint (UInt64.ofNat x.toNat), 1) := by
  rw [read, parse_bind_ok confined_readByte (fun _ => confined_bind (confined_ofExcept _)
    fun _ => confined_pure _) (parse_readByte_cons x s)]
  unfold checkBits
  split
  · exact .ok (by assumption) _
  · exact ⟨fun h => absurd h (by assumption), fun _ => ⟨_, _, rfl⟩⟩

/-- Octets are read as the integer with that code, unless the code has too many bits. -/
theorem guards_read {p : Primitive} {f : FixedWidth} (h : p.fixedWidth? = some f) {b : Bytes}
    (hlength : b.length = f.octets) :
    ∃ w : Value, (ofLE b < Nat.pow 2 f.bits → w.integer? = some (f.number (ofLE b))) ∧
      ∀ s, Guards (p.read.parse (b ++ s)) (ofLE b < Nat.pow 2 f.bits) (w, f.octets) := by
  have hword {bits : Nat} (hbits : bits ≤ 64) (hlt : ofLE b < Nat.pow 2 bits) :
      ofLE b < Nat.pow 2 64 :=
    Nat.lt_of_lt_of_le hlt (Nat.pow_le_pow_right (by decide) hbits)
  cases p with
  | uintBits k =>
    cases h
    rw [FixedWidth.octets_bits] at hlength ⊢
    obtain ⟨x, rfl⟩ := List.length_eq_one_iff.mp hlength
    refine ⟨.uint (UInt64.ofNat (ofLE [x])), ?_, ?_⟩
    · intro hlt
      exact integer?_uint (hword (by dsimp only; omega) hlt)
    · intro s
      exact guards_readBits k x s
  | uintBytes w =>
    cases h
    rw [FixedWidth.octets_bytes] at hlength ⊢
    refine ⟨_, ?_, guards_readFixed rfl hlength _⟩
    intro hlt
    exact integer?_uint (hword (by dsimp only; omega) hlt)
  | intBytes w =>
    cases h
    rw [FixedWidth.octets_bytes] at hlength ⊢
    refine ⟨_, ?_, guards_readFixed rfl hlength _⟩
    intro hlt
    exact integer?_int (hword (by dsimp only; omega) hlt)
  | port =>
    cases h
    refine ⟨_, ?_, guards_readFixed rfl hlength _⟩
    intro hlt
    exact integer?_uint (hword (by decide) hlt)
  | biguint64 =>
    cases h
    refine ⟨_, ?_, guards_readFixed rfl hlength fun z => .bigInt (Int128.ofInt z)⟩
    intro hlt
    have hint : (ofLE b : Int) < 2 ^ 64 := by exact_mod_cast hlt
    exact integer?_bigInt ⟨by omega, hint⟩
  | bigint64 =>
    cases h
    refine ⟨_, ?_, guards_readFixed rfl hlength _⟩
    intro hlt
    have hbounds := unzigzag_bounds 63 hlt
    exact integer?_bigInt ⟨by omega, by omega⟩
  | _ => cases h

/-! ## Writing and reading -/

theorem guards_decode {p : Primitive} {f : FixedWidth} (h : p.fixedWidth? = some f) {b : Bytes}
    (hlength : b.length = f.octets) :
    ∃ w : Value, (ofLE b < Nat.pow 2 f.bits → w.integer? = some (f.number (ofLE b))) ∧
      Guards (p.codec.decode b) (ofLE b < Nat.pow 2 f.bits) w := by
  obtain ⟨w, hw, hread⟩ := guards_read h hlength
  obtain ⟨hok, herror⟩ := hread []
  rw [List.append_nil] at hok herror
  refine ⟨w, hw, ?_, ?_⟩
  · intro hlt
    rw [Codec.decode, Codec.decodeFirst_eq, codec, hok hlt]
    rfl
  · intro hlt
    obtain ⟨kind, found, he⟩ := herror hlt
    exact ⟨kind, found, by rw [Codec.decode, Codec.decodeFirst_eq, codec, he]; rfl⟩

/-- An integer that the kind holds has its octets, whatever its variant, and is read back from in
front of whatever follows them. -/
theorem octets_of_holds {p : Primitive} {f : FixedWidth} (h : p.fixedWidth? = some f) {n : Int}
    (hn : f.Holds n) : ∃ b : Bytes, b.length = f.octets ∧
      (∀ v : Value, v.integer? = some n → p.codec.encode v = .ok b) ∧
      ∃ w : Value, w.integer? = some n ∧
        ∀ s, p.codec.decodeFirst (b ++ s) = .ok (w, f.octets) := by
  have hcode := FixedWidth.ofLE_code (bits_pos h) hn
  have hlt := FixedWidth.code_lt (bits_pos h) hn
  obtain ⟨w, hw, hread⟩ := guards_read h (leBytes_length f.octets (f.code n))
  rw [hcode] at hw hread
  refine ⟨_, leBytes_length _ _, fun v hv => (guards_encode h hv).1 hn, w, ?_, ?_⟩
  · rw [hw hlt, FixedWidth.number_code hn]
  · intro s
    rw [Codec.decodeFirst_eq]
    exact (hread s).1 hlt

/-- What octets are read as is an integer that is written as these octets. -/
theorem holds_of_octets {p : Primitive} {f : FixedWidth} (h : p.fixedWidth? = some f) {b : Bytes}
    (hlength : b.length = f.octets) {w : Value} (hdecode : p.codec.decode b = .ok w) :
    ∃ n : Int, f.Holds n ∧ w.integer? = some n ∧
      ∀ v : Value, v.integer? = some n → p.codec.encode v = .ok b := by
  obtain ⟨w', hw, hguards⟩ := guards_decode h hlength
  obtain ⟨hlt, rfl⟩ := hguards.of_ok hdecode
  have hholds := FixedWidth.holds_number (bits_pos h) hlt
  refine ⟨f.number (ofLE b), hholds, hw hlt, fun v hv => ?_⟩
  rw [(guards_encode h hv).1 hholds, FixedWidth.code_number, ← hlength, leBytes_ofLE]

/-- A kind of a fixed width writes an integer, whatever its variant, if and only if it holds it: in
so many octets that do not depend on the variant and are read back as the integer, whatever follows
them.  It reads so many octets if and only if all their bits count or those that do not are zero,
and then as an integer that is written as these octets. -/
theorem fixedWidth_bijective {p : Primitive} {f : FixedWidth} (h : p.fixedWidth? = some f) :
    (∀ (n : Int) (v : Value), v.integer? = some n →
      ((∃ b, p.codec.encode v = .ok b) ↔ f.Holds n)) ∧
    (∀ n : Int, f.Holds n → ∃ b : Bytes, b.length = f.octets ∧
      (∀ v : Value, v.integer? = some n → p.codec.encode v = .ok b) ∧
      ∃ w : Value, w.integer? = some n ∧
        ∀ s, p.codec.decodeFirst (b ++ s) = .ok (w, f.octets)) ∧
    ∀ b : Bytes, b.length = f.octets →
      ((∃ w, p.codec.decode b = .ok w) ↔ f.bits = 8 * f.octets ∨ ofLE b < 2 ^ f.bits) ∧
      ∀ w, p.codec.decode b = .ok w → ∃ n : Int, f.Holds n ∧ w.integer? = some n ∧
        ∀ v : Value, v.integer? = some n → p.codec.encode v = .ok b := by
  refine ⟨?_, ?_, ?_⟩
  · intro n v hv
    exact (guards_encode h hv).ok_iff
  · intro n hn
    exact octets_of_holds h hn
  · intro b hlength
    refine ⟨?_, fun w hdecode => holds_of_octets h hlength hdecode⟩
    obtain ⟨w, -, hguards⟩ := guards_decode h hlength
    rw [hguards.ok_iff]
    refine ⟨.inr, ?_⟩
    rintro (hwhole | hlt)
    · have hbound := ofLE_lt b
      rwa [hlength, pow_bytes, ← hwhole] at hbound
    · exact hlt

/-- The least integer of 24 bits is written alike in two variants, the integer above the greatest is
not written, and three octets are read whatever they are. -/
theorem fixedWidth_bijective_int24 :
    (∃ b, (intBytes 2).codec.encode (.int (-8388608)) = .ok b ∧
      (intBytes 2).codec.encode (.bigInt (Int128.ofInt (-8388608))) = .ok b ∧ b.length = 3) ∧
    (¬ ∃ b, (intBytes 2).codec.encode (.uint 8388608) = .ok b) ∧
    ∃ w, (intBytes 2).codec.decode [255, 255, 255] = .ok w := by
  obtain ⟨hencode, hback, hdecode⟩ :=
    fixedWidth_bijective (p := intBytes 2) (f := ⟨true, 24⟩) rfl
  have hleast : FixedWidth.Holds ⟨true, 24⟩ (-8388608) := by
    rw [FixedWidth.Holds]
    decide
  obtain ⟨b, hlength, hall, -⟩ := hback _ hleast
  refine ⟨⟨b, hall _ rfl, hall _ rfl, hlength⟩, ?_, (hdecode _ rfl).1.mpr (.inl rfl)⟩
  rw [hencode 8388608 _ rfl, FixedWidth.Holds]
  decide

end Primitive

end WireSchema
