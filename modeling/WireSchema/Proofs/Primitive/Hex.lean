import Mathlib.Data.List.Basic
import WireSchema.Proofs.Primitive.Canonical
import WireSchema.Proofs.Primitive.FixedWidth

/-!
# The kind of hexadecimal text

A text is written if and only if it is hexadecimal once every plus sign in the first place of a
pair is taken for a zero; what is read back is that text in lower case, so a sign is lost
(`hexadecimal_exact`).  Any octets are read as a text that is written as those octets.
-/

namespace WireSchema

/-! ## Digits -/

/-- A digit of a hexadecimal text, in either case. -/
def IsHexDigit (c : Char) : Prop :=
  '0' ≤ c ∧ c ≤ '9' ∨ 'a' ≤ c ∧ c ≤ 'f' ∨ 'A' ≤ c ∧ c ≤ 'F'

instance (c : Char) : Decidable (IsHexDigit c) :=
  inferInstanceAs (Decidable ('0' ≤ c ∧ c ≤ '9' ∨ 'a' ≤ c ∧ c ≤ 'f' ∨ 'A' ≤ c ∧ c ≤ 'F'))

/-- An even number of hexadecimal digits. -/
def Hexadecimal (s : String) : Prop := s.toList.length % 2 = 0 ∧ ∀ c ∈ s.toList, IsHexDigit c

instance (s : String) : Decidable (Hexadecimal s) :=
  decidable_of_iff (s.toList.length % 2 = 0 ∧ s.toList.all (fun c => decide (IsHexDigit c)) = true)
    (by simp [Hexadecimal])

theorem isHexDigit_iff {c : Char} : IsHexDigit c ↔ ∃ n, hexValue? c = some n := by
  unfold IsHexDigit hexValue?
  split
  · simp [*]
  · split
    · simp [*]
    · split <;> simp [*]

/-- A digit is that of its number, up to case. -/
theorem hexDigit_of_hexValue? {c : Char} {n : Nat} (h : hexValue? c = some n) :
    hexDigit n = c.toLower := by
  have hall : ∀ k : Fin 128, (hexValue? (Char.ofNat k)).all fun n =>
      hexDigit n == (Char.ofNat k).toLower := by
    decide
  have hc := hall ⟨c.toNat, toNat_lt_of_hexValue? h⟩
  dsimp only at hc
  rw [Char.ofNat_toNat, h] at hc
  exact eq_of_beq hc

theorem hexPair_ofNat {high low : Nat} (hhigh : high < 16) (hlow : low < 16) :
    hexPair (UInt8.ofNat (16 * high + low)) = [hexDigit high, hexDigit low] := by
  have hbyte : (UInt8.ofNat (16 * high + low)).toNat = 16 * high + low := by
    rw [UInt8.toNat_ofNat']
    omega
  have hdiv : (16 * high + low) / 16 = high := by omega
  have hmod : (16 * high + low) % 16 = low := by omega
  rw [hexPair, hbyte, hdiv, hmod]

/-- Pairs of digits stand for octets whenever there is nothing but pairs of digits. -/
theorem ofHexDigits?_eq_some_iff (l : List Char) :
    (∃ bytes, ofHexDigits? l = some bytes) ↔ l.length % 2 = 0 ∧ ∀ c ∈ l, IsHexDigit c := by
  induction l using ofHexDigits?.induct with
  | case1 => simp [ofHexDigits?]
  | case2 c => simp [ofHexDigits?]
  | case3 high low rest ih =>
    have hlength : (high :: low :: rest).length % 2 = rest.length % 2 := Nat.add_mod_right _ 2
    rw [hlength, List.forall_mem_cons, List.forall_mem_cons, isHexDigit_iff, isHexDigit_iff,
      ofHexDigits?]
    constructor
    · rintro ⟨bytes, h⟩
      obtain ⟨m, hm, h⟩ := Option.bind_eq_some_iff.mp h
      obtain ⟨n, hn, h⟩ := Option.bind_eq_some_iff.mp h
      obtain ⟨more, hmore, -⟩ := Option.bind_eq_some_iff.mp h
      obtain ⟨heven, hall⟩ := ih.mp ⟨more, hmore⟩
      exact ⟨heven, ⟨m, hm⟩, ⟨n, hn⟩, hall⟩
    · rintro ⟨heven, ⟨m, hm⟩, ⟨n, hn⟩, hall⟩
      obtain ⟨more, hmore⟩ := ih.mpr ⟨heven, hall⟩
      exact ⟨_, by rw [hm, hn, hmore]; rfl⟩

/-- The text of the octets that digits stand for is those digits in lower case. -/
theorem hexText_of_ofHexDigits? {l : List Char} {bytes : Bytes} (h : ofHexDigits? l = some bytes) :
    bytes.flatMap hexPair = l.map Char.toLower := by
  induction l using ofHexDigits?.induct generalizing bytes with
  | case1 =>
    cases h
    rfl
  | case2 c => cases h
  | case3 high low rest ih =>
    rw [ofHexDigits?] at h
    obtain ⟨m, hm, h⟩ := Option.bind_eq_some_iff.mp h
    obtain ⟨n, hn, h⟩ := Option.bind_eq_some_iff.mp h
    obtain ⟨more, hmore, ⟨⟩⟩ := Option.bind_eq_some_iff.mp h
    rw [List.flatMap_cons, hexPair_ofNat (lt_of_hexValue? hm) (lt_of_hexValue? hn),
      hexDigit_of_hexValue? hm, hexDigit_of_hexValue? hn, ih hmore]
    rfl

/-! ## Signs -/

/-- A plus sign in the first place of a pair, taken for a zero. -/
def zeroSign (i : Nat) (c : Char) : Char := if c = '+' ∧ i % 2 = 0 then '0' else c

/-- The text with zeros for the plus signs that stand first in their pairs. -/
def zeroSigns (s : String) : String := String.ofList (s.toList.mapIdx zeroSign)

theorem mapIdx_zeroSign (high low : Char) (rest : List Char) :
    (high :: low :: rest).mapIdx zeroSign = zeroSign 0 high :: low :: rest.mapIdx zeroSign := by
  have hrest : (fun i => zeroSign (i + 1 + 1)) = zeroSign := by
    funext i c
    have hmod : (i + 1 + 1) % 2 = i % 2 := by omega
    rw [zeroSign, zeroSign, hmod]
  have hlow : zeroSign (0 + 1) low = low := if_neg fun h => absurd h.2 (by decide)
  rw [List.mapIdx_cons, List.mapIdx_cons, hlow, hrest]

/-- A hexadecimal text has no signs. -/
theorem hexadecimal_iff (s : String) :
    Hexadecimal s ↔ Hexadecimal (zeroSigns s) ∧ zeroSigns s = s := by
  constructor
  · intro h
    have hsame : zeroSigns s = s := by
      have hmap : s.toList.mapIdx zeroSign = s.toList := by
        refine List.ext_getElem (List.length_mapIdx) fun i hi hi' => ?_
        rw [List.getElem_mapIdx]
        refine if_neg fun hplus => ?_
        have hdigit := h.2 _ (List.getElem_mem hi')
        rw [hplus.1] at hdigit
        exact absurd hdigit (by decide)
      rw [zeroSigns, hmap, String.ofList_toList]
    exact ⟨hsame.symm ▸ h, hsame⟩
  · rintro ⟨h, hsame⟩
    exact hsame ▸ h

namespace Primitive

theorem pairValue?_zeroSign (high low : Char) :
    pairValue? high low =
      do return 16 * (← hexValue? (zeroSign 0 high)) + (← hexValue? low) := by
  unfold pairValue? zeroSign
  by_cases hplus : high = '+'
  · have hzero : hexValue? '0' = some 0 := by decide
    rw [if_pos hplus, if_pos ⟨hplus, rfl⟩, hzero]
    simp
  · rw [if_neg hplus, if_neg fun h => hplus h.1]

/-- Pairs with a sign are the pairs of digits with a zero in its place. -/
theorem pairsToBytes?_zeroSign (l : List Char) :
    pairsToBytes? l = ofHexDigits? (l.mapIdx zeroSign) := by
  induction l using pairsToBytes?.induct with
  | case1 => rfl
  | case2 c => rfl
  | case3 high low rest ih =>
    rw [mapIdx_zeroSign, pairsToBytes?, ofHexDigits?, pairValue?_zeroSign, ih]
    simp [Option.bind_assoc]

/-! ## The kind -/

theorem pieces_hex (s : String) :
    pieces .hex (.string s) =
      match ofHexText? (zeroSigns s) with
      | some bytes => .ok (prefixedPieces bytes)
      | Option.none => .error (.invalidValue "hex string" s) := by
  rw [ofHexText?, zeroSigns, String.toList_ofList, ← pairsToBytes?_zeroSign,
    ← slicesToBytes?_utf8Bytes]
  rfl

theorem encode_hex {s : String} {bytes : Bytes} (h : ofHexText? (zeroSigns s) = some bytes) :
    hex.codec.encode (.string s) = .ok (Varint.bytes bytes.length ++ bytes) := by
  rw [← flatten_prefixedPieces]
  exact Codec.encode_of_yields (yields_codec (by rw [pieces_hex, h]))

theorem encode_hex_none {s : String} (h : ofHexText? (zeroSigns s) = Option.none) :
    hex.codec.encode (.string s) = .error (.invalidValue "hex string" s) :=
  encode_of_error rfl (by rw [pieces_hex, h])

theorem decodeFirst_hex {bytes : Bytes} (h : (Varint.bytes bytes.length ++ bytes).Fits)
    (rest : Bytes) :
    hex.codec.decodeFirst (Varint.bytes bytes.length ++ bytes ++ rest) =
      .ok (.string (hexText bytes), (Varint.bytes bytes.length ++ bytes).length) := by
  rw [← flatten_prefixedPieces] at h ⊢
  rw [Codec.decodeFirst_eq]
  exact parse_return confined_readPrefixed (fun b => .string (hexText b)) (parse_prefixed h rest)

/-- What is read is the text of the last of the bytes that it takes. -/
theorem decodeFirst_hex_inv {input : Bytes} {v : Value} {n : Nat}
    (h : hex.codec.decodeFirst input = .ok (v, n)) :
    ∃ payload, payload <:+ input.take n ∧ v = .string (hexText payload) := by
  rw [Codec.decodeFirst_eq] at h
  obtain ⟨payload, k, m, hread, hpure, rfl⟩ :=
    CursorM.parse_bind_inv confined_readPrefixed (fun _ => CursorM.confined_pure _) h
  cases hpure
  refine ⟨payload, ?_, rfl⟩
  obtain ⟨length, i, j, -, hpayload, rfl⟩ :=
    CursorM.parse_bind_inv Varint.confined_varint CursorM.confined_read hread
  obtain ⟨-, rfl, rfl⟩ := CursorM.parse_read_inv hpayload
  have hdrop : (input.drop i).take j = (input.take (i + j)).drop i := by
    rw [List.drop_take, Nat.add_sub_cancel_left]
  rw [hdrop]
  exact List.drop_suffix i _

theorem toLower_of_ofHexText? {s : String} {bytes : Bytes} (h : ofHexText? s = some bytes) :
    hexText bytes = s.toLower := by
  have hmap : s.toLower.toList = s.toList.map Char.toLower := String.toList_map
  rw [hexText, hexText_of_ofHexDigits? h, ← String.toList_inj, String.toList_ofList, hmap]

theorem ofHexText?_hexText (bytes : Bytes) :
    ofHexText? (zeroSigns (hexText bytes)) = some bytes := by
  rw [ofHexText?, zeroSigns, String.toList_ofList, ← pairsToBytes?_zeroSign,
    pairsToBytes?_hexText]

/-- A text is written if and only if it is hexadecimal with a zero for each plus sign that stands
first in its pair, as its octets behind their number, and read back as those digits in lower case,
without the signs.  Octets are read as a text that is written as the same octets. -/
theorem hexadecimal_exact (s : String) (payload input : Bytes) :
    ((Hexadecimal s ↔ Hexadecimal (zeroSigns s) ∧ zeroSigns s = s) ∧
      ((∃ b, hex.codec.encode (.string s) = .ok b) ↔ Hexadecimal (zeroSigns s)) ∧
      (¬ Hexadecimal (zeroSigns s) →
        hex.codec.encode (.string s) = .error (.invalidValue "hex string" s)) ∧
      ∀ b, hex.codec.encode (.string s) = .ok b →
        ∃ octets, ofHexText? (zeroSigns s) = some octets ∧
          b = Varint.bytes octets.length ++ octets ∧
          (b.Fits → ∀ rest, hex.codec.decodeFirst (b ++ rest) =
            .ok (.string (zeroSigns s).toLower, b.length))) ∧
    (hex.codec.encode (.string (hexText payload)) =
        .ok (Varint.bytes payload.length ++ payload) ∧
      ((Varint.bytes payload.length ++ payload).Fits → ∀ rest,
        hex.codec.decodeFirst (Varint.bytes payload.length ++ payload ++ rest) =
          .ok (.string (hexText payload), (Varint.bytes payload.length ++ payload).length))) ∧
    ∀ v n, hex.codec.decodeFirst input = .ok (v, n) →
      ∃ octets, octets <:+ input.take n ∧ v = .string (hexText octets) := by
  refine ⟨?_, ⟨encode_hex (ofHexText?_hexText payload), decodeFirst_hex⟩,
    fun v n => decodeFirst_hex_inv⟩
  have haccepted : Hexadecimal (zeroSigns s) ↔ ∃ bytes, ofHexText? (zeroSigns s) = some bytes :=
    (ofHexDigits?_eq_some_iff _).symm
  cases hoctets : ofHexText? (zeroSigns s) with
  | none =>
    have hrefused : ¬ Hexadecimal (zeroSigns s) := by simp [haccepted, hoctets]
    have herror := encode_hex_none hoctets
    refine ⟨hexadecimal_iff s, ?_, fun _ => herror, ?_⟩
    · simp [herror, hrefused]
    · simp [herror]
  | some octets =>
    have hencode := encode_hex hoctets
    refine ⟨hexadecimal_iff s, ?_, fun hnot => absurd (haccepted.mpr ⟨octets, hoctets⟩) hnot, ?_⟩
    · exact ⟨fun _ => haccepted.mpr ⟨octets, hoctets⟩, fun _ => ⟨_, hencode⟩⟩
    · intro b hb
      obtain rfl := Except.ok.inj (hencode.symm.trans hb)
      refine ⟨octets, rfl, rfl, fun hfits rest => ?_⟩
      rw [← toLower_of_ofHexText? hoctets]
      exact decodeFirst_hex hfits rest

/-- A sign is taken for a digit, and is not read back. -/
theorem hexadecimal_exact_sign :
    ¬ Hexadecimal "+f" ∧ hex.codec.encode (.string "+f") = .ok [1, 0x0f] ∧
      hex.codec.decodeFirst [1, 0x0f] = .ok (.string "0f", 2) := by
  obtain ⟨⟨-, haccepted, -, hback⟩, -⟩ := hexadecimal_exact "+f" [] []
  obtain ⟨b, hb⟩ := haccepted.mpr (by decide)
  obtain ⟨payload, hpayload, rfl, hread⟩ := hback b hb
  obtain rfl : [0x0f] = payload := Option.some.inj hpayload
  have htext : (zeroSigns "+f").toLower = "0f" :=
    (toLower_of_ofHexText? hpayload).symm.trans (by decide)
  have hwhole := hread (by decide) []
  rw [htext] at hwhole
  exact ⟨by decide, hb, hwhole⟩

end Primitive

end WireSchema
