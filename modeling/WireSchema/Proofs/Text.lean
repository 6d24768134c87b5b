import WireSchema.Codec.Primitive

/-!
# Texts as bytes

The UTF-8 bytes of a text are read back as the text.  Cutting those bytes into slices of two finds
the octets of a text of hexadecimal pairs exactly where taking its characters two by two does
(`slicesToBytes?_utf8Bytes`), and such a text has two bytes for each octet that it stands for.
-/

namespace WireSchema

theorem length_utf8Bytes (s : String) : (utf8Bytes s).length = s.utf8ByteSize := by
  simp [utf8Bytes, ← String.size_toByteArray]

/-- The UTF-8 bytes of a text are those of no other text. -/
@[simp] theorem ofUtf8Bytes_utf8Bytes (s : String) : ofUtf8Bytes? (utf8Bytes s) = some s := by
  have h : (⟨(utf8Bytes s).toArray⟩ : ByteArray) = s.toByteArray := by
    simp [utf8Bytes]
  unfold ofUtf8Bytes? String.fromUTF8?
  rw [h]
  simp [String.isValidUTF8, String.fromUTF8]

theorem utf8Size_eq_one {c : Char} (h : c.toNat < 128) : c.utf8Size = 1 := by
  rw [Char.utf8Size_eq_one_iff, UInt32.le_iff_toNat_le]
  exact Nat.le_of_lt_succ h

theorem utf8ByteSize_ofList {l : List Char} (h : ∀ c ∈ l, c.toNat < 128) :
    (String.ofList l).utf8ByteSize = l.length := by
  induction l with
  | nil => rfl
  | cons c rest ih =>
    have hc := utf8Size_eq_one (h c (by simp))
    have hr := ih fun d hd => h d (by simp [hd])
    rw [String.ofList_cons, String.utf8ByteSize_append, String.utf8ByteSize_singleton, hc, hr,
      List.length_cons, Nat.add_comm]

/-! ## Bytes of characters -/

/-- The UTF-8 bytes of a text are those of its characters in turn. -/
theorem utf8Bytes_ofList (l : List Char) :
    utf8Bytes (String.ofList l) = l.flatMap String.utf8EncodeChar := by
  simp [utf8Bytes, List.utf8Encode]

theorem utf8EncodeChar_ascii {c : Char} (h : c.toNat < 128) :
    String.utf8EncodeChar c = [UInt8.ofNat c.toNat] := by
  rw [String.utf8EncodeChar]
  exact if_pos (Nat.le_of_lt_succ h)

theorem toNat_ofNat_byte (b : UInt8) : (Char.ofNat b.toNat).toNat = b.toNat := by
  have hvalid : b.toNat.isValidChar := .inl (Nat.lt_trans b.toNat_lt (by decide))
  rw [Char.ofNat, dif_pos hvalid]
  rfl

theorem ofNat_byte_ascii {c : Char} (h : c.toNat < 128) :
    Char.ofNat (UInt8.ofNat c.toNat).toNat = c := by
  have hbyte : (UInt8.ofNat c.toNat).toNat = c.toNat := by
    rw [UInt8.toNat_ofNat']
    omega
  rw [hbyte, Char.ofNat_toNat]

/-- The first of the bytes of a character beyond ASCII is not a character by itself. -/
theorem utf8EncodeChar_wide {c : Char} (h : 128 ≤ c.toNat) :
    ∃ lead next more, String.utf8EncodeChar c = lead :: next :: more ∧ 192 ≤ lead.toNat := by
  have hlead {n m : Nat} (hn : 192 ≤ m) (hm : n + m < 256) : 192 ≤ (UInt8.ofNat (n + m)).toNat := by
    rw [UInt8.toNat_ofNat', Nat.mod_eq_of_lt hm]
    omega
  have hascii : ¬ c.val.toNat ≤ 127 := by
    have hval : c.val.toNat = c.toNat := rfl
    omega
  rw [String.utf8EncodeChar, if_neg hascii]
  split
  · exact ⟨_, _, _, rfl, hlead (by decide) (by omega)⟩
  · split
    · exact ⟨_, _, _, rfl, hlead (by decide) (by omega)⟩
    · exact ⟨_, _, _, rfl, hlead (by decide) (by omega)⟩

/-! ## Hexadecimal pairs -/

theorem toNat_lt_of_hexValue? {c : Char} {n : Nat} (h : hexValue? c = some n) : c.toNat < 128 := by
  unfold hexValue? at h
  split at h
  · rename_i hc
    have := UInt32.le_iff_toNat_le.mp (Char.le_def.mp hc.2)
    exact Nat.lt_of_le_of_lt this (by decide)
  · split at h
    · rename_i hc
      have := UInt32.le_iff_toNat_le.mp (Char.le_def.mp hc.2)
      exact Nat.lt_of_le_of_lt this (by decide)
    · split at h
      · rename_i hc
        have := UInt32.le_iff_toNat_le.mp (Char.le_def.mp hc.2)
        exact Nat.lt_of_le_of_lt this (by decide)
      · cases h

theorem lt_of_hexValue? {c : Char} {n : Nat} (h : hexValue? c = some n) : n < 16 := by
  have hbounds {low high : Char} (hc : low ≤ c ∧ c ≤ high) :
      low.toNat ≤ c.toNat ∧ c.toNat ≤ high.toNat :=
    ⟨UInt32.le_iff_toNat_le.mp (Char.le_def.mp hc.1),
      UInt32.le_iff_toNat_le.mp (Char.le_def.mp hc.2)⟩
  unfold hexValue? at h
  split at h
  · rename_i hc
    obtain ⟨-, hu⟩ : 48 ≤ c.toNat ∧ c.toNat ≤ 57 := hbounds hc
    cases h
    omega
  · split at h
    · rename_i hc
      obtain ⟨-, hu⟩ : 97 ≤ c.toNat ∧ c.toNat ≤ 102 := hbounds hc
      cases h
      omega
    · split at h
      · rename_i hc
        obtain ⟨-, hu⟩ : 65 ≤ c.toNat ∧ c.toNat ≤ 70 := hbounds hc
        cases h
        omega
      · cases h

namespace Primitive

/-- The octet a pair of hexadecimal characters stands for.  The first may be a plus sign. -/
def pairValue? (high low : Char) : Option Nat :=
  if high = '+' then hexValue? low
  else do return 16 * (← hexValue? high) + (← hexValue? low)

/-- The octets that pairs of hexadecimal characters stand for. -/
def pairsToBytes? : List Char → Option Bytes
  | [] => some []
  | [_] => Option.none
  | high :: low :: rest => do
    let n ← pairValue? high low
    let bytes ← pairsToBytes? rest
    return UInt8.ofNat n :: bytes

theorem toNat_lt_of_pairValue? {high low : Char} {n : Nat} (h : pairValue? high low = some n) :
    high.toNat < 128 ∧ low.toNat < 128 := by
  unfold pairValue? at h
  split at h
  · rename_i hc
    subst hc
    exact ⟨by decide, toNat_lt_of_hexValue? h⟩
  · cases ha : hexValue? high with
    | none => rw [ha] at h; cases h
    | some a =>
      cases hb : hexValue? low with
      | none => rw [ha, hb] at h; cases h
      | some b => exact ⟨toNat_lt_of_hexValue? ha, toNat_lt_of_hexValue? hb⟩

theorem pairValue?_eq_none {high low : Char} (h : 128 ≤ high.toNat ∨ 128 ≤ low.toNat) :
    pairValue? high low = Option.none := by
  cases hn : pairValue? high low with
  | none => rfl
  | some n =>
    obtain ⟨hhigh, hlow⟩ := toNat_lt_of_pairValue? hn
    omega

/-- A numeral of two bytes is a pair of hexadecimal characters: it has no room for a number beyond
an octet, and a sign leaves it one digit. -/
theorem octetOfNumeral?_pair (a b : UInt8) :
    octetOfNumeral? [a, b] = pairValue? (Char.ofNat a.toNat) (Char.ofNat b.toNat) := by
  have hdigit (n : Nat) (hn : n < 16) (b : UInt8) (rest : Bytes) :
      octetFrom? n (b :: rest) =
        (hexValue? (Char.ofNat b.toNat)).bind fun d => octetFrom? (16 * n + d) rest := by
    rw [octetFrom?]
    cases hd : hexValue? (Char.ofNat b.toNat) with
    | none => rfl
    | some d =>
      have hlt := lt_of_hexValue? hd
      exact if_pos (by omega)
  have hplus : Char.ofNat a.toNat = '+' ↔ a = 43 := by
    rw [← Char.toNat_inj, toNat_ofNat_byte, ← UInt8.toNat_inj]
    rfl
  rw [octetOfNumeral?, pairValue?]
  by_cases ha : a = 43
  · rw [if_pos ⟨ha, by simp⟩, if_pos (hplus.mpr ha), hdigit 0 (by decide)]
    simp [octetFrom?]
  · rw [if_neg (fun h => ha h.1), if_neg (mt hplus.mp ha), hdigit 0 (by decide)]
    cases hh : hexValue? (Char.ofNat a.toNat) with
    | none => rfl
    | some h =>
      rw [Option.bind_some, hdigit (16 * 0 + h) (by have := lt_of_hexValue? hh; omega)]
      simp [octetFrom?]

theorem beginsChar_iff {b : UInt8} : beginsChar b = true ↔ b.toNat < 128 ∨ 192 ≤ b.toNat := by
  rw [beginsChar, Bool.or_eq_true, decide_eq_true_eq, decide_eq_true_eq, UInt8.lt_iff_toNat_lt,
    UInt8.le_iff_toNat_le]
  rfl

/-- The bytes of a text begin with a character. -/
theorem beginsChar_head (l : List Char) :
    (l.flatMap String.utf8EncodeChar).head?.all beginsChar = true := by
  cases l with
  | nil => rfl
  | cons c rest =>
    rw [List.flatMap_cons]
    by_cases hc : c.toNat < 128
    · rw [utf8EncodeChar_ascii hc]
      refine beginsChar_iff.mpr (.inl ?_)
      rw [UInt8.toNat_ofNat']
      omega
    · obtain ⟨lead, next, more, hbytes, hlead⟩ := utf8EncodeChar_wide (Nat.le_of_not_lt hc)
      rw [hbytes]
      exact beginsChar_iff.mpr (.inr hlead)

/-- A slice with a byte beyond ASCII is no numeral. -/
theorem slicesToBytes?_wide {a b : UInt8} (h : 128 ≤ a.toNat ∨ 128 ≤ b.toNat) (rest : Bytes) :
    slicesToBytes? (a :: b :: rest) = Option.none := by
  have hpair : octetOfNumeral? [a, b] = Option.none := by
    rw [octetOfNumeral?_pair]
    exact pairValue?_eq_none (by simpa only [toNat_ofNat_byte] using h)
  rw [slicesToBytes?, hpair]
  exact ite_self _

/-- Slices of two bytes are pairs of characters: a slice that cuts into a character has a byte
beyond ASCII, and so has no pair in its place. -/
theorem slicesToBytes?_utf8Encode (l : List Char) :
    slicesToBytes? (l.flatMap String.utf8EncodeChar) = pairsToBytes? l := by
  induction l using pairsToBytes?.induct with
  | case1 => rfl
  | case2 c =>
    rw [List.flatMap_cons, List.flatMap_nil, List.append_nil]
    by_cases hc : c.toNat < 128
    · rw [utf8EncodeChar_ascii hc]
      rfl
    · obtain ⟨lead, next, more, hbytes, hlead⟩ := utf8EncodeChar_wide (Nat.le_of_not_lt hc)
      rw [hbytes, slicesToBytes?_wide (.inl (by omega))]
      rfl
  | case3 high low rest ih =>
    rw [List.flatMap_cons, List.flatMap_cons, pairsToBytes?]
    by_cases hhigh : high.toNat < 128
    · rw [utf8EncodeChar_ascii hhigh]
      by_cases hlow : low.toNat < 128
      · have hbegins : beginsChar (UInt8.ofNat high.toNat) = true :=
          beginsChar_iff.mpr (.inl (by rw [UInt8.toNat_ofNat']; omega))
        rw [utf8EncodeChar_ascii hlow, List.singleton_append, List.singleton_append, slicesToBytes?,
          hbegins, beginsChar_head, octetOfNumeral?_pair, ofNat_byte_ascii hhigh,
          ofNat_byte_ascii hlow, ih]
        rfl
      · obtain ⟨lead, next, more, hbytes, hlead⟩ := utf8EncodeChar_wide (Nat.le_of_not_lt hlow)
        rw [hbytes, pairValue?_eq_none (.inr (Nat.le_of_not_lt hlow))]
        exact slicesToBytes?_wide (.inr (by omega)) _
    · obtain ⟨lead, next, more, hbytes, hlead⟩ := utf8EncodeChar_wide (Nat.le_of_not_lt hhigh)
      rw [hbytes, pairValue?_eq_none (.inl (Nat.le_of_not_lt hhigh))]
      exact slicesToBytes?_wide (.inl (by omega)) _

theorem slicesToBytes?_utf8Bytes (s : String) :
    slicesToBytes? (utf8Bytes s) = pairsToBytes? s.toList := by
  rw [← slicesToBytes?_utf8Encode, ← utf8Bytes_ofList, String.ofList_toList]

/-- Pairs of hexadecimal characters are ASCII, two for each octet. -/
theorem pairsToBytes?_ascii {l : List Char} {bytes : Bytes} (h : pairsToBytes? l = some bytes) :
    (∀ c ∈ l, c.toNat < 128) ∧ l.length = 2 * bytes.length := by
  induction l using pairsToBytes?.induct generalizing bytes with
  | case1 =>
    cases h
    simp
  | case2 c => cases h
  | case3 high low rest ih =>
    rw [pairsToBytes?] at h
    cases hn : pairValue? high low with
    | none => rw [hn] at h; cases h
    | some n =>
      cases hr : pairsToBytes? rest with
      | none => rw [hn, hr] at h; cases h
      | some more =>
        rw [hn, hr] at h
        cases h
        obtain ⟨hh, hl⟩ := toNat_lt_of_pairValue? hn
        obtain ⟨hall, hlen⟩ := ih hr
        refine ⟨?_, by simp only [List.length_cons, hlen]; omega⟩
        intro c hc
        rcases List.mem_cons.mp hc with rfl | hc
        · exact hh
        · rcases List.mem_cons.mp hc with rfl | hc
          · exact hl
          · exact hall c hc

/-- The size of a text of hexadecimal pairs is known before its octets are. -/
theorem length_of_pairsToBytes? {s : String} {bytes : Bytes}
    (h : pairsToBytes? s.toList = some bytes) : s.utf8ByteSize / 2 = bytes.length := by
  obtain ⟨hall, hlen⟩ := pairsToBytes?_ascii h
  have hs := utf8ByteSize_ofList hall
  rw [String.ofList_toList, hlen] at hs
  omega

end Primitive

end WireSchema
