import WireSchema.Codec.Choice
import WireSchema.Proofs.Primitive.Norm

/-!
# Choices

A choice is written as a key or as the number of a key, and it is read as the key
(`parse_choice`).  A choice with further keys reads what it read without them
(`parse_choice_extend`).
-/

namespace WireSchema

namespace Choice

open CursorM

/-- The key that a value stands for. -/
def norm (e : Choice) (v : Value) : Except CodecError Value :=
  if e.strings then do return .string (← v.toText)
  else
    match v with
    | .string key => .ok (.string key)
    | v => do
      let n ← v.toUInt64
      match e.keys[n.toNat - e.offset.toNat]? with
      | some key => return .string key
      | none => throw (e.unknown (toString n.toNat))

/-- Every key has a number of 64 bits. -/
def Numbered (e : Choice) : Prop :=
  e.strings = false → e.offset.toNat + e.keys.length ≤ 0x10000000000000000

theorem composable_choice {R : CursorM Unit → CursorM Unit → Prop} (hR : Composable R) (e : Choice)
    (h : ∀ w, R (e.wireKind.codec.reserve w) (e.wireKind.codec.write w)) (v : Value) :
    R (e.codec.reserve v) (e.codec.write v) := hR.ofExcept _ fun w _ => h w

theorem regular_choice (e : Choice) : e.codec.Regular :=
  composable_choice composable_tandem e e.wireKind.regular_codec

theorem choice_yields_inv {e : Choice} {v : Value} {bytes : Bytes} (h : e.codec.Yields v bytes) :
    ∃ w ps, e.wire v = .ok w ∧ e.wireKind.pieces w = .ok ps ∧ bytes = ps.flatten := by
  obtain ⟨w, hw, h⟩ := yields_ofExcept_inv h
  obtain ⟨ps, hps, hb⟩ := Primitive.pieces_of_yields h
  exact ⟨w, ps, hw, hps, hb⟩

/-! ## Reading -/

/-- The key of a number. -/
def keyOf? (e : Choice) (n : Nat) : Option String :=
  if n < e.offset.toNat then none else e.keys[n - e.offset.toNat]?

theorem read_strings {e : Choice} (h : e.strings = true) :
    e.read = do
      let key ← Primitive.readText
      let _ ← CursorM.ofExcept (e.index key)
      return .string key := by
  rw [read, if_pos h]

theorem read_numbers {e : Choice} (h : e.strings = false) :
    e.read = (do
      let n ← Varint.read
      match e.keyOf? n with
      | some key => return .string key
      | none => throw (e.unknown (toString n))) := by
  rw [read, if_neg (by rw [h]; decide)]
  rfl

theorem confined_key (e : Choice) (n : Nat) :
    Confined (match e.keyOf? n with
      | some key => return .string key
      | none => throw (e.unknown (toString n)) : CursorM Value) := by
  split
  · exact confined_pure _
  · exact confined_throw _

theorem confined_choice (e : Choice) : Confined e.read := by
  cases h : e.strings with
  | true =>
    rw [read_strings h]
    exact confined_bind Primitive.confined_readText fun _ =>
      confined_bind (confined_ofExcept _) fun _ => confined_pure _
  | false =>
    rw [read_numbers h]
    exact confined_bind Varint.confined_varint e.confined_key

theorem parse_strings {e : Choice} (h : e.strings = true) {key : String} {i k : Nat} {w : Bytes}
    (hi : e.index key = .ok i) (hr : Primitive.readText.parse w = .ok (key, k)) :
    e.read.parse w = .ok (.string key, k) := by
  rw [read_strings h, parse_bind_ok Primitive.confined_readText
    (fun _ => confined_bind (confined_ofExcept _) fun _ => confined_pure _) hr, hi]
  rfl

theorem parse_numbers {e : Choice} (h : e.strings = false) {key : String} {n k : Nat} {w : Bytes}
    (hn : e.keyOf? n = some key) (hr : Varint.read.parse w = .ok (n, k)) :
    e.read.parse w = .ok (.string key, k) := by
  rw [read_numbers h, parse_bind_ok Varint.confined_varint e.confined_key hr, hn]
  rfl

theorem index_lt {e : Choice} {key : String} {i : Nat} (h : e.index key = .ok i) :
    e.keys[i]? = some key := by
  unfold index at h
  split at h
  · cases h
    rename_i hi
    obtain ⟨hlt, hk, -⟩ := List.findIdx?_eq_some_iff_getElem.mp hi
    rw [List.getElem?_eq_getElem hlt, beq_iff_eq.mp hk]
  · cases h

theorem wire_of_strings {e : Choice} (h : e.strings = true) (v : Value) :
    e.wire v = do
      let key ← v.toText
      let _ ← e.index key
      return .string key := by
  unfold wire
  rw [if_pos h]

/-- A number that stands for a key is written as it is. -/
theorem keyOf?_of_number {e : Choice} {v w : Value} (hv : (do
      let n ← v.toUInt64
      if n < e.offset ∨ e.keys.length ≤ (n - e.offset).toNat then
        throw (e.unknown (toString n.toNat))
      else return Value.uint n) = Except.ok w) :
    ∃ (n : UInt64) (key : String), v.toUInt64 = .ok n ∧ w = .uint n ∧
      e.keyOf? n.toNat = some key ∧ e.keys[n.toNat - e.offset.toNat]? = some key := by
  obtain ⟨n, hn, hv⟩ := ok_of_bind hv
  split at hv
  · cases hv
  · rename_i hcond
    cases hv
    rw [not_or, not_le, UInt64.not_lt, UInt64.le_iff_toNat_le] at hcond
    obtain ⟨hle, hlt⟩ := hcond
    rw [UInt64.toNat_sub_of_le _ _ (UInt64.le_iff_toNat_le.mpr hle)] at hlt
    refine ⟨n, _, hn, rfl, ?_, List.getElem?_eq_getElem hlt⟩
    rw [keyOf?, if_neg (by omega), List.getElem?_eq_getElem hlt]

/-- The number of a key stands for the key, if it is one of 64 bits. -/
theorem keyOf?_code_of_lt {e : Choice} {key : String} {i : Nat} (hi : e.index key = .ok i)
    (hlt : e.offset.toNat + i < 0x10000000000000000) : e.keyOf? (e.code i).toNat = some key := by
  have hcode : (e.code i).toNat = e.offset.toNat + i := by
    have hsize : UInt64.size = 0x10000000000000000 := rfl
    rw [code, UInt64.toNat_add, UInt64.toNat_ofNat_of_lt' (by omega), Nat.mod_eq_of_lt (by omega)]
  rw [hcode, keyOf?, if_neg (by omega), Nat.add_sub_cancel_left, index_lt hi]

/-- The number of a key stands for the key. -/
theorem keyOf?_code {e : Choice} (hs : e.strings = false) (hn : e.Numbered) {key : String}
    {i : Nat} (hi : e.index key = .ok i) : e.keyOf? (e.code i).toNat = some key := by
  obtain ⟨hlt, -⟩ := List.getElem?_eq_some_iff.mp (index_lt hi)
  have hnumbers := hn hs
  exact keyOf?_code_of_lt hi (by omega)

/-- A number stands for the key in its place. -/
theorem norm_number {e : Choice} (h : e.strings = false) {v : Value}
    (hnot : ∀ s, v = .string s → False) {n : UInt64} {key : String} (hv : v.toUInt64 = .ok n)
    (hget : e.keys[n.toNat - e.offset.toNat]? = some key) : e.norm v = .ok (.string key) := by
  unfold norm
  rw [if_neg (by rw [h]; decide)]
  split
  · exact (hnot _ rfl).elim
  · rw [hv]
    simp only [bind, Except.bind, hget]
    rfl

/-- What is written for a value in numbers, and the key it stands for. -/
theorem wire_numbers {e : Choice} (h : e.strings = false) (hn : e.Numbered) {v w : Value}
    (hw : e.wire v = .ok w) :
    ∃ (n : UInt64) (key : String), w = .uint n ∧ e.keyOf? n.toNat = some key ∧
      e.norm v = .ok (.string key) := by
  unfold wire at hw
  rw [if_neg (by rw [h]; decide)] at hw
  split at hw
  · rename_i key
    obtain ⟨i, hi, ⟨⟩⟩ := ok_of_bind hw
    exact ⟨_, key, rfl, keyOf?_code h hn hi, if_neg (by rw [h]; decide)⟩
  · rename_i hnot
    obtain ⟨n, key, hv, rfl, hk, hget⟩ := keyOf?_of_number hw
    exact ⟨n, key, rfl, hk, norm_number h hnot hv hget⟩

theorem toUInt64_uint (n : UInt64) : (Value.uint n).toUInt64 = .ok n := by
  have hlt := n.toNat_lt
  have hcast : (0 : Int) ≤ n.toNat ∧ (n.toNat : Int) < 0x10000000000000000 := by omega
  simp only [Value.toUInt64, Value.integer?]
  rw [if_pos hcast, Int.toNat_natCast, UInt64.ofNat_toNat]

/-- A choice is read back as its key, whatever follows it. -/
theorem parse_choice {e : Choice} (hn : e.Numbered) {v : Value} {bytes : Bytes}
    (h : e.codec.Yields v bytes) (hfits : bytes.Fits) (s : Bytes) :
    ∃ w, e.norm v = .ok w ∧ e.codec.read.parse (bytes ++ s) = .ok (w, bytes.length) := by
  obtain ⟨w, ps, hw, hps, rfl⟩ := choice_yields_inv h
  cases hs : e.strings with
  | true =>
    rw [wire_of_strings hs] at hw
    obtain ⟨key, hkey, hw⟩ := ok_of_bind hw
    obtain ⟨i, hi, ⟨⟩⟩ := ok_of_bind hw
    rw [wireKind, if_pos hs] at hps
    cases hps
    refine ⟨.string key, ?_, parse_strings hs hi (Primitive.parse_text hfits s)⟩
    unfold norm
    rw [if_pos hs, hkey]
    rfl
  | false =>
    obtain ⟨n, key, rfl, hk, hnorm⟩ := wire_numbers hs hn hw
    rw [wireKind, if_neg (by rw [hs]; decide), Primitive.pieces, toUInt64_uint] at hps
    cases hps
    exact ⟨.string key, hnorm, parse_numbers hs hk (Primitive.parse_compact n s)⟩

/-! ## Further keys -/

theorem parse_strings_inv {e : Choice} (h : e.strings = true) {v : Value} {k : Nat} {w : Bytes}
    (hp : e.read.parse w = .ok (v, k)) :
    ∃ key i, Primitive.readText.parse w = .ok (key, k) ∧ e.index key = .ok i ∧ v = .string key := by
  rw [read_strings h] at hp
  obtain ⟨key, j, m, hread, hkey, rfl⟩ := parse_bind_inv Primitive.confined_readText
    (fun _ => confined_bind (confined_ofExcept _) fun _ => confined_pure _) hp
  cases hi : e.index key with
  | error err => rw [hi] at hkey; cases hkey
  | ok i =>
    rw [hi] at hkey
    cases hkey
    exact ⟨key, i, hread, hi, rfl⟩

theorem parse_numbers_inv {e : Choice} (h : e.strings = false) {v : Value} {k : Nat} {w : Bytes}
    (hp : e.read.parse w = .ok (v, k)) :
    ∃ n key, Varint.read.parse w = .ok (n, k) ∧ e.keyOf? n = some key ∧ v = .string key := by
  rw [read_numbers h] at hp
  obtain ⟨n, j, m, hread, hkey, rfl⟩ := parse_bind_inv Varint.confined_varint e.confined_key hp
  cases hk : e.keyOf? n with
  | none => rw [hk] at hkey; cases hkey
  | some key =>
    rw [hk] at hkey
    cases hkey
    exact ⟨n, key, hread, hk, rfl⟩

theorem index_of_mem {e : Choice} {key : String} (h : key ∈ e.keys) :
    ∃ i, e.index key = .ok i := by
  unfold index
  cases hi : e.keys.idxOf? key with
  | some i => exact ⟨i, rfl⟩
  | none =>
    rw [List.idxOf?, List.findIdx?_eq_none_iff] at hi
    exact absurd (hi key h) (by simp)

/-- A choice with further keys reads what the choice without them reads. -/
theorem parse_choice_extend {e e' : Choice} (hstrings : e'.strings = e.strings)
    (hoffset : e'.offset = e.offset) (hkeys : e.keys <+: e'.keys) {v : Value} {k : Nat} {w : Bytes}
    (h : e.read.parse w = .ok (v, k)) : e'.read.parse w = .ok (v, k) := by
  cases hs : e.strings with
  | true =>
    obtain ⟨key, i, hread, hi, rfl⟩ := parse_strings_inv hs h
    have hmem : key ∈ e.keys := List.mem_of_getElem? (index_lt hi)
    obtain ⟨j, hj⟩ := index_of_mem (hkeys.subset hmem)
    exact parse_strings (hstrings.trans hs) hj hread
  | false =>
    obtain ⟨n, key, hread, hk, rfl⟩ := parse_numbers_inv hs h
    refine parse_numbers (hstrings.trans hs) ?_ hread
    unfold keyOf? at hk ⊢
    rw [hoffset]
    split at hk
    · cases hk
    · rename_i hge
      obtain ⟨more, hmore⟩ := hkeys
      rw [if_neg hge, ← hmore,
        List.getElem?_append_left (List.getElem?_eq_some_iff.mp hk).1, hk]

/-- What is written for a value in numbers is a number. -/
theorem wire_uint {e : Choice} (h : e.strings = false) {v w : Value} (hw : e.wire v = .ok w) :
    ∃ n, w = .uint n := by
  unfold wire at hw
  rw [if_neg (by rw [h]; decide)] at hw
  split at hw
  · obtain ⟨i, -, ⟨⟩⟩ := ok_of_bind hw
    exact ⟨_, rfl⟩
  · obtain ⟨n, -, -, rfl, -⟩ := keyOf?_of_number hw
    exact ⟨n, rfl⟩

/-- A choice is written as a text or as a number. -/
theorem bytes_of_yields {e : Choice} {v : Value} {bytes : Bytes} (h : e.codec.Yields v bytes) :
    (e.strings = true ∧ ∃ key, bytes = (Primitive.prefixedPieces (utf8Bytes key)).flatten) ∨
      (e.strings = false ∧ ∃ n : UInt64, bytes = Varint.bytes n.toNat) := by
  obtain ⟨x, ps, hx, hps, rfl⟩ := choice_yields_inv h
  cases hs : e.strings with
  | true =>
    rw [wire_of_strings hs] at hx
    obtain ⟨key, -, hx⟩ := ok_of_bind hx
    obtain ⟨i, -, ⟨⟩⟩ := ok_of_bind hx
    rw [wireKind, if_pos hs] at hps
    cases hps
    exact .inl ⟨rfl, key, rfl⟩
  | false =>
    obtain ⟨n, rfl⟩ := wire_uint hs hx
    rw [wireKind, if_neg (by rw [hs]; decide), Primitive.pieces, toUInt64_uint] at hps
    cases hps
    exact .inr ⟨rfl, n, rfl⟩

/-- What follows a choice that was written has no part in its reading. -/
theorem parse_choice_stable {e : Choice} {v : Value} {bytes : Bytes} (h : e.codec.Yields v bytes)
    (hfits : bytes.Fits) {s : Bytes} {w : Value} {k : Nat}
    (hp : e.read.parse (bytes ++ s) = .ok (w, k)) (s' : Bytes) :
    e.read.parse (bytes ++ s') = .ok (w, bytes.length) := by
  rcases bytes_of_yields h with ⟨hs, key, rfl⟩ | ⟨hs, n, rfl⟩
  · obtain ⟨key', i, hread, hi, rfl⟩ := parse_strings_inv hs hp
    rw [Primitive.parse_text hfits s] at hread
    cases hread
    exact parse_strings hs hi (Primitive.parse_text hfits s')
  · obtain ⟨m, key, hread, hkey, rfl⟩ := parse_numbers_inv hs hp
    rw [Varint.parse_varint_append n.toNat_lt] at hread
    cases hread
    refine parse_numbers hs hkey ?_
    rw [Varint.parse_varint_append n.toNat_lt, Varint.length_bytes]

/-- A choice that was written and can be read is read to its end. -/
theorem parse_choice_length {e : Choice} {v : Value} {bytes : Bytes} (h : e.codec.Yields v bytes)
    (hfits : bytes.Fits) {s : Bytes} {w : Value} {k : Nat}
    (hp : e.read.parse (bytes ++ s) = .ok (w, k)) : k = bytes.length := by
  have hstable := parse_choice_stable h hfits hp s
  rw [hp] at hstable
  cases hstable
  rfl

end Choice

end WireSchema
