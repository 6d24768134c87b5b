import WireSchema.Proofs.Primitive.Size

/-!
# Canonical primitive values

A value that was written is read back as the one variant that the reader of its kind gives
(`Primitive.norm`), in front of any further bytes (`parse_pieces`).  The kind `raw` takes whatever
follows, and a JSON text is a matter of its own (`parse_pieces_json`).
-/

namespace WireSchema

open CursorM

/-- The number of bytes is a number of 64 bits, as that of everything in memory is. -/
def Bytes.Fits (bytes : Bytes) : Prop := bytes.length < 0x10000000000000000

instance (bytes : Bytes) : Decidable bytes.Fits :=
  inferInstanceAs (Decidable (bytes.length < 0x10000000000000000))

theorem Bytes.Fits.of_le {a b : Bytes} (h : b.Fits) (hle : a.length ≤ b.length) : a.Fits :=
  Nat.lt_of_le_of_lt hle h

theorem Bytes.Fits.left {a b : Bytes} (h : Fits (a ++ b)) : Fits a := by
  unfold Fits at *
  rw [List.length_append] at h
  omega

theorem Bytes.Fits.right {a b : Bytes} (h : Fits (a ++ b)) : Fits b := by
  unfold Fits at *
  rw [List.length_append] at h
  omega

namespace Primitive

/-- The variant in which a value of a kind is read back: the same number without a sign, with a
sign or with 128 bits, the nearest number of single precision, hexadecimal digits in lower case, the
canonical text of an address, null for no bytes at all. -/
def norm (p : Primitive) (v : Value) : Except CodecError Value :=
  match p with
  | .uint | .uintBits _ | .uintBytes _ | .port | .lexint => do return .uint (← v.toUInt64)
  | .int | .intBytes _ | .signedLexint | .date | .lexdate => do return .int (← v.toInt64)
  | .bigint | .biguint64 | .bigint64 => do return .bigInt (← v.toInt128)
  | .float32 => do return .float (Double.ofSingleBits (← v.toDouble).toSingleBits)
  | .float64 => do return .float (← v.toDouble)
  | .string | .utf8 | .ascii => do return .string (← v.toText)
  | .hex => do
    let s ← v.toText
    match pairsToBytes? s.toList with
    | some bytes => return .string (hexText bytes)
    | Option.none => throw (.invalidValue "hex string" s)
  | .fixed32 | .fixed64 | .raw => do return .bytes (← v.toBytes)
  | .buffer =>
    match v with
    | .null | .bytes [] => .ok .null
    | v => do return .bytes (← v.toBytes)
  | .bool => do return .bool (← v.toBool)
  | .address _ => do return .string (← p.toAddress v).text
  | .endpoint _ => do return .string (← p.toEndpoint v).text
  | .none => .ok .null
  | .json => .ok (.json v.toJson)

/-! ## Confined readers -/

theorem confined_readPrefixed : Confined readPrefixed :=
  confined_bind Varint.confined_varint fun n => confined_read n

theorem confined_readText : Confined readText := by
  refine confined_bind confined_readPrefixed fun b => ?_
  split
  · exact confined_pure _
  · exact confined_throw _

theorem confined_readWords (count : Nat) : Confined (readWords count) := by
  induction count with
  | zero => exact confined_pure 0
  | succ count ih =>
    exact confined_bind (Varint.confined_readFixed 8) fun _ => confined_bind ih fun _ =>
      confined_pure _

theorem confined_readFamily (f : Option Family) : Confined (readFamily f) := by
  cases f with
  | some f => exact confined_pure f
  | none =>
    refine confined_bind confined_readByte fun tag => ?_
    split
    · exact confined_pure _
    · split
      · exact confined_pure _
      · exact confined_throw _

theorem confined_readAddress (f : Option Family) : Confined (readAddress f) :=
  confined_bind (confined_readFamily f) fun _ => confined_bind (confined_read _) fun _ =>
    confined_pure _

/-- Taking all that is left. -/
theorem confined_readRemaining :
    Confined (do let c ← get; return Value.bytes (← CursorM.read c.remaining)) := by
  refine confined_of_run (fun w => .ok (.bytes w)) (fun w => w.length) (fun _ => Nat.le_refl _) ?_
  intro c hc
  have hread : (CursorM.read c.remaining).runFrom c = (.ok c.window, c.advance c.window.length) := by
    have h1 := hc.1
    have h2 := hc.2
    have hl := Cursor.length_window hc
    rw [runFrom_read, if_pos (by rw [Cursor.remaining]; omega), hl]
    rfl
  rw [runFrom_bind_ok (runFrom_get c), runFrom_bind_ok hread]
  rfl

theorem confined_primitive (p : Primitive) : Confined p.read := by
  have hv (f : Nat → Value) : Confined (do return f (← Varint.read)) :=
    confined_bind Varint.confined_varint fun _ => confined_pure _
  have hl (f : Nat → Value) : Confined (do return f (← Lexint.read)) :=
    confined_bind Lexint.confined_lexint fun _ => confined_pure _
  have hf (n : Nat) (f : Nat → Value) : Confined (do return f (← Varint.readFixed n)) :=
    confined_bind (Varint.confined_readFixed n) fun _ => confined_pure _
  have ht (f : String → Value) : Confined (do return f (← readText)) :=
    confined_bind confined_readText fun _ => confined_pure _
  cases p with
  | uint => exact hv _
  | uintBits k =>
    exact confined_bind confined_readByte fun _ => confined_bind (confined_ofExcept _) fun _ =>
      confined_pure _
  | uintBytes w => exact hf _ _
  | int => exact hv _
  | intBytes w => exact hf _ _
  | float32 => exact hf _ _
  | float64 => exact hf _ _
  | port => exact hf _ _
  | lexint => exact hl _
  | signedLexint => exact hl _
  | string => exact ht _
  | utf8 => exact ht _
  | ascii =>
    refine confined_bind confined_readText fun s => ?_
    split
    · exact confined_pure _
    · exact confined_throw _
  | hex => exact confined_bind confined_readPrefixed fun _ => confined_pure _
  | bigint =>
    refine confined_bind Varint.confined_varint fun count => ?_
    split
    · exact confined_throw _
    · exact confined_bind (confined_readWords count) fun _ => confined_pure _
  | biguint64 => exact hf 8 fun n => .bigInt (Int128.ofInt n)
  | bigint64 => exact hf _ _
  | fixed32 => exact confined_bind (confined_read _) fun _ => confined_pure _
  | fixed64 => exact confined_bind (confined_read _) fun _ => confined_pure _
  | buffer => exact confined_bind confined_readPrefixed fun _ => confined_pure _
  | date => exact hv _
  | lexdate => exact hl _
  | bool => exact confined_bind confined_readByte fun _ => confined_pure _
  | address f => exact confined_bind (confined_readAddress f) fun _ => confined_pure _
  | endpoint f =>
    exact confined_bind (confined_readAddress f) fun _ =>
      confined_bind (Varint.confined_readFixed 2) fun _ => confined_pure _
  | none => exact confined_pure _
  | raw => exact confined_readRemaining
  | json =>
    refine confined_bind confined_readText fun s => ?_
    split
    · exact confined_pure _
    · exact confined_throw _

/-! ## Parts read back -/

/-- A value made of one part is read back when the part is. -/
theorem parse_return {α : Type} {x : CursorM α} (hx : Confined x) (f : α → Value) {w : Bytes}
    {a : α} {k : Nat} (h : x.parse w = .ok (a, k)) :
    (do return f (← x)).parse w = .ok (f a, k) := by
  rw [parse_bind_ok hx (fun a => confined_pure (f a)) h]
  rfl

theorem parse_prefixed {b : Bytes} (h : Bytes.Fits (prefixedPieces b).flatten) (s : Bytes) :
    readPrefixed.parse ((prefixedPieces b).flatten ++ s) =
      .ok (b, (prefixedPieces b).flatten.length) := by
  rw [flatten_prefixedPieces] at h ⊢
  have hread := parse_read_append b s
  rw [List.append_assoc, readPrefixed,
    parse_bind_ok Varint.confined_varint confined_read (Varint.parse_varint_append h.right _),
    ← Varint.length_bytes, List.drop_left, hread, shift_ok, List.length_append]

theorem parse_text {t : String} (h : Bytes.Fits (prefixedPieces (utf8Bytes t)).flatten)
    (s : Bytes) :
    readText.parse ((prefixedPieces (utf8Bytes t)).flatten ++ s) =
      .ok (t, (prefixedPieces (utf8Bytes t)).flatten.length) := by
  unfold readText
  rw [parse_bind_ok confined_readPrefixed ?_ (parse_prefixed h s)]
  · simp
  · intro b
    split
    · exact confined_pure _
    · exact confined_throw _

theorem wordsOf_lt {z w : Nat} (hz : z < wordCount * wordCount) (hw : w ∈ wordsOf z) :
    w < wordCount := by
  have hpos : 0 < wordCount := by decide
  unfold wordsOf at hw
  split at hw
  · cases hw
  · split at hw
    · obtain rfl := List.mem_singleton.mp hw
      assumption
    · rcases List.mem_cons.mp hw with rfl | hw
      · exact Nat.mod_lt _ hpos
      · obtain rfl := List.mem_singleton.mp hw
        exact Nat.div_lt_of_lt_mul hz

theorem length_wordsOf (z : Nat) : (wordsOf z).length ≤ 2 := by
  unfold wordsOf
  split
  · decide
  · split
    · exact Nat.le_succ 1
    · exact Nat.le_refl 2

/-- The natural that words stand for, least significant first. -/
def ofWords : List Nat → Nat
  | [] => 0
  | w :: rest => w + wordCount * ofWords rest

theorem ofWords_wordsOf (z : Nat) : ofWords (wordsOf z) = z := by
  unfold wordsOf
  split
  · rename_i h
    exact h.symm
  · split
    · rfl
    · simp only [ofWords, Nat.mul_zero, Nat.add_zero]
      exact Nat.mod_add_div z wordCount

theorem parse_words {words : List Nat} (h : ∀ w ∈ words, w < wordCount) (s : Bytes) :
    (readWords words.length).parse ((words.map (leBytes 8)).flatten ++ s) =
      .ok (ofWords words, (words.map (leBytes 8)).flatten.length) := by
  induction words with
  | nil => rfl
  | cons w rest ih =>
    have hlt : w < Nat.pow 256 8 := h w List.mem_cons_self
    have hw := Varint.parse_readFixed_append hlt ((rest.map (leBytes 8)).flatten ++ s)
    have hrest := ih fun x hx => h x (List.mem_cons_of_mem _ hx)
    have hconf (low : Nat) : Confined (do return low + wordCount * (← readWords rest.length)) :=
      confined_bind (confined_readWords _) fun _ => confined_pure _
    have hlen := leBytes_length 8 w
    rw [List.length_cons, readWords, List.map_cons, List.flatten_cons, List.append_assoc,
      parse_bind_ok (Varint.confined_readFixed 8) hconf hw]
    rw [show List.drop 8 (leBytes 8 w ++ ((rest.map (leBytes 8)).flatten ++ s)) =
        (rest.map (leBytes 8)).flatten ++ s from by
      conv_lhs => rw [← hlen]
      exact List.drop_left]
    rw [parse_bind_ok (confined_readWords _) (fun _ => confined_pure _) hrest, parse_pure, shift_ok,
      shift_ok, List.length_append, hlen]
    rfl

theorem ofOctets_octets (a : Address) : Address.ofOctets a.family a.octets = a := by
  cases a with
  | v4 n =>
    have h : n.toNat < Nat.pow 256 4 := n.toNat_lt
    simp [Address.ofOctets, Address.octets, Address.family, ofBE_beBytes_of_lt h]
  | v6 n =>
    have h : n.toNat < Nat.pow 256 16 := n.isLt
    simp [Address.ofOctets, Address.octets, Address.family, ofBE_beBytes_of_lt h]

theorem length_octets (a : Address) : a.octets.length = familyWidth a.family := by
  cases a <;> simp [Address.octets, Address.family, familyWidth, beBytes_length]

theorem parse_readFamily (f : Family) (s : Bytes) :
    (readFamily Option.none).parse (familyTag f :: s) = .ok (f, 1) := by
  unfold readFamily
  rw [parse_bind_ok confined_readByte ?_ (parse_readByte_cons _ _)]
  · cases f <;> rfl
  · intro tag
    split
    · exact confined_pure _
    · split
      · exact confined_pure _
      · exact confined_throw _

theorem parse_address {p : Primitive} {f : Option Family} {a : Address} {b : Bytes}
    (h : p.addressBytes f a = .ok b) (s : Bytes) :
    (readAddress f).parse (b ++ s) = .ok (a, b.length) := by
  have hconf (g : Family) : Confined (do
      return Address.ofOctets g (← CursorM.read (familyWidth g))) :=
    confined_bind (confined_read _) fun _ => confined_pure _
  have hread : (do return Address.ofOctets a.family (← CursorM.read (familyWidth a.family))).parse
      (a.octets ++ s) = .ok (a, a.octets.length) := by
    have hr := parse_read_append a.octets s
    rw [length_octets] at hr
    rw [parse_bind_ok (confined_read _) (fun _ => confined_pure _) hr, parse_pure, shift_ok,
      ofOctets_octets, length_octets, Nat.add_zero]
  unfold addressBytes at h
  split at h
  · cases h
    rw [List.cons_append, readAddress,
      parse_bind_ok (confined_readFamily _) hconf (parse_readFamily _ _), List.drop_one,
      List.tail_cons, hread, shift_ok, List.length_cons, Nat.add_comm]
  · split at h
    · cases h
      rename_i hf
      subst hf
      rw [readAddress, parse_bind_ok (confined_readFamily _) hconf (parse_pure _ _),
        List.drop_zero, hread, shift_ok, Nat.zero_add]
    · cases h

/-! ## Values read back -/

theorem checkBits_eq_ok {p : Primitive} {n bits m : Nat} (h : p.checkBits n bits = .ok m) :
    m = n ∧ n < Nat.pow 2 bits := by
  unfold checkBits at h
  split at h
  · cases h
    exact ⟨rfl, by assumption⟩
  · cases h

theorem zigzag_lt {n : Int} {m : Nat} (hl : -(m : Int) ≤ n) (hu : n < m) : zigzag n < 2 * m := by
  unfold zigzag
  split <;> omega

theorem zigzag_toInt_lt (n : Int64) : zigzag n.toInt < 0x10000000000000000 :=
  zigzag_lt (m := 0x8000000000000000) n.le_toInt n.toInt_lt

theorem parse_compact (n : UInt64) (s : Bytes) :
    Varint.read.parse ((Varint.pieces n.toNat).flatten ++ s) =
      .ok (n.toNat, (Varint.pieces n.toNat).flatten.length) := by
  have h := Varint.parse_varint_append n.toNat_lt s
  rwa [← Varint.length_bytes] at h

theorem parse_compact_signed (n : Int64) (s : Bytes) :
    Varint.read.parse ((Varint.pieces (zigzag n.toInt)).flatten ++ s) =
      .ok (zigzag n.toInt, (Varint.pieces (zigzag n.toInt)).flatten.length) := by
  have h := Varint.parse_varint_append (zigzag_toInt_lt n) s
  rwa [← Varint.length_bytes] at h

theorem parse_sorted {n : Nat} (hn : n < 0x10000000000000000) (s : Bytes) :
    Lexint.read.parse ((Lexint.pieces n).flatten ++ s) =
      .ok (n, (Lexint.pieces n).flatten.length) := by
  have h := Lexint.parse_lexint_append hn s
  rwa [← Lexint.length_bytes] at h

theorem shift_toInt_lt (n : Int64) : Lexint.shift n.toInt < 0x10000000000000000 := by
  have hl := n.le_toInt
  have hu := n.toInt_lt
  unfold Lexint.shift
  omega

theorem parse_block {width n : Nat} (h : n < Nat.pow 256 width) (s : Bytes) :
    (Varint.readFixed width).parse ([leBytes width n].flatten ++ s) =
      .ok (n, [leBytes width n].flatten.length) := by
  have hr := Varint.parse_readFixed_append h s
  simpa [leBytes_length] using hr

theorem pow_eight (w : Nat) : Nat.pow 2 (8 * w) = Nat.pow 256 w := by
  rw [Nat.pow_eq, Nat.pow_eq, Nat.pow_mul]

theorem toSingleBits_lt (x : Double) : x.toSingleBits < Nat.pow 256 4 := by
  have hn (num den : Nat) : BinaryFormat.single.nearest num den ≤ 255 * 0x800000 := by
    unfold BinaryFormat.nearest
    split
    · exact Nat.zero_le _
    · exact Nat.min_le_right _ _
  have hs : (if x.isNegative then 0x80000000 else 0) ≤ 0x80000000 := by
    split <;> decide
  unfold Double.toSingleBits
  simp only [Nat.pow_eq, Nat.reducePow]
  split
  · have : BinaryFormat.single.infinity = 255 * 0x800000 := rfl
    omega
  · split
    · have := hn x.quotient.1 x.quotient.2
      omega
    · have : BinaryFormat.single.infinity = 255 * 0x800000 := rfl
      omega

/-- A kind that writes, reads and normalizes by way of one part of the value: what is read for the
part has to make the canonical variant. -/
theorem readsBack {α β : Type} {x : Except CodecError α} {f : α → List Bytes} {mk : α → Value}
    {r : CursorM β} {g : β → Value} {ps : List Bytes} {s : Bytes}
    (h : (do return f (← x)) = Except.ok ps) (hr : Confined r)
    (hback : ∀ a, ps = f a → ∃ b, r.parse (ps.flatten ++ s) = .ok (b, ps.flatten.length) ∧
      g b = mk a) :
    ∃ w, (do return mk (← x)) = Except.ok w ∧
      (do return g (← r)).parse (ps.flatten ++ s) = .ok (w, ps.flatten.length) := by
  obtain ⟨a, rfl, ⟨⟩⟩ := ok_of_bind h
  obtain ⟨b, hb, hg⟩ := hback a rfl
  exact ⟨mk a, rfl, by rw [parse_return hr g hb, hg]⟩

/-- The same for a number that has to fit a number of bits first. -/
theorem readsBack_checked {α β : Type} {x : Except CodecError α} {p : Primitive} {n : α → Nat}
    {bits : Nat} {f : Nat → List Bytes} {mk : α → Value} {r : CursorM β} {g : β → Value}
    {ps : List Bytes} {s : Bytes}
    (h : (do return f (← p.checkBits (n (← x)) bits)) = Except.ok ps) (hr : Confined r)
    (hback : ∀ a, ps = f (n a) → n a < Nat.pow 2 bits →
      ∃ b, r.parse (ps.flatten ++ s) = .ok (b, ps.flatten.length) ∧ g b = mk a) :
    ∃ w, (do return mk (← x)) = Except.ok w ∧
      (do return g (← r)).parse (ps.flatten ++ s) = .ok (w, ps.flatten.length) := by
  obtain ⟨a, rfl, ha⟩ := ok_of_bind h
  obtain ⟨m, hm, ⟨⟩⟩ := ok_of_bind ha
  obtain ⟨rfl, hlt⟩ := checkBits_eq_ok hm
  obtain ⟨b, hb, hg⟩ := hback a rfl hlt
  exact ⟨mk a, rfl, by rw [parse_return hr g hb, hg]⟩

/-- The same for a part that is refused unless it is in range. -/
theorem readsBack_guarded {α β : Type} {x : Except CodecError α} {c : α → Prop} [DecidablePred c]
    {f : α → List Bytes} {refusal : α → CodecError} {mk : α → Value} {r : CursorM β}
    {g : β → Value} {ps : List Bytes} {s : Bytes}
    (h : (x >>= fun a => if c a then pure (f a) else throw (refusal a)) = Except.ok ps)
    (hr : Confined r)
    (hback : ∀ a, ps = f a → c a →
      ∃ b, r.parse (ps.flatten ++ s) = .ok (b, ps.flatten.length) ∧ g b = mk a) :
    ∃ w, (do return mk (← x)) = Except.ok w ∧
      (do return g (← r)).parse (ps.flatten ++ s) = .ok (w, ps.flatten.length) := by
  obtain ⟨a, rfl, ha⟩ := ok_of_bind h
  split at ha
  · rename_i hc
    cases ha
    obtain ⟨b, hb, hg⟩ := hback a rfl hc
    exact ⟨mk a, rfl, by rw [parse_return hr g hb, hg]⟩
  · cases ha

/-- Reading an octet that fits the bits of its kind. -/
theorem parse_uintBits {k : Fin 7} {n : Nat} (hn : n < Nat.pow 2 (k.val + 1)) (s : Bytes) :
    (read (.uintBits k)).parse ([leBytes 1 n].flatten ++ s) = .ok (.uint (UInt64.ofNat n), 1) := by
  have hpow : Nat.pow 2 (k.val + 1) ≤ Nat.pow 2 8 := Nat.pow_le_pow_right (by decide) (by omega)
  have hone : (UInt8.ofNat (n % 256)).toNat = n := by
    rw [UInt8.toNat_ofNat']
    have : Nat.pow 2 8 = 256 := rfl
    omega
  have hbits : (uintBits k).checkBits n (k.val + 1) = .ok n := if_pos hn
  simp only [leBytes, List.flatten_cons, List.flatten_nil, List.append_nil, List.cons_append,
    List.nil_append]
  rw [read, parse_bind_ok confined_readByte (fun _ => confined_bind (confined_ofExcept _)
    fun _ => confined_pure _) (parse_readByte_cons _ s), hone, hbits]
  rfl

theorem toBytes_of_toBlock {p : Primitive} {v : Value} {n : Nat} {b : Bytes}
    (h : p.toBlock v n = .ok b) : v.toBytes = .ok b := by
  obtain ⟨a, ha, hb⟩ := ok_of_bind h
  split at hb
  · cases hb
    exact ha
  · cases hb

/-- Reading a buffer; an empty one counts as missing. -/
theorem parse_buffer {b : Bytes} (hfits : Bytes.Fits (prefixedPieces b).flatten) (s : Bytes) :
    (read .buffer).parse ((prefixedPieces b).flatten ++ s) =
      .ok (if b.isEmpty then .null else .bytes b, (prefixedPieces b).flatten.length) := by
  rw [read, parse_return confined_readPrefixed _ (parse_prefixed hfits s)]

/-- Reading a big integer. -/
theorem parse_bigint (n : Int128) (s : Bytes) :
    (read .bigint).parse ((Varint.pieces (wordsOf (zigzag n.val)).length ++
        (wordsOf (zigzag n.val)).map (leBytes 8)).flatten ++ s) =
      .ok (.bigInt n, (Varint.pieces (wordsOf (zigzag n.val)).length ++
        (wordsOf (zigzag n.val)).map (leBytes 8)).flatten.length) := by
  have hz : zigzag n.val < wordCount * wordCount :=
    zigzag_lt (m := 0x80000000000000000000000000000000) n.lower n.upper
  have hwords := parse_words (fun w hw => wordsOf_lt hz hw) s
  have hcount := length_wordsOf (zigzag n.val)
  have hvarint := Varint.parse_varint_append (n := (wordsOf (zigzag n.val)).length)
    (by omega) (((wordsOf (zigzag n.val)).map (leBytes 8)).flatten ++ s)
  rw [ofWords_wordsOf] at hwords
  rw [← Varint.length_bytes, Varint.bytes] at hvarint
  rw [List.flatten_append, List.append_assoc, List.length_append, read,
    parse_bind_ok Varint.confined_varint ?_ hvarint]
  · rw [List.drop_left, if_neg (by omega),
      parse_return (confined_readWords _) (fun z => .bigInt (Int128.ofInt (unzigzag z))) hwords,
      shift_ok, unzigzag_zigzag, Int128.ofInt_val]
  · intro count
    split
    · exact confined_throw _
    · exact confined_bind (confined_readWords count) fun _ => confined_pure _

/-- Reading an address and its port. -/
theorem parse_endpoint {p : Primitive} {f : Option Family} {e : Endpoint} {b : Bytes}
    (hb : addressBytes p f e.address = .ok b) (s : Bytes) :
    (read (.endpoint f)).parse ([b, leBytes 2 e.port.toNat].flatten ++ s) =
      .ok (.string e.text, [b, leBytes 2 e.port.toNat].flatten.length) := by
  have hlt : e.port.toNat < Nat.pow 256 2 := e.port.toNat_lt
  have hport := Varint.parse_readFixed_append hlt s
  have haddress := parse_address hb (leBytes 2 e.port.toNat ++ s)
  rw [List.flatten_cons, List.flatten_cons, List.flatten_nil, List.append_nil, List.append_assoc,
    List.length_append, leBytes_length, read, parse_bind_ok (confined_readAddress f)
    (fun _ => confined_bind (Varint.confined_readFixed 2) fun _ => confined_pure _) haddress,
    List.drop_left, parse_return (Varint.confined_readFixed 2)
    (fun port => .string (Endpoint.text ⟨e.address, UInt16.ofNat port⟩)) hport,
    UInt16.ofNat_toNat, shift_ok]

/-- A value that was written is read back as its canonical variant, whatever follows it. -/
theorem parse_pieces {p : Primitive} (hraw : p ≠ .raw) (hjson : p ≠ .json) {v : Value}
    {ps : List Bytes} (h : p.pieces v = .ok ps) (hfits : Bytes.Fits ps.flatten) (s : Bytes) :
    ∃ w, p.norm v = .ok w ∧ p.read.parse (ps.flatten ++ s) = .ok (w, ps.flatten.length) := by
  cases p with
  | uint =>
    refine readsBack h Varint.confined_varint ?_
    rintro n rfl
    exact ⟨_, parse_compact n s, by rw [UInt64.ofNat_toNat]⟩
  | uintBits k =>
    obtain ⟨n, hn, h⟩ := ok_of_bind h
    obtain ⟨m, hm, ⟨⟩⟩ := ok_of_bind h
    obtain ⟨rfl, hlt⟩ := checkBits_eq_ok hm
    refine ⟨.uint n, by rw [norm, hn]; rfl, ?_⟩
    rw [parse_uintBits hlt, UInt64.ofNat_toNat]
    rfl
  | uintBytes w =>
    refine readsBack_checked h (Varint.confined_readFixed _) ?_
    rintro n rfl hlt
    exact ⟨_, parse_block (pow_eight _ ▸ hlt) s, by rw [UInt64.ofNat_toNat]⟩
  | port =>
    refine readsBack_checked h (Varint.confined_readFixed _) ?_
    rintro n rfl hlt
    exact ⟨_, parse_block hlt s, by rw [UInt64.ofNat_toNat]⟩
  | intBytes w =>
    refine readsBack_checked (n := fun i : Int64 => zigzag i.toInt) h (Varint.confined_readFixed _) ?_
    rintro n rfl hlt
    exact ⟨_, parse_block (pow_eight _ ▸ hlt) s, by rw [unzigzag_zigzag, Int64.ofInt_toInt]⟩
  | int | date =>
    refine readsBack h Varint.confined_varint ?_
    rintro n rfl
    exact ⟨_, parse_compact_signed n s, by rw [unzigzag_zigzag, Int64.ofInt_toInt]⟩
  | float32 =>
    refine readsBack h (Varint.confined_readFixed _) ?_
    rintro x rfl
    exact ⟨_, parse_block (toSingleBits_lt x) s, rfl⟩
  | float64 =>
    refine readsBack h (Varint.confined_readFixed _) ?_
    rintro x rfl
    exact ⟨_, parse_block x.bits.toNat_lt s, by rw [UInt64.ofNat_toNat]⟩
  | lexint =>
    refine readsBack h Lexint.confined_lexint ?_
    rintro n rfl
    exact ⟨_, parse_sorted n.toNat_lt s, by rw [UInt64.ofNat_toNat]⟩
  | signedLexint | lexdate =>
    refine readsBack h Lexint.confined_lexint ?_
    rintro n rfl
    exact ⟨_, parse_sorted (shift_toInt_lt n) s, by
      rw [Lexint.unshift_shift n.le_toInt, Int64.ofInt_toInt]⟩
  | string | utf8 =>
    refine readsBack h confined_readText ?_
    rintro t rfl
    exact ⟨t, parse_text hfits s, rfl⟩
  | ascii =>
    obtain ⟨t, ht, h⟩ := ok_of_bind h
    split at h
    · rename_i hascii
      cases h
      refine ⟨.string t, by rw [norm, ht]; rfl, ?_⟩
      rw [read, parse_bind_ok confined_readText ?_ (parse_text hfits s), if_pos hascii]
      · rfl
      · intro u
        split
        · exact confined_pure _
        · exact confined_throw _
    · cases h
  | hex =>
    obtain ⟨t, ht, h⟩ := ok_of_bind h
    rw [slicesToBytes?_utf8Bytes] at h
    cases hb : pairsToBytes? t.toList with
    | none =>
      rw [hb] at h
      cases h
    | some b =>
      rw [hb] at h
      cases h
      refine ⟨.string (hexText b), by rw [norm, ht]; simp only [bind, Except.bind, hb]; rfl, ?_⟩
      rw [read, parse_return confined_readPrefixed (fun b => .string (hexText b))
        (parse_prefixed hfits s)]
  | bigint =>
    obtain ⟨n, hn, ⟨⟩⟩ := ok_of_bind h
    exact ⟨.bigInt n, by rw [norm, hn]; rfl, parse_bigint n s⟩
  | biguint64 =>
    refine readsBack_guarded (c := fun n : Int128 => 0 ≤ n.val ∧ n.val < 0x10000000000000000) h
      (Varint.confined_readFixed _) ?_
    rintro n rfl ⟨hlower, hupper⟩
    have hb : n.val.toNat < Nat.pow 256 8 := by simp; omega
    exact ⟨_, parse_block hb s, by rw [Int.toNat_of_nonneg hlower, Int128.ofInt_val]⟩
  | bigint64 =>
    refine readsBack_guarded
      (c := fun n : Int128 => -0x8000000000000000 ≤ n.val ∧ n.val < 0x8000000000000000) h
      (Varint.confined_readFixed _) ?_
    rintro n rfl ⟨hlower, hupper⟩
    have hb : zigzag n.val < Nat.pow 256 8 := zigzag_lt (m := 0x8000000000000000) hlower hupper
    exact ⟨_, parse_block hb s, by rw [unzigzag_zigzag, Int128.ofInt_val]⟩
  | fixed32 | fixed64 =>
    obtain ⟨b, hb, ⟨⟩⟩ := ok_of_bind h
    have hlen := length_of_toBlock hb
    refine ⟨.bytes b, by rw [norm, toBytes_of_toBlock hb]; rfl, ?_⟩
    have hread := parse_read_append b s
    rw [hlen] at hread
    rw [List.flatten_cons, List.flatten_nil, List.append_nil, hlen, read,
      parse_return (confined_read _) _ hread]
  | buffer =>
    cases v with
    | null =>
      -- nothing is written like an empty buffer
      cases h
      exact ⟨.null, rfl, parse_buffer (b := []) (by decide) s⟩
    | bytes b =>
      cases h
      cases b with
      | nil => exact ⟨.null, rfl, parse_buffer hfits s⟩
      | cons x b => exact ⟨.bytes (x :: b), rfl, parse_buffer hfits s⟩
    | _ => cases h
  | bool =>
    refine readsBack h confined_readByte ?_
    rintro b rfl
    cases b
    · exact ⟨_, parse_readByte_cons 0 s, rfl⟩
    · exact ⟨_, parse_readByte_cons 1 s, rfl⟩
  | address f =>
    obtain ⟨a, ha, h⟩ := ok_of_bind h
    obtain ⟨b, hb, ⟨⟩⟩ := ok_of_bind h
    refine ⟨.string a.text, by rw [norm, ha]; rfl, ?_⟩
    rw [List.flatten_cons, List.flatten_nil, List.append_nil, read,
      parse_return (confined_readAddress f) (fun a => .string a.text) (parse_address hb s)]
  | endpoint f =>
    obtain ⟨e, he, h⟩ := ok_of_bind h
    obtain ⟨b, hb, ⟨⟩⟩ := ok_of_bind h
    exact ⟨.string e.text, by rw [norm, he]; rfl, parse_endpoint hb s⟩
  | none =>
    cases h
    exact ⟨.null, rfl, rfl⟩
  | raw => exact absurd rfl hraw
  | json => exact absurd rfl hjson

/-- A JSON text is read back as what it is parsed to. -/
theorem parse_pieces_json {v : Value}
    (hfits : Bytes.Fits (prefixedPieces (utf8Bytes v.toJson.compact)).flatten) (s : Bytes) :
    (read .json).parse ((prefixedPieces (utf8Bytes v.toJson.compact)).flatten ++ s) =
      match Json.parse? v.toJson.compact with
      | some j => .ok (.json j, (prefixedPieces (utf8Bytes v.toJson.compact)).flatten.length)
      | Option.none => .error .json := by
  unfold read
  rw [parse_bind_ok confined_readText ?_ (parse_text hfits s)]
  · cases Json.parse? v.toJson.compact <;> rfl
  · intro t
    split
    · exact confined_pure _
    · exact confined_throw _

/-- What follows a written value has no part in its reading. -/
theorem parse_pieces_stable {p : Primitive} (hraw : p ≠ .raw) {v : Value} {ps : List Bytes}
    (h : p.pieces v = .ok ps) (hfits : Bytes.Fits ps.flatten) :
    ∃ r : Except CodecError Value, ∀ s,
      p.read.parse (ps.flatten ++ s) = r.map fun w => (w, ps.flatten.length) := by
  by_cases hjson : p = .json
  · subst hjson
    cases h
    cases hj : Json.parse? v.toJson.compact with
    | none => exact ⟨.error .json, fun s => by rw [parse_pieces_json hfits, hj]; rfl⟩
    | some j => exact ⟨.ok (.json j), fun s => by rw [parse_pieces_json hfits, hj]; rfl⟩
  · obtain ⟨w, hw, -⟩ := parse_pieces hraw hjson h hfits []
    refine ⟨.ok w, fun s => ?_⟩
    obtain ⟨w', hw', hp⟩ := parse_pieces hraw hjson h hfits s
    rw [hp, Except.ok.inj (hw'.symm.trans hw)]
    rfl

end Primitive

end WireSchema
