import WireSchema.Proofs.Codec.Choice
import WireSchema.Proofs.Primitive.Norm

/-!
# Bytes that are asked for

A reader demands a byte string when every proper beginning of it is too short for the reader.  What
is read piece by piece is demanded when each piece is (`demands_append`), and so the bytes of every
primitive value but `raw` are demanded by their reader (`demands_pieces`), and those of a choice
too.
-/

namespace WireSchema

namespace CursorM

variable {α β : Type} {step : CursorM α}

/-- Every proper beginning of the bytes is too short. -/
def Demands (step : CursorM α) (x : Bytes) : Prop :=
  ∀ k < x.length, step.parse (x.take k) = .error .unexpectedEnd

theorem demands_nil (step : CursorM α) : Demands step [] := by
  intro k hk
  cases hk

theorem Demands.bind {x : Bytes} (h : Demands step x) (f : α → CursorM β) :
    Demands (step >>= f) x :=
  fun k hk => parse_bind_error (h k hk)

/-- A first piece that is read back, and the piece behind it. -/
theorem demands_append (hc : Confined step) {f : α → CursorM β} (hf : ∀ a, Confined (f a))
    {x y : Bytes} {a : α} (hread : ∀ s, step.parse (x ++ s) = .ok (a, x.length))
    (hx : Demands step x) (hy : Demands (f a) y) : Demands (step >>= f) (x ++ y) := by
  intro k hk
  rw [List.length_append] at hk
  by_cases hlt : k < x.length
  · rw [List.take_append_of_le_length (Nat.le_of_lt hlt)]
    exact parse_bind_error (hx k hlt)
  · rw [List.take_append, List.take_of_length_le (Nat.not_lt.mp hlt),
      parse_bind_ok hc hf (hread _), List.drop_left, hy (k - x.length) (by omega)]
    rfl

theorem demands_read {n : Nat} {x : Bytes} (h : x.length ≤ n) : Demands (read n) x := by
  intro k hk
  refine parse_read_short ?_
  rw [List.length_take]
  omega

theorem demands_readByte (x : UInt8) : Demands readByte [x] :=
  (demands_read (Nat.le_refl 1)).bind _

/-- What stands behind a byte. -/
theorem demands_cons {f : Nat → CursorM β} (hf : ∀ n, Confined (f n)) (x : UInt8) {y : Bytes}
    (h : Demands (f x.toNat) y) : Demands (readByte >>= f) (x :: y) :=
  demands_append (x := [x]) confined_readByte hf (parse_readByte_cons x) (demands_readByte x) h

end CursorM

open CursorM

/-! ## Integers -/

namespace Varint

theorem demands_readFixed {width : Nat} {x : Bytes} (h : x.length = width) :
    Demands (readFixed width) x :=
  (demands_read (Nat.le_of_eq h)).bind _

theorem demands_bytes (n : Nat) : Demands read (bytes n) := by
  have hmarked (x : UInt8) (width : Nat) (hx : (if x.toNat = 0xfd then readFixed 2
      else if x.toNat = 0xfe then readFixed 4 else if x.toNat = 0xff then readFixed 8
      else pure x.toNat) = readFixed width) : Demands read (x :: leBytes width n) := by
    refine demands_cons confined_marked x ?_
    rw [hx]
    exact demands_readFixed (leBytes_length width n)
  unfold bytes pieces
  split
  · exact (demands_readByte _).bind _
  · split
    · exact hmarked 0xfd 2 rfl
    · split
      · exact hmarked 0xfe 4 rfl
      · exact hmarked 0xff 8 rfl

end Varint

namespace Lexint

theorem demands_bytes (n : Nat) : Demands read (bytes n) := by
  unfold bytes pieces
  split
  · exact (demands_readByte _).bind _
  · rename_i hn
    have hmarker : (UInt8.ofNat (marker (width n) % 256)).toNat = marker (width n) := by
      rw [UInt8.toNat_ofNat']
      unfold marker
      split <;> omega
    have hlength := beBytes_length (width n) n
    simp only [leBytes, List.flatten_cons, List.flatten_nil, List.append_nil, List.cons_append,
      List.nil_append]
    refine demands_cons confined_marked _ ?_
    rw [hmarker]
    -- the marker tells the width
    rcases width_cases hn with hfew | height
    · have hmark : marker (width n) = 250 + width n := if_pos hfew.2
      rw [hmark, if_neg (by omega), if_pos (by omega)]
      exact (demands_read (by omega)).bind _
    · have hmark : marker (width n) = 255 := if_neg (by omega)
      rw [hmark, if_neg (by decide), if_neg (by decide)]
      exact (demands_read (by omega)).bind _

end Lexint

/-! ## Primitives -/

namespace Primitive

theorem demands_prefixed {b : Bytes} (h : Bytes.Fits (prefixedPieces b).flatten) :
    Demands readPrefixed (prefixedPieces b).flatten := by
  rw [flatten_prefixedPieces] at h ⊢
  have hlength : b.length < 0x10000000000000000 := h.right
  refine demands_append Varint.confined_varint confined_read (fun s => ?_)
    (Varint.demands_bytes _) (demands_read (Nat.le_refl _))
  rw [Varint.parse_varint_append hlength, Varint.length_bytes]

theorem demands_text {t : String} (h : Bytes.Fits (prefixedPieces (utf8Bytes t)).flatten) :
    Demands readText (prefixedPieces (utf8Bytes t)).flatten :=
  (demands_prefixed h).bind _

theorem demands_words {words : List Nat} (h : ∀ w ∈ words, w < wordCount) :
    Demands (readWords words.length) (words.map (leBytes 8)).flatten := by
  induction words with
  | nil => exact demands_nil _
  | cons w rest ih =>
    have hlt : w < Nat.pow 256 8 := h w List.mem_cons_self
    have hword (s : Bytes) : (Varint.readFixed 8).parse (leBytes 8 w ++ s) =
        .ok (w, (leBytes 8 w).length) := by
      rw [Varint.parse_readFixed_append hlt, leBytes_length]
    exact demands_append (Varint.confined_readFixed 8)
      (fun _ => confined_bind (confined_readWords _) fun _ => confined_pure _) hword
      (Varint.demands_readFixed (leBytes_length 8 w))
      ((ih fun x hx => h x (List.mem_cons_of_mem _ hx)).bind _)

theorem demands_address {p : Primitive} {f : Option Family} {a : Address} {b : Bytes}
    (h : p.addressBytes f a = .ok b) : Demands (readAddress f) b := by
  have hconf (g : Family) : Confined (do
      return Address.ofOctets g (← CursorM.read (familyWidth g))) :=
    confined_bind (confined_read _) fun _ => confined_pure _
  have hoctets : Demands (do
      return Address.ofOctets a.family (← CursorM.read (familyWidth a.family))) a.octets :=
    (demands_read (Nat.le_of_eq (length_octets a))).bind _
  unfold addressBytes at h
  cases f with
  | none =>
    cases h
    exact demands_append (x := [familyTag a.family]) (confined_readFamily _) hconf
      (parse_readFamily a.family) ((demands_readByte _).bind _) hoctets
  | some g =>
    dsimp only at h
    split at h
    · rename_i hfamily
      cases h
      subst hfamily
      exact demands_append (x := []) (confined_readFamily _) hconf (parse_pure a.family)
        (demands_nil _) hoctets
    · cases h

theorem demands_bigint (n : Int128) :
    Demands (read .bigint) (Varint.pieces (wordsOf (zigzag n.val)).length ++
      (wordsOf (zigzag n.val)).map (leBytes 8)).flatten := by
  have hz : zigzag n.val < wordCount * wordCount :=
    zigzag_lt (m := 0x80000000000000000000000000000000) n.lower n.upper
  have hcount := length_wordsOf (zigzag n.val)
  have hvarint (s : Bytes) :
      Varint.read.parse (Varint.bytes (wordsOf (zigzag n.val)).length ++ s) =
        .ok ((wordsOf (zigzag n.val)).length,
          (Varint.bytes (wordsOf (zigzag n.val)).length).length) := by
    rw [Varint.parse_varint_append (by omega), Varint.length_bytes]
  rw [List.flatten_append]
  refine demands_append Varint.confined_varint (fun count => ?_) hvarint (Varint.demands_bytes _) ?_
  · split
    · exact confined_throw _
    · exact confined_bind (confined_readWords count) fun _ => confined_pure _
  · rw [if_neg (by omega)]
    exact (demands_words fun w hw => wordsOf_lt hz hw).bind _

/-- The bytes of a value are demanded by the reader of its kind; `raw` alone takes what there is. -/
theorem demands_pieces {p : Primitive} (hraw : p ≠ .raw) {v : Value} {ps : List Bytes}
    (h : p.pieces v = .ok ps) (hfits : Bytes.Fits ps.flatten) : Demands p.read ps.flatten := by
  have hone {x : Bytes} : [x].flatten = x := by simp
  cases p with
  | uint =>
    obtain ⟨n, -, ⟨⟩⟩ := ok_of_bind h
    exact (Varint.demands_bytes _).bind _
  | int | date =>
    obtain ⟨n, -, ⟨⟩⟩ := ok_of_bind h
    exact (Varint.demands_bytes _).bind _
  | lexint | signedLexint | lexdate =>
    obtain ⟨n, -, ⟨⟩⟩ := ok_of_bind h
    exact (Lexint.demands_bytes _).bind _
  | uintBits k =>
    obtain ⟨n, -, h⟩ := ok_of_bind h
    obtain ⟨m, -, ⟨⟩⟩ := ok_of_bind h
    exact (demands_readByte _).bind _
  | uintBytes w | intBytes w | port =>
    obtain ⟨n, -, h⟩ := ok_of_bind h
    obtain ⟨m, -, ⟨⟩⟩ := ok_of_bind h
    rw [hone]
    exact (Varint.demands_readFixed (leBytes_length _ _)).bind _
  | float32 | float64 =>
    obtain ⟨x, -, ⟨⟩⟩ := ok_of_bind h
    rw [hone]
    exact (Varint.demands_readFixed (leBytes_length _ _)).bind _
  | string | utf8 =>
    obtain ⟨s, -, ⟨⟩⟩ := ok_of_bind h
    exact (demands_text hfits).bind _
  | ascii =>
    obtain ⟨s, -, h⟩ := ok_of_bind h
    split at h
    · cases h
      exact (demands_text hfits).bind _
    · cases h
  | hex =>
    obtain ⟨s, -, h⟩ := ok_of_bind h
    split at h
    · cases h
      exact (demands_prefixed hfits).bind _
    · cases h
  | bigint =>
    obtain ⟨n, -, ⟨⟩⟩ := ok_of_bind h
    exact demands_bigint n
  | biguint64 | bigint64 =>
    obtain ⟨n, -, h⟩ := ok_of_bind h
    dsimp only at h
    split at h
    · cases h
      rw [hone]
      exact (Varint.demands_readFixed (leBytes_length _ _)).bind _
    · cases h
  | fixed32 | fixed64 =>
    obtain ⟨b, hb, ⟨⟩⟩ := ok_of_bind h
    obtain ⟨b', -, hb⟩ := ok_of_bind hb
    split at hb
    · rename_i hlength
      cases hb
      rw [hone]
      exact (demands_read (Nat.le_of_eq hlength)).bind _
    · cases hb
  | buffer =>
    cases v with
    | null =>
      cases h
      exact ((Varint.demands_bytes 0).bind _).bind _
    | bytes b =>
      cases h
      exact (demands_prefixed hfits).bind _
    | _ => cases h
  | bool =>
    obtain ⟨x, -, ⟨⟩⟩ := ok_of_bind h
    exact (demands_readByte _).bind _
  | address f =>
    obtain ⟨a, -, h⟩ := ok_of_bind h
    obtain ⟨b, hb, ⟨⟩⟩ := ok_of_bind h
    rw [hone]
    exact (demands_address hb).bind _
  | endpoint f =>
    obtain ⟨e, -, h⟩ := ok_of_bind h
    obtain ⟨b, hb, ⟨⟩⟩ := ok_of_bind h
    rw [List.flatten_cons, hone]
    exact demands_append (confined_readAddress f)
      (fun _ => confined_bind (Varint.confined_readFixed 2) fun _ => confined_pure _)
      (parse_address hb) (demands_address hb)
      ((Varint.demands_readFixed (leBytes_length 2 _)).bind _)
  | none =>
    cases h
    exact demands_nil _
  | raw => exact absurd rfl hraw
  | json =>
    cases h
    exact (demands_text hfits).bind _

end Primitive

/-- The bytes of a key are demanded by the reader of its choice. -/
theorem Choice.demands_choice {e : Choice} {v : Value} {bytes : Bytes}
    (hy : e.codec.Yields v bytes) (hfits : bytes.Fits) : Demands e.read bytes := by
  rcases bytes_of_yields hy with ⟨hs, key, rfl⟩ | ⟨hs, n, rfl⟩
  · rw [read_strings hs]
    exact (Primitive.demands_text hfits).bind _
  · rw [read_numbers hs]
    exact (Varint.demands_bytes _).bind _

end WireSchema
