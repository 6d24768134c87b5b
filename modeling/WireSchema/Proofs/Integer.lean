import WireSchema.Codec.Lexint
import WireSchema.Proofs.Passes

/-!
# Integers on the wire

Reading back what was written: numbers of a fixed width (`parse_readFixed_append`), compact naturals
(`parse_varint_append`) and naturals that sort by their bytes (`parse_lexint_append`), each in
front of any further bytes.  A compact natural takes at least one byte, which is what keeps the
reading of recursive types going.
-/

namespace WireSchema

open CursorM

/-! ## Fixed widths -/

theorem ofLE_leBytes_of_lt {width n : Nat} (h : n < Nat.pow 256 width) :
    ofLE (leBytes width n) = n := by
  rw [ofLE_leBytes, Nat.mod_eq_of_lt h]

theorem ofBE_beBytes_of_lt {width n : Nat} (h : n < Nat.pow 256 width) :
    ofBE (beBytes width n) = n := by
  rw [ofBE_beBytes, Nat.mod_eq_of_lt h]

theorem ofBE_lt (bytes : Bytes) : ofBE bytes < Nat.pow 256 bytes.length := by
  have h := ofLE_lt bytes.reverse
  rwa [List.length_reverse] at h

theorem beBytes_ofBE (bytes : Bytes) : beBytes bytes.length (ofBE bytes) = bytes := by
  have h := leBytes_ofLE bytes.reverse
  rw [List.length_reverse] at h
  rw [beBytes, ofBE, h, List.reverse_reverse]

namespace Varint

theorem confined_readFixed (width : Nat) : Confined (readFixed width) :=
  confined_bind (confined_read width) fun _ => confined_pure _

theorem parse_readFixed (b s : Bytes) :
    (readFixed b.length).parse (b ++ s) = .ok (ofLE b, b.length) := by
  unfold readFixed
  rw [parse_bind_ok (confined_read _) (fun _ => confined_pure _) (parse_read_append b s)]
  simp

/-- A number of a fixed width is read back. -/
theorem parse_readFixed_append {width n : Nat} (h : n < Nat.pow 256 width) (s : Bytes) :
    (readFixed width).parse (leBytes width n ++ s) = .ok (n, width) := by
  have hr := parse_readFixed (leBytes width n) s
  rw [leBytes_length, ofLE_leBytes_of_lt h] at hr
  exact hr

theorem parse_readFixed_inv {width n k : Nat} {w : Bytes}
    (h : (readFixed width).parse w = .ok (n, k)) :
    width ≤ w.length ∧ n = ofLE (w.take width) ∧ k = width := by
  obtain ⟨b, hread, rfl⟩ := parse_return_inv (confined_read width) h
  obtain ⟨hle, rfl, rfl⟩ := parse_read_inv hread
  exact ⟨hle, rfl, rfl⟩

/-! ## Compact naturals -/

/-- The bytes of a natural. -/
def bytes (n : Nat) : Bytes := (pieces n).flatten

theorem length_bytes (n : Nat) : (bytes n).length = size n := by
  unfold bytes pieces size
  split
  · rfl
  · split
    · rfl
    · split <;> rfl

theorem size_pos (n : Nat) : 0 < size n := by
  unfold size
  split
  · decide
  · split
    · decide
    · split <;> decide

theorem bytes_ne_nil (n : Nat) : bytes n ≠ [] := by
  intro h
  have hl := length_bytes n
  rw [h, List.length_nil] at hl
  have := size_pos n
  omega

theorem yields_bytes (n : Nat) : Yields (reserve n) (write n) (bytes n) := by
  have h := yields_pieces (pieces n)
  rwa [show (pieces n).flatten.length = size n from length_bytes n] at h

theorem composable_varint {R : CursorM Unit → CursorM Unit → Prop} (hR : Composable R) (n : Nat) :
    R (reserve n) (write n) := by
  rw [reserve, ← length_bytes]
  exact hR.bytes (pieces n)

theorem tandem_varint (n : Nat) : Tandem (reserve n) (write n) :=
  composable_varint composable_tandem n

/-- What follows the first byte of a natural. -/
theorem confined_marked (n : Nat) :
    Confined (if n = 0xfd then readFixed 2 else if n = 0xfe then readFixed 4
      else if n = 0xff then readFixed 8 else pure n) := by
  split
  · exact confined_readFixed 2
  · split
    · exact confined_readFixed 4
    · split
      · exact confined_readFixed 8
      · exact confined_pure n

theorem confined_varint : Confined read := confined_bind confined_readByte confined_marked

theorem parse_varint_cons (x : UInt8) (s : Bytes) :
    read.parse (x :: s) = shift 1 ((if x.toNat = 0xfd then readFixed 2
      else if x.toNat = 0xfe then readFixed 4 else if x.toNat = 0xff then readFixed 8
      else pure x.toNat).parse s) :=
  parse_bind_ok confined_readByte confined_marked (parse_readByte_cons x s)

theorem parse_varint_nil : read.parse [] = .error .unexpectedEnd :=
  parse_bind_error parse_readByte_nil

/-- A natural of 64 bits is read back, whatever follows it. -/
theorem parse_varint_append {n : Nat} (h : n < 0x10000000000000000) (s : Bytes) :
    read.parse (bytes n ++ s) = .ok (n, size n) := by
  unfold bytes pieces size
  split
  · -- the byte is the number itself, below every marker
    have hn : (UInt8.ofNat (n % 256)).toNat = n := by
      rw [UInt8.toNat_ofNat']
      omega
    simp only [leBytes, List.flatten_cons, List.flatten_nil, List.append_nil, List.cons_append,
      List.nil_append]
    rw [parse_varint_cons, hn, if_neg (by omega), if_neg (by omega), if_neg (by omega)]
    rfl
  · split
    · have hlt : n < Nat.pow 256 2 := by simp; omega
      have hf := parse_readFixed_append hlt s
      simp only [List.flatten_cons, List.flatten_nil, List.append_nil, List.cons_append,
        List.nil_append]
      rw [parse_varint_cons, if_pos (by decide), hf]
      rfl
    · split
      · have hlt : n < Nat.pow 256 4 := by simp; omega
        have hf := parse_readFixed_append hlt s
        simp only [List.flatten_cons, List.flatten_nil, List.append_nil, List.cons_append,
          List.nil_append]
        rw [parse_varint_cons, if_neg (by decide), if_pos (by decide), hf]
        rfl
      · have hlt : n < Nat.pow 256 8 := by simp; omega
        have hf := parse_readFixed_append hlt s
        simp only [List.flatten_cons, List.flatten_nil, List.append_nil, List.cons_append,
          List.nil_append]
        rw [parse_varint_cons, if_neg (by decide), if_neg (by decide), if_pos (by decide), hf]
        rfl

theorem bytes_inj {m n : Nat} (hm : m < 0x10000000000000000) (hn : n < 0x10000000000000000)
    (h : bytes m = bytes n) : m = n := by
  have hread := parse_varint_append hm []
  rw [h, parse_varint_append hn []] at hread
  exact (Prod.mk.inj (Except.ok.inj hread)).1.symm

/-- Reading a natural takes at least one byte. -/
theorem parse_varint_pos {w : Bytes} {n k : Nat} (h : read.parse w = .ok (n, k)) : 0 < k := by
  cases w with
  | nil => rw [parse_varint_nil] at h; cases h
  | cons x s =>
    rw [parse_varint_cons] at h
    obtain ⟨j, -, rfl⟩ := shift_eq_ok h
    omega

end Varint

/-! ## Naturals that sort by their bytes -/

namespace Lexint

/-- The bytes of a natural. -/
def bytes (n : Nat) : Bytes := (pieces n).flatten

theorem length_bytes (n : Nat) : (bytes n).length = size n := by
  unfold bytes pieces size
  by_cases h : n < 251
  · simp [h, width]
  · simp [h]

theorem confined_marked (n : Nat) :
    Confined (if n < 251 then pure n
      else if n < 255 then (do return ofBE (← CursorM.read (n - 250)))
      else (do return ofBE (← CursorM.read 8))) := by
  split
  · exact confined_pure n
  · split
    · exact confined_bind (confined_read _) fun _ => confined_pure _
    · exact confined_bind (confined_read 8) fun _ => confined_pure _

theorem confined_lexint : Confined read := confined_bind confined_readByte confined_marked

/-- The width of a natural holds it. -/
theorem lt_pow_width {n : Nat} (h : n < 0x10000000000000000) (hn : ¬ n < 251) :
    n < Nat.pow 256 (width n) := by
  unfold width
  rw [if_neg hn]
  split
  · simpa using by omega
  · split
    · simpa using by omega
    · split
      · simpa using by omega
      · split <;> simpa using by omega

theorem width_cases {n : Nat} (hn : ¬ n < 251) : 1 ≤ width n ∧ width n ≤ 4 ∨ width n = 8 := by
  unfold width
  rw [if_neg hn]
  split
  · omega
  · split
    · omega
    · split
      · omega
      · split <;> omega

/-- A natural of 64 bits is read back, whatever follows it. -/
theorem parse_lexint_append {n : Nat} (h : n < 0x10000000000000000) (s : Bytes) :
    read.parse (bytes n ++ s) = .ok (n, size n) := by
  unfold bytes pieces size
  by_cases hn : n < 251
  · have hb : (UInt8.ofNat (n % 256)).toNat = n := by
      rw [UInt8.toNat_ofNat']
      omega
    rw [if_pos hn]
    simp only [leBytes, List.flatten_cons, List.flatten_nil, List.append_nil, List.cons_append,
      List.nil_append]
    rw [read, parse_bind_ok confined_readByte confined_marked (parse_readByte_cons _ s), hb,
      if_pos hn]
    simp [width, hn]
  · have hm : (UInt8.ofNat (marker (width n) % 256)).toNat = marker (width n) := by
      have hsmall : marker (width n) < 256 := by
        unfold marker
        split <;> omega
      rw [UInt8.toNat_ofNat']
      omega
    have hr := parse_read_append (beBytes (width n) n) s
    rw [beBytes_length] at hr
    rw [if_neg hn]
    simp only [leBytes, List.flatten_cons, List.flatten_nil, List.append_nil, List.cons_append,
      List.nil_append]
    rw [read, parse_bind_ok confined_readByte confined_marked (parse_readByte_cons _ _), hm]
    rcases width_cases hn with hw | hw
    · have hmark : marker (width n) = 250 + width n := by
        rw [marker, if_pos hw.2]
      rw [if_neg (by omega), if_pos (by omega), hmark, Nat.add_sub_cancel_left, List.drop_one,
        List.tail_cons, parse_bind_ok (confined_read _) (fun _ => confined_pure _) hr,
        ofBE_beBytes_of_lt (lt_pow_width h hn)]
      rfl
    · have hmark : marker (width n) = 255 := by
        rw [marker, if_neg (by omega)]
      rw [hw] at hr
      rw [hmark, if_neg (by decide), if_neg (by decide), hw, List.drop_one, List.tail_cons,
        parse_bind_ok (confined_read _) (fun _ => confined_pure _) hr,
        ofBE_beBytes_of_lt (hw ▸ lt_pow_width h hn)]
      rfl

theorem unshift_shift {n : Int} (h : -0x8000000000000000 ≤ n) : unshift (shift n) = n := by
  unfold unshift shift
  omega

end Lexint

end WireSchema
