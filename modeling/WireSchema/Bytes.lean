/-!
# Byte strings

Byte strings are lists of octets.  This file holds the two ways a natural number becomes a fixed
number of octets, least significant first (`leBytes`, `ofLE`) and most significant first
(`beBytes`, `ofBE`), and the text of octets as pairs of hexadecimal digits (`hexText`,
`ofHexText?`).
-/

namespace WireSchema

/-- A byte string. -/
abbrev Bytes := List UInt8

/-! ## Numbers as octets -/

/-- The `width` octets of `n`, least significant first; what does not fit is dropped. -/
def leBytes : Nat → Nat → Bytes
  | 0, _ => []
  | width + 1, n => UInt8.ofNat (n % 256) :: leBytes width (n / 256)

/-- The number with the given octets, least significant first. -/
def ofLE : Bytes → Nat
  | [] => 0
  | b :: bs => b.toNat + 256 * ofLE bs

/-- The `width` octets of `n`, most significant first; what does not fit is dropped. -/
def beBytes (width n : Nat) : Bytes := (leBytes width n).reverse

/-- The number with the given octets, most significant first. -/
def ofBE (bytes : Bytes) : Nat := ofLE bytes.reverse

@[simp] theorem leBytes_length (width n : Nat) : (leBytes width n).length = width := by
  induction width generalizing n with
  | zero => rfl
  | succ width ih => simp [leBytes, ih]

/-- Reading the octets of `n` gives `n` modulo what the width can hold. -/
theorem ofLE_leBytes (width n : Nat) : ofLE (leBytes width n) = n % Nat.pow 256 width := by
  induction width generalizing n with
  | zero => exact (Nat.mod_one n).symm
  | succ width ih =>
    have h : n % 256 % 256 = n % 256 := Nat.mod_mod n 256
    have step : Nat.pow 256 (width + 1) = 256 * Nat.pow 256 width :=
      Nat.mul_comm (Nat.pow 256 width) 256
    rw [leBytes, ofLE, ih, UInt8.toNat_ofNat', step, Nat.mod_mul]
    exact congrArg (· + 256 * (n / 256 % Nat.pow 256 width)) h

/-- A byte string is below the power of 256 that its length gives. -/
theorem ofLE_lt (bytes : Bytes) : ofLE bytes < Nat.pow 256 bytes.length := by
  induction bytes with
  | nil => exact Nat.one_pos
  | cons b bs ih =>
    have hb : b.toNat < 256 := b.toNat_lt
    have step : Nat.pow 256 (b :: bs).length = Nat.pow 256 bs.length * 256 := rfl
    rw [ofLE, step]
    omega

/-- Every byte string is the octets of the number it reads as. -/
theorem leBytes_ofLE (bytes : Bytes) : leBytes bytes.length (ofLE bytes) = bytes := by
  induction bytes with
  | nil => rfl
  | cons b bs ih =>
    have hb : b.toNat < 256 := b.toNat_lt
    have low : (b.toNat + 256 * ofLE bs) % 256 = b.toNat := by omega
    have high : (b.toNat + 256 * ofLE bs) / 256 = ofLE bs := by omega
    rw [List.length_cons, leBytes, ofLE, low, high, ih, UInt8.ofNat_toNat]

@[simp] theorem beBytes_length (width n : Nat) : (beBytes width n).length = width := by
  simp [beBytes]

/-- Reading the big-endian octets of `n` gives `n` modulo what the width can hold. -/
theorem ofBE_beBytes (width n : Nat) : ofBE (beBytes width n) = n % Nat.pow 256 width := by
  rw [ofBE, beBytes, List.reverse_reverse, ofLE_leBytes]

/-! ## Hexadecimal text -/

/-- The digit of a number below sixteen, in lower case. -/
def hexDigit (n : Nat) : Char :=
  if n < 10 then Char.ofNat (48 + n) else Char.ofNat (87 + n)

/-- The number a hexadecimal digit stands for, in either case. -/
def hexValue? (c : Char) : Option Nat :=
  if '0' ≤ c ∧ c ≤ '9' then some (c.toNat - 48)
  else if 'a' ≤ c ∧ c ≤ 'f' then some (c.toNat - 87)
  else if 'A' ≤ c ∧ c ≤ 'F' then some (c.toNat - 55)
  else none

/-- The two digits of an octet, high half first. -/
def hexPair (b : UInt8) : List Char :=
  [hexDigit (b.toNat / 16), hexDigit (b.toNat % 16)]

/-- Octets as hexadecimal digits, two for each. -/
def hexText (bytes : Bytes) : String := String.ofList (bytes.flatMap hexPair)

/-- The octets that pairs of hexadecimal digits stand for. -/
def ofHexDigits? : List Char → Option Bytes
  | [] => some []
  | [_] => none
  | high :: low :: rest => do
    let h ← hexValue? high
    let l ← hexValue? low
    let bytes ← ofHexDigits? rest
    return UInt8.ofNat (16 * h + l) :: bytes

/-- The octets a hexadecimal text stands for, if it is one. -/
def ofHexText? (text : String) : Option Bytes := ofHexDigits? text.toList

/-! ## Text as octets -/

/-- The UTF-8 octets of a text. -/
def utf8Bytes (text : String) : Bytes := text.toUTF8.data.toList

/-- The text with the given UTF-8 octets, if they are well formed. -/
def ofUtf8Bytes? (bytes : Bytes) : Option String := String.fromUTF8? ⟨bytes.toArray⟩

end WireSchema
