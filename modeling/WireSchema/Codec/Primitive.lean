import WireSchema.Address.Reader
import WireSchema.Codec.Lexint
import WireSchema.Json.Printer
import WireSchema.Json.Reader
import WireSchema.Primitive

/-!
# Formats of the primitive kinds

Each kind has a size, the pieces in which a value is written, and a reader.  The size looks at a
value only as far as it needs to, so it may be known for a value that cannot be written.
-/

namespace WireSchema

namespace Primitive

/-! ## Parts -/

/-- The number of bytes of a byte string behind its length. -/
def prefixedSize (length : Nat) : Nat := Varint.size length + length

/-- The pieces of a byte string behind its length. -/
def prefixedPieces (bytes : Bytes) : List Bytes := Varint.pieces bytes.length ++ [bytes]

/-- Reads a byte string behind its length. -/
def readPrefixed : CursorM Bytes := do
  CursorM.read (← Varint.read)

/-- Reads a text behind its length. -/
def readText : CursorM String := do
  match ofUtf8Bytes? (← readPrefixed) with
  | some s => return s
  | Option.none => throw .invalidUtf8

/-- A number that must fit the given number of bits. -/
def checkBits (p : Primitive) (n bits : Nat) : Except CodecError Nat :=
  if n < Nat.pow 2 bits then .ok n else .error (.outOfRange p.name (toString n))

/-- Whether a byte of a text begins a character. -/
def beginsChar (b : UInt8) : Bool := b < 128 || 192 ≤ b

/-- The octet that digits of base sixteen stand for behind the number read so far. -/
def octetFrom? (n : Nat) : Bytes → Option Nat
  | [] => some n
  | b :: rest => do
    let d ← hexValue? (Char.ofNat b.toNat)
    if 16 * n + d < 256 then octetFrom? (16 * n + d) rest else Option.none

/-- The octet that a numeral of base sixteen stands for.  A plus sign may precede the digits. -/
def octetOfNumeral? : Bytes → Option Nat
  | [] => Option.none
  | b :: rest => octetFrom? 0 (if b = 43 ∧ rest ≠ [] then rest else b :: rest)

/-- The octets of a text cut after every second byte.  Each slice must hold whole characters and be
the numeral of an octet. -/
def slicesToBytes? : Bytes → Option Bytes
  | [] => some []
  | [_] => Option.none
  | a :: b :: rest =>
    if beginsChar a && rest.head?.all beginsChar then do
      let n ← octetOfNumeral? [a, b]
      let bytes ← slicesToBytes? rest
      return UInt8.ofNat n :: bytes
    else Option.none

/-- The number of words of 64 bits. -/
def wordCount : Nat := 0x10000000000000000

/-- The words of 64 bits of a natural of 128 bits, least significant first and without leading
zero words. -/
def wordsOf (z : Nat) : List Nat :=
  if z = 0 then [] else if z < wordCount then [z] else [z % wordCount, z / wordCount]

/-- Reads words of 64 bits as one natural, least significant first. -/
def readWords : Nat → CursorM Nat
  | 0 => pure 0
  | count + 1 => do
    let low ← Varint.readFixed 8
    let high ← readWords count
    return low + wordCount * high

/-- The fault of a text that is not of the kind. -/
def notOfKind (p : Primitive) (found : String) : CodecError := .invalidValue p.name found

/-- The octet that names a family. -/
def familyTag : Family → UInt8
  | .v4 => 4
  | .v6 => 6

/-- The number of octets of an address. -/
def familyWidth : Family → Nat
  | .v4 => 4
  | .v6 => 16

/-- The octets of an address of the kind's family, behind the family when the kind has none. -/
def addressBytes (p : Primitive) (family : Option Family) (a : Address) :
    Except CodecError Bytes :=
  match family with
  | Option.none => .ok (familyTag a.family :: a.octets)
  | some f => if a.family = f then .ok a.octets else .error (p.notOfKind a.text)

/-- Reads the family of an address when the kind has none. -/
def readFamily : Option Family → CursorM Family
  | some f => pure f
  | Option.none => do
    let tag ← CursorM.readByte
    if tag = 4 then return .v4
    else if tag = 6 then return .v6
    else throw (.invalidValue "ip family 4 or 6" (toString tag))

/-- Reads an address. -/
def readAddress (family : Option Family) : CursorM Address := do
  let f ← readFamily family
  return Address.ofOctets f (← CursorM.read (familyWidth f))

/-- The address a value is the text of. -/
def toAddress (p : Primitive) (v : Value) : Except CodecError Address := do
  let s ← v.toText
  match Address.ofText? s with
  | some a => .ok a
  | Option.none => .error (p.notOfKind s)

/-- The endpoint a value is the text of. -/
def toEndpoint (p : Primitive) (v : Value) : Except CodecError Endpoint := do
  let s ← v.toText
  match Endpoint.ofText? s with
  | some e => .ok e
  | Option.none => .error (p.notOfKind s)

/-- A byte string of exactly the given length. -/
def toBlock (p : Primitive) (v : Value) (length : Nat) : Except CodecError Bytes := do
  let b ← v.toBytes
  if b.length = length then .ok b
  else .error (.outOfRange p.name (toString b.length ++ " bytes"))

/-! ## Size -/

/-- The number of bytes of a value, as far as it can be told without checking that the value can
be written. -/
def size (p : Primitive) (v : Value) : Except CodecError Nat :=
  match p with
  | .uint => do return Varint.size (← v.toUInt64).toNat
  | .uintBits _ => .ok 1
  | .uintBytes w => .ok (w.val + 1)
  | .int | .date => do return Varint.size (zigzag (← v.toInt64).toInt)
  | .intBytes w => .ok (w.val + 1)
  | .float32 => .ok 4
  | .float64 => .ok 8
  | .port => .ok 2
  | .lexint => do return Lexint.size (← v.toUInt64).toNat
  | .signedLexint | .lexdate => do return Lexint.size (Lexint.shift (← v.toInt64).toInt)
  | .string | .utf8 | .ascii => do return prefixedSize (← v.toText).utf8ByteSize
  | .hex => do return prefixedSize ((← v.toText).utf8ByteSize / 2)
  | .bigint => do
    let words := wordsOf (zigzag (← v.toInt128).val)
    return Varint.size words.length + 8 * words.length
  | .biguint64 | .bigint64 => .ok 8
  | .fixed32 => .ok 32
  | .fixed64 => .ok 64
  | .buffer =>
    match v with
    | .null => .ok (Varint.size 0)
    | v => do return prefixedSize (← v.toBytes).length
  | .bool => .ok 1
  | .address f => do return (← addressBytes p f (← p.toAddress v)).length
  | .endpoint f => do return (← addressBytes p f (← p.toEndpoint v).address).length + 2
  | .none => .ok 0
  | .raw => do return (← v.toBytes).length
  | .json => .ok (prefixedSize v.toJson.compact.utf8ByteSize)

/-! ## Writing -/

/-- The pieces in which a value is written. -/
def pieces (p : Primitive) (v : Value) : Except CodecError (List Bytes) :=
  match p with
  | .uint => do return Varint.pieces (← v.toUInt64).toNat
  | .uintBits k => do
    return [leBytes 1 (← p.checkBits (← v.toUInt64).toNat (k.val + 1))]
  | .uintBytes w => do
    return [leBytes (w.val + 1) (← p.checkBits (← v.toUInt64).toNat (8 * (w.val + 1)))]
  | .int | .date => do return Varint.pieces (zigzag (← v.toInt64).toInt)
  | .intBytes w => do
    return [leBytes (w.val + 1) (← p.checkBits (zigzag (← v.toInt64).toInt) (8 * (w.val + 1)))]
  | .float32 => do return [leBytes 4 (← v.toDouble).toSingleBits]
  | .float64 => do return [leBytes 8 (← v.toDouble).bits.toNat]
  | .port => do return [leBytes 2 (← p.checkBits (← v.toUInt64).toNat 16)]
  | .lexint => do return Lexint.pieces (← v.toUInt64).toNat
  | .signedLexint | .lexdate => do return Lexint.pieces (Lexint.shift (← v.toInt64).toInt)
  | .string | .utf8 => do return prefixedPieces (utf8Bytes (← v.toText))
  | .ascii => do
    let s ← v.toText
    if s.toList.all fun c => decide (c.toNat < 128) then return prefixedPieces (utf8Bytes s)
    else throw (.invalidValue "ascii string" s)
  | .hex => do
    let s ← v.toText
    match slicesToBytes? (utf8Bytes s) with
    | some bytes => return prefixedPieces bytes
    | Option.none => throw (.invalidValue "hex string" s)
  | .bigint => do
    let words := wordsOf (zigzag (← v.toInt128).val)
    return Varint.pieces words.length ++ words.map (leBytes 8)
  | .biguint64 => do
    let n := (← v.toInt128).val
    if 0 ≤ n ∧ n < 0x10000000000000000 then return [leBytes 8 n.toNat]
    else throw (.outOfRange p.name (toString n))
  | .bigint64 => do
    let n := (← v.toInt128).val
    if -0x8000000000000000 ≤ n ∧ n < 0x8000000000000000 then return [leBytes 8 (zigzag n)]
    else throw (.outOfRange p.name (toString n))
  | .fixed32 => do return [← p.toBlock v 32]
  | .fixed64 => do return [← p.toBlock v 64]
  | .buffer =>
    match v with
    | .null => .ok (Varint.pieces 0)
    | v => do return prefixedPieces (← v.toBytes)
  | .bool => do return [[if ← v.toBool then 1 else 0]]
  | .address f => do return [← addressBytes p f (← p.toAddress v)]
  | .endpoint f => do
    let e ← p.toEndpoint v
    return [← addressBytes p f e.address, leBytes 2 e.port.toNat]
  | .none => .ok []
  | .raw => do return [← v.toBytes]
  | .json => .ok (prefixedPieces (utf8Bytes v.toJson.compact))

/-! ## Reading -/

/-- Reads a value. -/
def read (p : Primitive) : CursorM Value :=
  match p with
  | .uint => do return .uint (UInt64.ofNat (← Varint.read))
  | .uintBits k => do
    let n ← CursorM.readByte
    return .uint (UInt64.ofNat (← CursorM.ofExcept (p.checkBits n (k.val + 1))))
  | .uintBytes w => do return .uint (UInt64.ofNat (← Varint.readFixed (w.val + 1)))
  | .int | .date => do return .int (Int64.ofInt (unzigzag (← Varint.read)))
  | .intBytes w => do return .int (Int64.ofInt (unzigzag (← Varint.readFixed (w.val + 1))))
  | .float32 => do return .float (Double.ofSingleBits (← Varint.readFixed 4))
  | .float64 => do return .float ⟨UInt64.ofNat (← Varint.readFixed 8)⟩
  | .port => do return .uint (UInt64.ofNat (← Varint.readFixed 2))
  | .lexint => do return .uint (UInt64.ofNat (← Lexint.read))
  | .signedLexint | .lexdate => do return .int (Int64.ofInt (Lexint.unshift (← Lexint.read)))
  | .string | .utf8 => do return .string (← readText)
  | .ascii => do
    let s ← readText
    if s.toList.all fun c => decide (c.toNat < 128) then return .string s
    else throw .invalidUtf8
  | .hex => do return .string (hexText (← readPrefixed))
  | .bigint => do
    let count ← Varint.read
    if 2 < count then throw (.outOfRange p.name (toString count ++ " words"))
    else return .bigInt (Int128.ofInt (unzigzag (← readWords count)))
  | .biguint64 => do return .bigInt (Int128.ofInt (← Varint.readFixed 8))
  | .bigint64 => do return .bigInt (Int128.ofInt (unzigzag (← Varint.readFixed 8)))
  | .fixed32 => do return .bytes (← CursorM.read 32)
  | .fixed64 => do return .bytes (← CursorM.read 64)
  | .buffer => do
    let bytes ← readPrefixed
    return if bytes.isEmpty then .null else .bytes bytes
  | .bool => do return .bool (decide ((← CursorM.readByte) ≠ 0))
  | .address f => do return .string (← readAddress f).text
  | .endpoint f => do
    let a ← readAddress f
    let port ← Varint.readFixed 2
    return .string (Endpoint.text ⟨a, UInt16.ofNat port⟩)
  | .none => pure .null
  | .raw => do
    let c ← get
    return .bytes (← CursorM.read c.remaining)
  | .json => do
    let s ← readText
    match Json.parse? s with
    | some j => return .json j
    | Option.none => throw .json

/-- The codec of a primitive kind. -/
def codec (p : Primitive) : Codec where
  reserve v := do CursorM.reserve (← CursorM.ofExcept (p.size v))
  write v := do CursorM.writeAll (← CursorM.ofExcept (p.pieces v))
  read := p.read

end Primitive

end WireSchema
