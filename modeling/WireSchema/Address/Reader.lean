import WireSchema.Address.Basic

/-!
# Reading network addresses

The accepted texts are wider than the written ones: groups may have leading zeros and either
case, any run of zero groups may be left out, the last two groups of a long address may be a
dotted short one, and a long address of an endpoint may name a scope, which is dropped.  Octets
of a short address have no leading zeros.
-/

namespace WireSchema

namespace Address

/-- Whether a character is a digit in the given base, ten or sixteen. -/
def isDigitIn (radix : Nat) (c : Char) : Bool :=
  match hexValue? c with
  | some n => decide (n < radix)
  | none => false

/-- A number below a bound with at most `most` digits, and what follows it. -/
def readNumber (radix most bound : Nat) (leadingZero : Bool) (text : List Char) :
    Option (Nat × List Char) :=
  let digits := text.takeWhile (isDigitIn radix)
  let value := digits.foldl (fun n c => radix * n + (hexValue? c).getD 0) 0
  if digits.isEmpty || decide (most < digits.length) || decide (bound ≤ value) then none
  else if !leadingZero && digits.head? == some '0' && decide (1 < digits.length) then none
  else some (value, text.dropWhile (isDigitIn radix))

/-- The text after the given character. -/
def expect (c : Char) : List Char → Option (List Char)
  | d :: rest => if d = c then some rest else none
  | [] => none

/-- One octet of a short address. -/
def readOctet (text : List Char) : Option (Nat × List Char) := readNumber 10 3 256 false text

/-- A short address and what follows it. -/
def readV4 (text : List Char) : Option (Nat × List Char) := do
  let (a, text) ← readOctet text
  let (b, text) ← readOctet (← expect '.' text)
  let (c, text) ← readOctet (← expect '.' text)
  let (d, text) ← readOctet (← expect '.' text)
  return (a * 0x1000000 + b * 0x10000 + c * 0x100 + d, text)

/-- The text of the next group: all but the first stand after a colon. -/
def afterSeparator (first : Bool) (text : List Char) : Option (List Char) :=
  if first then some text else expect ':' text

/-- Groups read from a text: the groups, whether a dotted short address ends them, and what
follows. -/
structure Groups where
  groups : List Nat
  dotted : Bool
  rest : List Char

/-- At most `limit` groups; the last two may be a dotted short address. -/
def readGroups : Nat → Bool → List Char → Groups
  | 0, _, text => ⟨[], false, text⟩
  | limit + 1, first, text =>
    let dotted := if limit = 0 then none else (afterSeparator first text).bind readV4
    match dotted with
    | some (n, rest) => ⟨[n / 65536, n % 65536], true, rest⟩
    | none =>
      match (afterSeparator first text).bind (readNumber 16 4 65536 true) with
      | some (g, rest) =>
        let more := readGroups limit false rest
        ⟨g :: more.groups, more.dotted, more.rest⟩
      | none => ⟨[], false, text⟩

/-- A long address and what follows it. -/
def readV6 (text : List Char) : Option (Nat × List Char) :=
  let head := readGroups 8 true text
  if head.groups.length = 8 then some (ofGroups head.groups, head.rest)
  else if head.dotted then none
  else
    match head.rest with
    | ':' :: ':' :: rest =>
      let tail := readGroups (7 - head.groups.length) true rest
      let gap := 8 - head.groups.length - tail.groups.length
      some (ofGroups (head.groups ++ List.replicate gap 0 ++ tail.groups), tail.rest)
    | _ => none

/-- An address of either family and what follows it. -/
def readAddress (text : List Char) : Option (Address × List Char) :=
  match readV4 text with
  | some (n, rest) => some (.v4 (UInt32.ofNat n), rest)
  | none => (readV6 text).map fun (n, rest) => (.v6 (BitVec.ofNat 128 n), rest)

/-- The address a text is. -/
def ofText? (text : String) : Option Address :=
  match readAddress text.toList with
  | some (a, []) => some a
  | _ => none

end Address

namespace Endpoint

/-- A colon and a port, and what follows. -/
def readPort (text : List Char) : Option (UInt16 × List Char) := do
  let (n, rest) ← Address.readNumber 10 text.length 65536 true (← Address.expect ':' text)
  return (UInt16.ofNat n, rest)

/-- The text after a scope, if there is one. -/
def skipScope (text : List Char) : List Char :=
  match Address.expect '%' text with
  | none => text
  | some rest =>
    match Address.readNumber 10 rest.length 0x100000000 true rest with
    | some (_, rest) => rest
    | none => text

/-- An endpoint with a short address. -/
def readV4 (text : List Char) : Option (Endpoint × List Char) := do
  let (n, text) ← Address.readV4 text
  let (port, text) ← readPort text
  return (⟨.v4 (UInt32.ofNat n), port⟩, text)

/-- An endpoint with a long address, which stands in brackets. -/
def readV6 (text : List Char) : Option (Endpoint × List Char) := do
  let (n, text) ← Address.readV6 (← Address.expect '[' text)
  let (port, text) ← readPort (← Address.expect ']' (skipScope text))
  return (⟨.v6 (BitVec.ofNat 128 n), port⟩, text)

/-- The endpoint a text is. -/
def ofText? (text : String) : Option Endpoint :=
  match (readV4 text.toList).orElse (fun _ => readV6 text.toList) with
  | some (e, []) => some e
  | _ => none

end Endpoint

end WireSchema
