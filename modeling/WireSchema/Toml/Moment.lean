import WireSchema.Double.Decimal

/-!
# Dates and times

A settings file may name a day, a time of day, or both, and then an offset from universal time too.
`Moment.text` is the one way that each of them is written.
-/

namespace WireSchema

namespace Toml

/-- A day of the calendar. -/
structure Day where
  year : Nat
  month : Nat
  day : Nat
  deriving DecidableEq

/-- A time of day. -/
structure Clock where
  hour : Nat
  minute : Nat
  second : Nat
  nanosecond : Nat
  deriving DecidableEq

/-- How far a clock is from universal time. -/
inductive Offset where
  | universal
  | minutes (n : Int)
  deriving DecidableEq

/-- A point in time, as far as it is told. -/
inductive Moment where
  | day (d : Day)
  | time (t : Clock)
  | dayTime (d : Day) (t : Clock) (offset : Option Offset)
  deriving DecidableEq

/-! ## Writing -/

/-- A number with zeros in front of it up to a width. -/
def padded (width n : Nat) : List Char :=
  let digits := Nat.toDigits 10 n
  List.replicate (width - digits.length) '0' ++ digits

namespace Day

/-- A day as year, month and day. -/
def chars (d : Day) : List Char :=
  padded 4 d.year ++ '-' :: padded 2 d.month ++ '-' :: padded 2 d.day

/-- The number of days of a month. -/
def monthLength (year month : Nat) : Nat :=
  if month = 2 then
    if year % 4 = 0 ∧ (year % 100 ≠ 0 ∨ year % 400 = 0) then 29 else 28
  else if [4, 6, 9, 11].contains month then 30
  else 31

end Day

/-- The parts of a second without the zeros at their end. -/
def Clock.fraction (t : Clock) : List Char :=
  if t.nanosecond = 0 then []
  else '.' :: ((padded 9 t.nanosecond).reverse.dropWhile (· == '0')).reverse

/-- A time of day as hour, minute and second. -/
def Clock.chars (t : Clock) : List Char :=
  padded 2 t.hour ++ ':' :: padded 2 t.minute ++ ':' :: padded 2 t.second ++ t.fraction

/-- An offset as hours and minutes. -/
def Offset.chars : Offset → List Char
  | .universal => ['Z']
  | .minutes n =>
    (if n < 0 then '-' else '+') :: padded 2 (n.natAbs / 60) ++ ':' :: padded 2 (n.natAbs % 60)

/-- A moment as a text. -/
def Moment.text : Moment → String
  | .day d => String.ofList d.chars
  | .time t => String.ofList t.chars
  | .dayTime d t offset =>
    String.ofList (d.chars ++ 'T' :: t.chars ++ (offset.map Offset.chars).getD [])

/-! ## Reading -/

/-- A number of exactly so many digits, and the text after it. -/
def fixedDigits? (count : Nat) (text : List Char) : Option (Nat × List Char) :=
  let digits := text.take count
  if digits.length = count ∧ digits.all Char.isDigit then
    some (Double.digitsNat digits, text.drop count)
  else none

/-- A number of two digits between bounds, and the text after it. -/
def twoDigits? (low high : Nat) (text : List Char) : Option (Nat × List Char) := do
  let (n, rest) ← fixedDigits? 2 text
  if low ≤ n ∧ n ≤ high then return (n, rest) else none

/-- The text after a character that has to stand there. -/
def after? (c : Char) : List Char → Option (List Char)
  | d :: rest => if c == d then some rest else none
  | [] => none

/-- A day, and the text after it. -/
def day? (text : List Char) : Option (Day × List Char) := do
  let (year, rest) ← fixedDigits? 4 text
  let (month, rest) ← twoDigits? 1 12 (← after? '-' rest)
  let (day, rest) ← twoDigits? 1 (Day.monthLength year month) (← after? '-' rest)
  return (⟨year, month, day⟩, rest)

/-- The nanoseconds that stand after a point, and the text after them.  Digits beyond the ninth do
not count. -/
def nanoseconds (text : List Char) : Nat × List Char :=
  match text with
  | '.' :: rest =>
    let digits := rest.takeWhile Char.isDigit
    if digits.isEmpty then (0, text)
    else
      let kept := digits.take 9
      (Double.digitsNat (kept ++ List.replicate (9 - kept.length) '0'), rest.drop digits.length)
  | _ => (0, text)

/-- A time of day, and the text after it.  A minute may have a leap second. -/
def clock? (text : List Char) : Option (Clock × List Char) := do
  let (hour, rest) ← twoDigits? 0 23 text
  let (minute, rest) ← twoDigits? 0 59 (← after? ':' rest)
  let (second, rest) ← twoDigits? 0 60 (← after? ':' rest)
  let (nanosecond, rest) := nanoseconds rest
  return (⟨hour, minute, second, nanosecond⟩, rest)

/-- An offset in hours and minutes after its sign, and the text after it. -/
def hoursMinutes? (sign : Int) (text : List Char) : Option (Offset × List Char) := do
  let (hours, rest) ← twoDigits? 0 23 text
  let (minutes, rest) ← twoDigits? 0 59 (← after? ':' rest)
  return (.minutes (sign * (60 * hours + minutes)), rest)

/-- An offset, and the text after it. -/
def offset? : List Char → Option (Offset × List Char)
  | 'Z' :: rest | 'z' :: rest => some (.universal, rest)
  | '+' :: rest => hoursMinutes? 1 rest
  | '-' :: rest => hoursMinutes? (-1) rest
  | _ => none

/-- A day with what follows it: perhaps a time, and then perhaps an offset. -/
def afterDay (d : Day) (text : List Char) : Moment × List Char :=
  let time := match text with
    | 'T' :: rest | 't' :: rest | ' ' :: rest => clock? rest
    | _ => none
  match time with
  | none => (.day d, text)
  | some (t, rest) =>
    match offset? rest with
    | some (offset, rest) => (.dayTime d t (some offset), rest)
    | none => (.dayTime d t none, rest)

/-- A moment, and the text after it. -/
def moment? (text : List Char) : Option (Moment × List Char) :=
  match day? text with
  | some (d, rest) => some (afterDay d rest)
  | none => (clock? text).map fun (t, rest) => (.time t, rest)

end Toml

end WireSchema
