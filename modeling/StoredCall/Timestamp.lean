import StoredCall.Number.Digits
import StoredCall.Text.Blank

/-!
# Timestamps

A date of the proleptic Gregorian calendar with a time of day to the nanosecond and without a
zone. A second has less than two billion nanoseconds, and a leap second is second 59 with a billion
or more. Reading makes no other second of that length, and writing takes it for the second after.

* `Civil` is the seven numbers, `Civil.isValid` says which of them are a timestamp, and a
  `Timestamp` is a valid one.
* `Timestamp.text` writes `2024-03-01T12:30:00.5` style text; years outside 0 to 9999 are signed.
* `Timestamp.read?` takes the same with `T`, with white space, with a final `Z`, or a date alone.
  Every number may have white space before it, and only the year may have a sign.
-/

namespace StoredCall

open Number

/-- Year, month, day, hour, minute, second and nanosecond. -/
structure Civil where
  year : Int
  month : Nat
  day : Nat
  hour : Nat := 0
  minute : Nat := 0
  second : Nat := 0
  nano : Nat := 0
  deriving DecidableEq, Repr

namespace Civil

/-- A year with 366 days. -/
def isLeapYear (year : Int) : Bool :=
  year % 4 == 0 && (year % 100 != 0 || year % 400 == 0)

/-- The number of days of a month. -/
def daysIn (year : Int) (month : Nat) : Nat :=
  if month = 2 then (if isLeapYear year then 29 else 28)
  else if month = 4 || month = 6 || month = 9 || month = 11 then 30
  else 31

/-- The first and the last year that a timestamp may have. -/
def firstYear : Int := -262143

@[inherit_doc firstYear]
def lastYear : Int := 262142

/-- One second in nanoseconds. -/
def billion : Nat := 1000000000

/-- Whether the numbers are a date and a time of day. -/
def isValid (c : Civil) : Bool :=
  firstYear ≤ c.year && c.year ≤ lastYear && 1 ≤ c.month && c.month ≤ 12
    && 1 ≤ c.day && c.day ≤ daysIn c.year c.month
    && c.hour < 24 && c.minute < 60 && c.second < 60 && c.nano < 2 * billion

end Civil

/-- A date and a time of day. -/
abbrev Timestamp := { c : Civil // c.isValid = true }

namespace Timestamp

/-- The timestamp with the given numbers, if they are one. -/
def ofCivil? (c : Civil) : Option Timestamp :=
  if h : c.isValid = true then some ⟨c, h⟩ else none

/-! ## Writing -/

/-- A year of four digits, or a signed one. -/
def yearText (year : Int) : List Char :=
  if 0 ≤ year ∧ year ≤ 9999 then padded 4 year.toNat
  else (if year < 0 then '-' else '+') :: padded 4 year.natAbs

/-- A point and the fewest of three, six or nine digits; nothing for a whole second. -/
def fractionText (nano : Nat) : List Char :=
  if nano = 0 then []
  else if nano % 1000000 = 0 then '.' :: padded 3 (nano / 1000000)
  else if nano % 1000 = 0 then '.' :: padded 6 (nano / 1000)
  else '.' :: padded 9 nano

/-- The text of a timestamp. -/
def chars (t : Timestamp) : List Char :=
  let c := t.val
  yearText c.year ++ '-' :: padded 2 c.month ++ '-' :: padded 2 c.day
    ++ 'T' :: padded 2 c.hour ++ ':' :: padded 2 c.minute
    ++ ':' :: padded 2 (c.second + c.nano / Civil.billion)
    ++ fractionText (c.nano % Civil.billion)

@[inherit_doc chars]
def text (t : Timestamp) : String := String.ofList t.chars

/-! ## Reading -/

/-- Takes one to `most` digits. -/
def takeNat (most : Nat) (cs : List Char) : Option (Nat × List Char) :=
  let ds := (cs.take most).takeWhile Char.isDigit
  if ds.isEmpty then none else some (natOf ds, cs.drop ds.length)

/-- Takes any number of digits, at least one. -/
def takeLong (cs : List Char) : Option (Nat × List Char) :=
  takeNat cs.length cs

/-- Takes white space and a number of one or two digits. -/
def takeField (cs : List Char) : Option (Nat × List Char) :=
  takeNat 2 (Text.stripStart Text.isBlank cs)

/-- Takes white space and a year: four digits at most, or a sign and any number of them. -/
def takeYear (cs : List Char) : Option (Int × List Char) :=
  match Text.stripStart Text.isBlank cs with
  | '-' :: rest => (takeLong rest).map fun (n, rest) => (-(n : Int), rest)
  | '+' :: rest => (takeLong rest).map fun (n, rest) => ((n : Int), rest)
  | rest => (takeNat 4 rest).map fun (n, rest) => ((n : Int), rest)

/-- Takes one given character. -/
def takeChar (c : Char) : List Char → Option (List Char)
  | d :: rest => if d = c then some rest else none
  | [] => none

/-- Takes an optional fraction of a second, in nanoseconds; digits past the ninth are dropped. -/
def takeFraction : List Char → Option (Nat × List Char)
  | '.' :: rest =>
    let ds := rest.takeWhile Char.isDigit
    if ds.isEmpty then none
    else
      let nine := ds.take 9
      some (natOf nine * pow10 (9 - nine.length), rest.drop ds.length)
  | rest => some (0, rest)

/-- Takes a date. -/
def takeDate (cs : List Char) : Option (Civil × List Char) := do
  let (year, cs) ← takeYear cs
  let cs ← takeChar '-' cs
  let (month, cs) ← takeField cs
  let cs ← takeChar '-' cs
  let (day, cs) ← takeField cs
  return ({ year, month, day }, cs)

/-- Takes a time of day for a date; second 60 is a leap second. -/
def takeTime (date : Civil) (cs : List Char) : Option (Civil × List Char) := do
  let (hour, cs) ← takeField cs
  let cs ← takeChar ':' cs
  let (minute, cs) ← takeField cs
  let cs ← takeChar ':' cs
  let (second, cs) ← takeField cs
  let (fraction, cs) ← takeFraction cs
  let leap := second = 60
  return ({ date with
    hour, minute
    second := if leap then 59 else second
    nano := if leap then Civil.billion + fraction else fraction }, cs)

/-- What stands between a date and a time of day, and what ends the text. -/
inductive Form where
  | letter | space | zoned | dateOnly
  deriving DecidableEq, Repr

/-- The numbers of a text of the given form. -/
def readCivil? (form : Form) (cs : List Char) : Option Civil := do
  let (date, cs) ← takeDate cs
  let (civil, cs) ← match form with
    | .letter | .zoned => do takeTime date (← takeChar 'T' cs)
    | .space => takeTime date (Text.stripStart Text.isBlank cs)
    | .dateOnly => some (date, cs)
  let rest ← match form with
    | .zoned => takeChar 'Z' cs
    | _ => some cs
  if rest.isEmpty then return civil else none

/-- Reads a text of the given form. -/
def readForm? (cs : List Char) (form : Form) : Option Timestamp := do
  ofCivil? (← readCivil? form cs)

/-- Reads a timestamp; the first form that fits is taken. -/
def read? (s : String) : Option Timestamp :=
  [Form.letter, .space, .zoned, .dateOnly].findSome? (readForm? (Text.strip Text.isBlank s.toList))

end Timestamp

end StoredCall
