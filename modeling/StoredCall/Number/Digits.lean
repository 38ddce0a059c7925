/-!
# Decimal digits

Reading of plain decimal integers: digits with an optional sign, nothing else.

* `pow2` and `pow10` are the powers that words and decimals are measured in.
* `natOf` is the number that a list of digits stands for.
* `readNat?` and `readInt?` read a whole text; `readInt64?` also checks the range of a word.
-/

namespace StoredCall.Number

/-- A power of two. -/
abbrev pow2 (n : Nat) : Nat := Nat.pow 2 n

/-- A power of ten. -/
abbrev pow10 (n : Nat) : Nat := Nat.pow 10 n

/-- The number a digit stands for. -/
def digitValue (c : Char) : Nat := c.toNat - '0'.toNat

/-- The number a list of digits stands for. -/
def natOf (cs : List Char) : Nat :=
  cs.foldl (fun n c => 10 * n + digitValue c) 0

/-- The digits of a number. -/
def digitsOf (n : Nat) : List Char := Nat.toDigits 10 n

/-- The count of the digits of a number. -/
def width (n : Nat) : Nat := (digitsOf n).length

/-- Digits with zeros in front, at least `w` of them. -/
def padded (w n : Nat) : List Char :=
  List.replicate (w - width n) '0' ++ digitsOf n

/-- Reads one or more digits and nothing else. -/
def readNat? (cs : List Char) : Option Nat :=
  if !cs.isEmpty && cs.all Char.isDigit then some (natOf cs) else none

/-- Takes a sign off the front; `true` is minus. -/
def takeSign : List Char → Bool × List Char
  | '-' :: cs => (true, cs)
  | '+' :: cs => (false, cs)
  | cs => (false, cs)

/-- A number with a sign. -/
def signed (negative : Bool) (n : Nat) : Int :=
  if negative then -(n : Int) else n

/-- Reads an optional sign and one or more digits. -/
def readInt? (cs : List Char) : Option Int :=
  let (negative, rest) := takeSign cs
  (readNat? rest).map (signed negative)

/-- The word that holds an integer, if one does. -/
def toInt64? (i : Int) : Option Int64 :=
  if -(pow2 63 : Int) ≤ i ∧ i < (pow2 63 : Int) then some (Int64.ofInt i) else none

/-- Reads an integer that fits a signed word. -/
def readInt64? (cs : List Char) : Option Int64 := do
  toInt64? (← readInt? cs)

/-- The greatest unsigned word. -/
def wordMax : Nat := pow2 64 - 1

/-- Reads an unsigned word, with or without a plus sign. -/
def readWord? (cs : List Char) : Option Nat :=
  let digits := match cs with
    | '+' :: rest => rest
    | cs => cs
  match readNat? digits with
  | some n => if n ≤ wordMax then some n else none
  | none => none

end StoredCall.Number
