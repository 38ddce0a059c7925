import StoredCall.Json.Written
import StoredCall.Text.Blank
import StoredCall.Text.Split

/-!
# Reading JSON

A reader of the whole grammar. It recurses on the nesting of arrays and objects that is allowed,
and the loop over the parts of one container on the length of the text left, of which every part
takes at least one character.

Numbers follow a rule of their own. The digits are gathered into one word for as long as they fit;
later digits only count places. An integer that fits a word stays exact, minus zero apart. All
other numbers are the gathered digits, rounded to a double, and multiplied or divided by a power of
ten that is itself rounded. A number beyond the doubles is refused.

* `Json.Written.parse?` reads a text as it is written.
* `Json.parse?` reads a text that stands for a value.
-/

namespace StoredCall.Json

open Number

/-- The text from its next character that is not white space. -/
def skip (cs : List Char) : List Char := cs.dropWhile Text.isSpace

/-! ## Numbers -/

/-- The product of two finite doubles, rounded. -/
def times (x y : Nat) : Nat :=
  Binary64.magnitudeOfRatio (Binary64.scaled x * Binary64.scaled y) (pow2 2148)

/-- The quotient of two finite doubles, rounded. -/
def dividedBy (x y : Nat) : Nat :=
  Binary64.magnitudeOfRatio (Binary64.scaled x) (Binary64.scaled y)

/-- A power of ten, rounded. -/
def powerOfTen (n : Nat) : Nat := Binary64.magnitudeOfRatio (pow10 n) 1

/-- The greatest power of ten among the doubles. -/
def maxPower : Nat := 308

/-- Divides by a power of ten in steps of at most `maxPower`. Zero is reached within `steps`. -/
def scaleDown : (steps : Nat) → (magnitude exponent : Nat) → Nat
  | 0, _, _ => 0
  | steps + 1, m, e =>
    if e ≤ maxPower then dividedBy m (powerOfTen e)
    else if m = 0 then 0
    else scaleDown steps (dividedBy m (powerOfTen maxPower)) (e - maxPower)

/-- The magnitude of `significand · 10 ^ exponent`, unless it is beyond the doubles. -/
def scale? (significand : Nat) (exponent : Int) : Option Nat :=
  let m := Binary64.magnitudeOfRatio significand 1
  if exponent < 0 then some (scaleDown 4 m exponent.natAbs)
  else if exponent ≤ maxPower then
    let r := times m (powerOfTen exponent.natAbs)
    if r < Binary64.infinite then some r else none
  else if m = 0 then some 0
  else none

/-- Digits gathered into a word, and how many did not fit. -/
def gather : (significand : Nat) → List Char → Nat × Nat
  | n, [] => (n, 0)
  | n, c :: cs =>
    let m := 10 * n + digitValue c
    if m ≤ wordMax then gather m cs else (n, cs.length + 1)

/-- A signed double. -/
def floatOf? (negative : Bool) (significand : Nat) (exponent : Int) : Option Num :=
  (scale? significand exponent).map fun m => .float (Binary64.ofMagnitude negative m)

/-- The exact integer, or the double for minus zero and for one below the words. -/
def integerOf? (negative : Bool) (n : Nat) : Option Num :=
  if !negative then some (.int n)
  else if 0 < n && n ≤ pow2 63 then some (.int (-(n : Int)))
  else floatOf? true n 0

/-- The digits of the integer part: one zero, or digits that begin with another. -/
def wholePart? (cs : List Char) : Option (List Char × List Char) :=
  let ds := cs.takeWhile Char.isDigit
  match ds with
  | [] => none
  | '0' :: _ :: _ => none
  | _ => some (ds, cs.dropWhile Char.isDigit)

/-- The digits after a point, at least one, or none without a point. -/
def fractionPart? : List Char → Option (Option (List Char) × List Char)
  | '.' :: cs =>
    let ds := cs.takeWhile Char.isDigit
    if ds.isEmpty then none else some (some ds, cs.dropWhile Char.isDigit)
  | cs => some (none, cs)

/-- The exponent after its mark, with at least one digit, or none without a mark. -/
def exponentPart? : List Char → Option (Option Int × List Char)
  | c :: cs =>
    if c == 'e' || c == 'E' then
      let (negative, cs) := takeSign cs
      let ds := cs.takeWhile Char.isDigit
      if ds.isEmpty then none
      else some (some (signed negative (natOf ds)), cs.dropWhile Char.isDigit)
    else some (none, c :: cs)
  | [] => some (none, [])

/-- The number with the given parts. Digits of the fraction that fit the word lower the exponent;
digits of the integer part that do not fit raise it. -/
def numberOf? (negative : Bool) (whole : List Char) (fraction : Option (List Char))
    (exponent : Option Int) : Option Num :=
  let (n, dropped) := gather 0 whole
  if fraction.isNone && exponent.isNone && dropped == 0 then integerOf? negative n
  else
    let ds := fraction.getD []
    let (m, cut) := gather n ds
    floatOf? negative m ((dropped : Int) - (ds.length - cut : Nat) + exponent.getD 0)

/-- Reads a number, which is none when it is beyond the doubles. -/
def number? (cs : List Char) : Option (Option Num × List Char) := do
  let (negative, cs) := match cs with
    | '-' :: rest => (true, rest)
    | _ => (false, cs)
  let (whole, cs) ← wholePart? cs
  let (fraction, cs) ← fractionPart? cs
  let (exponent, cs) ← exponentPart? cs
  return (numberOf? negative whole fraction exponent, cs)

/-! ## Strings -/

/-- The number a hexadecimal digit stands for. -/
def hexValue? (c : Char) : Option Nat :=
  if c.isDigit then some (c.toNat - '0'.toNat)
  else if 'a' ≤ c ∧ c ≤ 'f' then some (c.toNat - 'a'.toNat + 10)
  else if 'A' ≤ c ∧ c ≤ 'F' then some (c.toNat - 'A'.toNat + 10)
  else none

/-- The number of four hexadecimal digits. -/
def unit? (a b c d : Char) : Option Nat := do
  return (((← hexValue? a) * 16 + (← hexValue? b)) * 16 + (← hexValue? c)) * 16 + (← hexValue? d)

/-- The character of an escape with one letter. -/
def shortEscape? : Char → Option Char
  | '"' => some '"'
  | '\\' => some '\\'
  | '/' => some '/'
  | 'b' => some '\x08'
  | 'f' => some '\x0c'
  | 'n' => some '\n'
  | 'r' => some '\r'
  | 't' => some '\t'
  | _ => none

/-- The first half of a pair of code units. -/
def isHighUnit (n : Nat) : Bool := 0xD800 ≤ n && n < 0xDC00

/-- The second half of a pair of code units. -/
def isLowUnit (n : Nat) : Bool := 0xDC00 ≤ n && n < 0xE000

/-- The character of a pair of code units. -/
def pairChar (high low : Nat) : Char :=
  Char.ofNat (0x10000 + (high - 0xD800) * 0x400 + (low - 0xDC00))

/-- A step of a string: a character, or one half of a pair of code units. -/
inductive Piece where
  | char (c : Char)
  | half (unit : Nat)
  deriving DecidableEq, Repr

/-- The piece that a code unit stands for. -/
def Piece.ofUnit (n : Nat) : Piece :=
  if isHighUnit n || isLowUnit n then .half n else .char (Char.ofNat n)

/-- The characters of a string; halves must stand in pairs. -/
def joinPieces? : List Piece → Option (List Char)
  | [] => some []
  | .char c :: rest => (joinPieces? rest).map (c :: ·)
  | .half high :: .half low :: rest =>
    if isHighUnit high && isLowUnit low then (joinPieces? rest).map (pairChar high low :: ·)
    else none
  | .half _ :: _ => none

/-- Reads the rest of a string up to its closing quote. -/
def stringBody? : List Char → Option (List Piece × List Char)
  | '"' :: rest => some ([], rest)
  | '\\' :: 'u' :: a :: b :: c :: d :: rest =>
    match unit? a b c d with
    | none => none
    | some n => (stringBody? rest).map fun (ps, r) => (.ofUnit n :: ps, r)
  | '\\' :: c :: rest =>
    match shortEscape? c with
    | none => none
    | some e => (stringBody? rest).map fun (ps, r) => (.char e :: ps, r)
  | c :: rest =>
    if c.toNat < 0x20 || c == '\\' then none
    else (stringBody? rest).map fun (ps, r) => (.char c :: ps, r)
  | [] => none

/-- Reads a string with its quotes, which is none when its escapes stand for no characters. -/
def string? (cs : List Char) : Option (Option String × List Char) :=
  match cs with
  | '"' :: rest =>
    (stringBody? rest).map fun (ps, r) => ((joinPieces? ps).map String.ofList, r)
  | _ => none

/-! ## Values -/

/-- Reads a value that is neither array nor object. -/
def leaf? (cs : List Char) : Option (Written × List Char) :=
  match cs with
  | '"' :: _ => (string? cs).map fun (s, r) => (.string s, r)
  | 'n' :: _ => (Text.dropStart? "null".toList cs).map fun r => (.null, r)
  | 't' :: _ => (Text.dropStart? "true".toList cs).map fun r => (.bool true, r)
  | 'f' :: _ => (Text.dropStart? "false".toList cs).map fun r => (.bool false, r)
  | _ => (number? cs).map fun (n, r) => (.number n, r)

/-- Reads parts with commas between them up to a closing bracket. -/
def parts? {α : Type} (close : Char) (part : List Char → Option (α × List Char)) :
    Nat → List Char → Option (List α × List Char)
  | 0, _ => none
  | fuel + 1, cs =>
    match part cs with
    | none => none
    | some (a, rest) =>
      match skip rest with
      | [] => none
      | c :: rest =>
        if c = ',' then (parts? close part fuel rest).map fun (as, r) => (a :: as, r)
        else if c = close then some ([a], rest)
        else none

/-- Reads the inside of a container and its closing bracket. -/
def container? {α : Type} (close : Char) (part : List Char → Option (α × List Char))
    (cs : List Char) : Option (List α × List Char) :=
  match skip cs with
  | [] => none
  | c :: rest => if c = close then some ([], rest) else parts? close part cs.length cs

/-- Reads a field: a name, a colon and a value. -/
def field? (value : List Char → Option (Written × List Char)) (cs : List Char) :
    Option ((Option String × Written) × List Char) := do
  let (name, cs) ← string? (skip cs)
  match skip cs with
  | ':' :: cs =>
    let (v, cs) ← value cs
    return ((name, v), cs)
  | _ => none

/-- Reads a value with at most `depth` containers inside each other. -/
def value? : (depth : Nat) → List Char → Option (Written × List Char)
  | 0, cs => leaf? (skip cs)
  | depth + 1, cs =>
    match skip cs with
    | '[' :: rest => (container? ']' (value? depth) rest).map fun (items, r) => (.array items, r)
    | '\x7b' :: rest =>
      (container? '\x7d' (field? (value? depth)) rest).map fun (fields, r) => (.object fields, r)
    | cs => leaf? cs

/-- Reads a text that is one value and white space, with at most `depth` containers inside each
other. -/
def Written.parseWithin? (depth : Nat) (s : String) : Option Written := do
  let (w, rest) ← value? depth s.toList
  if (skip rest).isEmpty then return w else none

/-- Reads a text that is one value and white space. There are no more containers than characters. -/
def Written.parse? (s : String) : Option Written := parseWithin? s.length s

/-- The deepest nesting of arrays and objects in a value. -/
def maxDepth : Nat := 127

/-- Reads a text that stands for one value. -/
def parse? (s : String) : Option Json := do (← Written.parseWithin? maxDepth s).json?

end StoredCall.Json
