import StoredCall.Number.Digits

/-!
# Double-precision numbers

A number of the binary format with 64 bits, held by its bits. All rules are exact statements about
natural numbers: a finite number is a sign and a multiple of `2 ^ -1074`, the smallest positive
one, and `scaled` is that multiple.

* `ofRatio` is the nearest number to a quotient, ties to the even neighbour. The magnitudes of
  finite numbers are ordered as their bits, so rounding up is adding one, also across a power of
  two and on to infinity.
* `ofDecimal` and `read?` read decimal text; `toInt?` is the exact integer value.
* `same` is equality as numbers: zero has two forms, and what is not a number equals nothing.
-/

namespace StoredCall

open Number

/-- A double-precision number, by its bits. -/
structure Binary64 where
  bits : UInt64
  deriving DecidableEq, Repr, Inhabited

namespace Binary64

/-- The bits without the sign. -/
def magnitude (x : Binary64) : Nat := x.bits.toNat % pow2 63

/-- The sign bit. -/
def isNegative (x : Binary64) : Bool := pow2 63 ≤ x.bits.toNat

/-- The magnitude of infinity. -/
def infinite : Nat := 2047 * pow2 52

/-- Not a number. -/
def isNaN (x : Binary64) : Bool := infinite < x.magnitude

/-- A number other than the infinities. -/
def isFinite (x : Binary64) : Bool := x.magnitude < infinite

/-- The number with the given sign and magnitude. -/
def ofMagnitude (negative : Bool) (m : Nat) : Binary64 :=
  ⟨UInt64.ofNat ((if negative then pow2 63 else 0) + m)⟩

/-- One of the bit patterns that are not a number. -/
def nan : Binary64 := ofMagnitude false (infinite + pow2 51)

/-- The value of a finite magnitude as a multiple of `2 ^ -1074`. -/
def scaled (m : Nat) : Nat :=
  if m < pow2 52 then m else (m % pow2 52 + pow2 52) * pow2 (m / pow2 52 - 1)

/-- Equality as numbers. -/
def same (x y : Binary64) : Bool :=
  !x.isNaN && !y.isNaN && (x == y || (x.magnitude == 0 && y.magnitude == 0))

/-- The integer that a finite number is, if it has no fraction. -/
def toInt? (x : Binary64) : Option Int :=
  let n := scaled x.magnitude
  if x.isFinite && n % pow2 1074 == 0 then some (signed x.isNegative (n / pow2 1074)) else none

/-! ## Rounding -/

/-- How far a scaled value is above the range that is held exactly, in powers of two. -/
def excess (n : Nat) : Nat :=
  if n < pow2 53 then 0 else Nat.log2 n - 52

/-- The magnitude nearest to `num / den`, ties to the even one. -/
def magnitudeOfRatio (num den : Nat) : Nat :=
  let n := num * pow2 1074
  let shift := excess (n / den)
  let unit := den * pow2 shift
  let m := n / unit
  let r := n % unit
  let up := if unit < 2 * r || (2 * r == unit && m % 2 == 1) then 1 else 0
  min infinite (shift * pow2 52 + m + up)

/-- The number nearest to `num / den`. -/
def ofRatio (negative : Bool) (num den : Nat) : Binary64 :=
  ofMagnitude negative (magnitudeOfRatio num den)

/-- The number nearest to an integer. -/
def ofInt (i : Int) : Binary64 :=
  ofRatio (i < 0) i.natAbs 1

/-- The number nearest to `digits · 10 ^ exponent`. Beyond 400 digits on either side of the point
the answer is infinity or zero, which spares computing the power. -/
def ofDecimal (negative : Bool) (digits : Nat) (exponent : Int) : Binary64 :=
  let point := (width digits : Int) + exponent
  if digits = 0 || point < -400 then ofMagnitude negative 0
  else if 400 < point then ofMagnitude negative infinite
  else if 0 ≤ exponent then ofRatio negative (digits * pow10 exponent.toNat) 1
  else ofRatio negative digits (pow10 (-exponent).toNat)

/-! ## Reading -/

/-- Reads the exponent that may follow the digits. -/
def readExponent? : List Char → Option Int
  | [] => some 0
  | c :: cs => if c == 'e' || c == 'E' then readInt? cs else none

/-- Reads digits with an optional point and an optional exponent. -/
def readUnsigned? (negative : Bool) (cs : List Char) : Option Binary64 := do
  let whole := cs.takeWhile Char.isDigit
  let rest := cs.dropWhile Char.isDigit
  let (fraction, rest) := match rest with
    | '.' :: more => (more.takeWhile Char.isDigit, more.dropWhile Char.isDigit)
    | _ => ([], rest)
  let digits := whole ++ fraction
  if digits.isEmpty then none
  else
    let exponent ← readExponent? rest
    return ofDecimal negative (natOf digits) (exponent - fraction.length)

/-- Reads a number, also the words for infinity and for what is not a number. -/
def read? (cs : List Char) : Option Binary64 :=
  let (negative, rest) := takeSign cs
  match String.ofList (rest.map Char.toLower) with
  | "inf" | "infinity" => some (ofMagnitude negative infinite)
  | "nan" => some nan
  | _ => readUnsigned? negative rest

end Binary64

end StoredCall
