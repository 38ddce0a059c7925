import StoredCall.Number.Binary64

/-!
# The shortest decimal of a double-precision number

Every real number nearer to a finite number than to its neighbours reads back as that number; the
ends of this interval do so when the number's last bit is zero. `shortest` gives the decimal of
fewest digits in the interval, and of those the one nearest to the number.

A decimal of `k` digits in the interval exists only if one of the number's two neighbours on the
grid of `k`-digit decimals lies in it. So for one digit, two digits and so on those two are tried;
seventeen digits always suffice. All comparisons are made on integers, with values multiplied by
`2 ^ 1075 · 10 ^ 400`.

* `Decimal` is a number of digits and a power of ten.
* `Layout` holds the choices that differ from one text format to another.
-/

namespace StoredCall

open Number

/-- The number `digits · 10 ^ exponent`. -/
structure Decimal where
  digits : Nat
  exponent : Int
  deriving DecidableEq, Repr

/-- Which decimal is taken when two are equally near. -/
inductive Tie where
  | toEven | up
  deriving DecidableEq, Repr

namespace Binary64

/-- The factor that makes all decimals in question integers. -/
def grain : Nat := pow10 400

/-- The interval of reals that round to a magnitude, on the integer scale: its lower end, the
number itself, its upper end. -/
def interval (m : Nat) : Nat × Nat × Nat :=
  let n := scaled m
  ((scaled (m - 1) + n) * grain, 2 * n * grain, (n + scaled (m + 1)) * grain)

/-- The decimal exponent of the first digit plus one: `10 ^ (point - 1) ≤ x < 10 ^ point`. -/
def pointOf (m : Nat) : Int :=
  (width (scaled m * grain / pow2 1074) : Int) - 400

/-- The decimal `c · 10 ^ exponent` of `k` digits. The grid's last point is a power of ten and has
one digit. -/
def onGrid (k : Nat) (exponent : Int) (c : Nat) : Decimal :=
  if c = pow10 k then ⟨1, exponent + k⟩ else ⟨c, exponent⟩

/-- The decimal of `k` digits that reads back as the magnitude, if there is one. -/
def tryDigits (tie : Tie) (m k : Nat) : Option Decimal :=
  let (low, value, high) := interval m
  let exponent := pointOf m - k
  let step := pow10 (exponent + 400).toNat * pow2 1075
  let below := value / step
  let inside (c : Nat) : Bool :=
    let here := c * step
    (low < here && here < high) || (m % 2 == 0 && (here == low || here == high))
  let gapBelow := value - below * step
  let gapAbove := (below + 1) * step - value
  let preferAbove := gapAbove < gapBelow
    || (gapAbove == gapBelow && (tie == .up || below % 2 == 1))
  match inside below, inside (below + 1) with
  | true, true => some (onGrid k exponent (if preferAbove then below + 1 else below))
  | true, false => some (onGrid k exponent below)
  | false, true => some (onGrid k exponent (below + 1))
  | false, false => none

/-- The decimal of fewest digits that reads back as the magnitude. -/
def shortest (tie : Tie) (m : Nat) : Decimal :=
  if m = 0 then ⟨0, 0⟩
  else ((List.range' 1 17).findSome? (tryDigits tie m)).getD ⟨scaled m, 0⟩

end Binary64

/-! ## Layout -/

/-- The choices of a text format for finite numbers. -/
structure Layout where
  /-- Which decimal is taken when two are equally near. -/
  tie : Tie
  /-- The exponents of the first digit that are written without an exponent mark. -/
  isPlain : Int → Bool
  /-- A number without a fraction keeps a point and a zero. -/
  keepsPoint : Bool

namespace Decimal

/-- The digits with a point and no exponent. -/
def plain (d : Decimal) (keepsPoint : Bool) : List Char :=
  let ds := digitsOf d.digits
  let point := (ds.length : Int) + d.exponent
  if 0 ≤ d.exponent then
    ds ++ List.replicate d.exponent.toNat '0' ++ (if keepsPoint then ['.', '0'] else [])
  else if 0 < point then ds.take point.toNat ++ '.' :: ds.drop point.toNat
  else '0' :: '.' :: List.replicate (-point).toNat '0' ++ ds

/-- The exponent of the first digit. -/
def leading (d : Decimal) : Int :=
  (width d.digits : Int) + d.exponent - 1

/-- One digit, a point before the others if there are any, and a signed exponent. -/
def scientific (d : Decimal) : List Char :=
  let ds := digitsOf d.digits
  let fraction := if ds.length ≤ 1 then [] else '.' :: ds.drop 1
  let mark := if d.leading < 0 then '-' else '+'
  ds.take 1 ++ fraction ++ 'e' :: mark :: digitsOf d.leading.natAbs

end Decimal

/-- The text of a finite number. -/
def Layout.write (l : Layout) (x : Binary64) : String :=
  let d := Binary64.shortest l.tie x.magnitude
  let body := if l.isPlain d.leading then d.plain l.keepsPoint else d.scientific
  String.ofList (if x.isNegative then '-' :: body else body)

end StoredCall
