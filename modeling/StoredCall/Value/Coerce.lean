import StoredCall.Call.Error
import StoredCall.Text.Base64
import StoredCall.Text.Utf8
import StoredCall.Value

/-!
# Coercion of scalars

A slot of a call has a kind, and a value is brought into that kind on its way in and on its way
out. Null stays null; texts are read, numbers are written, and what cannot be brought over without
loss fails.

* `Value.coerce?` is the conversion, `Value.coerce` the same with the failure at a path.
* `Value.floatText` is the text of a floating-point number: shortest digits, never an exponent.
-/

namespace StoredCall

open Number Text

/-- Numbers in text have all their digits: no exponent, and no point after a whole number. -/
def plainLayout : Layout where
  tie := .up
  isPlain := fun _ => true
  keepsPoint := false

/-- A text with an optional sign, digits and an optional point among them. -/
def isDecimalText (cs : List Char) : Bool :=
  let (_, body) := takeSign cs
  let (whole, fraction) := (cutAt? ['.'] body).getD (body, [])
  (!whole.isEmpty || !fraction.isEmpty) && whole.all Char.isDigit && fraction.all Char.isDigit

namespace Value

/-- The text of a floating-point number. -/
def floatText (x : Binary64) : String :=
  if x.isNaN then "NaN"
  else if x.isFinite then plainLayout.write x
  else if x.isNegative then "-inf" else "inf"

/-- The text of an integer. -/
def intText (i : Int64) : String :=
  toString i.toInt

/-- Integers below this are exact as floating-point numbers. -/
def exactBound : Nat := 9000000000000000

/-- The integer that a floating-point number stands for. -/
def intOfFloat? (x : Binary64) : Option Int64 :=
  match x.toInt? with
  | some i => if i.natAbs < exactBound then some (Int64.ofInt i) else none
  | none => none

/-- Brings a value into a kind. -/
def coerce? : Kind → Value → Option Value
  | _, null => some null
  | .int, int i => some (int i)
  | .int, float x => (intOfFloat? x).map int
  | .int, decimal s | .int, text s => (readInt64? (trim s).toList).map int
  | .int, bool b => some (int (if b then 1 else 0))
  | .decimal, int i => some (decimal (intText i))
  | .decimal, float x => if x.isFinite then some (decimal (floatText x)) else none
  | .decimal, decimal s | .decimal, text s =>
    if isDecimalText (trim s).toList then some (decimal (trim s)) else none
  | .float, float x => some (float x)
  | .float, int i => some (float (.ofInt i.toInt))
  | .float, decimal s | .float, text s => (Binary64.read? (trim s).toList).map float
  | .bool, bool b => some (bool b)
  | .bool, int i => if i = 0 then some (bool false) else if i = 1 then some (bool true) else none
  | .bool, text s =>
    match Text.lower (trim s) with
    | "true" | "y" | "1" => some (bool true)
    | "false" | "n" | "0" => some (bool false)
    | _ => none
  | .text, text s | .text, decimal s | .clob, text s | .clob, decimal s => some (text s)
  | .text, int i | .clob, int i => some (text (intText i))
  | .text, float x | .clob, float x => some (text (floatText x))
  | .text, bytes b | .clob, bytes b => (utf8? b).map text
  | .bytes, bytes b | .blob, bytes b => some (bytes b)
  | .bytes, text s | .blob, text s => (Base64.decode? (trim s).toList).map bytes
  | .clob, spilled lob | .blob, spilled lob => some (spilled lob)
  | .timestamp, timestamp t => some (timestamp t)
  | .timestamp, text s => (Timestamp.read? s).map timestamp
  | _, _ => none

/-- Brings a value into a kind; a failure names the path the value stands at. -/
def coerce (v : Value) (k : Kind) (path : String) : Except CallError Value :=
  match coerce? k v with
  | some w => .ok w
  | none => .error (.convert path (.kind k) v.kindName)

end Value

end StoredCall
