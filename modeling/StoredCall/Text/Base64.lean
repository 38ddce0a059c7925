/-!
# Base64

Bytes travel in text as groups of four characters for three bytes, padded with `=`. Reading is
strict: padding must be there, and the bits that it leaves over must be zero, so each byte string
has exactly one text.
-/

namespace StoredCall.Text.Base64

/-- The 64 characters. -/
def alphabet : List Char :=
  "ABCDEFGHIJKLMNOPQRSTUVWXYZabcdefghijklmnopqrstuvwxyz0123456789+/".toList

/-- The character of six bits. -/
def charOf (n : Nat) : Char := alphabet.getD (n % 64) '='

/-- The six bits of a character. -/
def valueOf? (c : Char) : Option Nat :=
  let n := c.toNat
  if 'A'.toNat ≤ n && n ≤ 'Z'.toNat then some (n - 'A'.toNat)
  else if 'a'.toNat ≤ n && n ≤ 'z'.toNat then some (n - 'a'.toNat + 26)
  else if '0'.toNat ≤ n && n ≤ '9'.toNat then some (n - '0'.toNat + 52)
  else if c == '+' then some 62
  else if c == '/' then some 63
  else none

/-- The text of a byte string. -/
def encode : List UInt8 → List Char
  | [] => []
  | [a] =>
    let n := a.toNat
    [charOf (n / 4), charOf (n % 4 * 16), '=', '=']
  | [a, b] =>
    let n := a.toNat * 256 + b.toNat
    [charOf (n / 1024), charOf (n / 16), charOf (n % 16 * 4), '=']
  | a :: b :: c :: rest =>
    let n := (a.toNat * 256 + b.toNat) * 256 + c.toNat
    charOf (n / 262144) :: charOf (n / 4096) :: charOf (n / 64) :: charOf n :: encode rest

/-- The bytes of two characters before two marks of padding. -/
def decodeOne? (a b : Char) : Option (List UInt8) := do
  let n := (← valueOf? a) * 64 + (← valueOf? b)
  if n % 16 = 0 then return [UInt8.ofNat (n / 16)] else none

/-- The bytes of three characters before one mark of padding. -/
def decodeTwo? (a b c : Char) : Option (List UInt8) := do
  let n := ((← valueOf? a) * 64 + (← valueOf? b)) * 64 + (← valueOf? c)
  if n % 4 = 0 then return [UInt8.ofNat (n / 1024), UInt8.ofNat (n / 4)] else none

/-- The bytes of four characters. -/
def decodeThree? (a b c d : Char) : Option (List UInt8) := do
  let n := (((← valueOf? a) * 64 + (← valueOf? b)) * 64 + (← valueOf? c)) * 64 + (← valueOf? d)
  return [UInt8.ofNat (n / 65536), UInt8.ofNat (n / 256), UInt8.ofNat n]

/-- The byte string of a text. -/
def decode? : List Char → Option (List UInt8)
  | [] => some []
  | [a, b, '=', '='] => decodeOne? a b
  | [a, b, c, '='] => decodeTwo? a b c
  | a :: b :: c :: d :: rest => do
    let bytes ← decodeThree? a b c d
    let more ← decode? rest
    return bytes ++ more
  | _ => none

end StoredCall.Text.Base64
