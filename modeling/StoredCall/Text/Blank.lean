/-!
# White space

Catalog extracts, directives and requests are trimmed by the Unicode property White_Space. The
class and the trimming functions work on `List Char`; `trim` is the form on `String`.

* `isBlank` is the property itself, 25 code points.
* `stripStart`, `stripEnd` and `strip` drop a class of characters from the ends of a text.
-/

namespace StoredCall.Text

/-- The Unicode property White_Space. -/
def isBlank (c : Char) : Bool :=
  let n := c.toNat
  (9 ≤ n && n ≤ 13) || n == 0x20 || n == 0x85 || n == 0xA0 || n == 0x1680
    || (0x2000 ≤ n && n ≤ 0x200A) || n == 0x2028 || n == 0x2029 || n == 0x202F
    || n == 0x205F || n == 0x3000

/-- The four characters that a document of markup or a data file counts as space. -/
def isSpace (c : Char) : Bool :=
  c == ' ' || c == '\t' || c == '\n' || c == '\r'

/-- Drops the leading characters of a class. -/
def stripStart (p : Char → Bool) (cs : List Char) : List Char :=
  cs.dropWhile p

/-- Drops the trailing characters of a class. -/
def stripEnd (p : Char → Bool) (cs : List Char) : List Char :=
  (cs.reverse.dropWhile p).reverse

/-- Drops the characters of a class at both ends. -/
def strip (p : Char → Bool) (cs : List Char) : List Char :=
  stripEnd p (stripStart p cs)

/-- The text without white space at its ends. -/
def trim (s : String) : String :=
  String.ofList (strip isBlank s.toList)

/-- A text that holds nothing but white space. -/
def isBlankText (s : String) : Bool :=
  s.toList.all isBlank

/-- Capital letters for the letters a to z; every other character stays. -/
def upper (s : String) : String :=
  String.ofList (s.toList.map Char.toUpper)

/-- Small letters for the letters A to Z; every other character stays. -/
def lower (s : String) : String :=
  String.ofList (s.toList.map Char.toLower)

end StoredCall.Text
