import StoredCall.Text.Unprintable

/-!
# Quoted text

Messages and generated source show a text between double quotes on one line. The quote, the
backslash, tab, line feed, carriage return and the null character have short escapes; any other
character without a visible shape is written by its number; everything else stands for itself.
-/

namespace StoredCall.Text

/-- The code point of a character in small hexadecimal digits, as `\u{…}`. -/
def numberEscape (c : Char) : List Char :=
  ['\\', 'u', '{'] ++ Nat.toDigits 16 c.toNat ++ ['}']

/-- How a character is written inside quoted text. -/
def quoteChar (c : Char) : List Char :=
  if c = '"' then ['\\', '"']
  else if c = '\\' then ['\\', '\\']
  else if c = '\n' then ['\\', 'n']
  else if c = '\r' then ['\\', 'r']
  else if c = '\t' then ['\\', 't']
  else if c = '\x00' then ['\\', '0']
  else if isUnprintable c then numberEscape c
  else [c]

/-- The text between double quotes, with escapes. -/
def quoted (s : String) : String :=
  "\"" ++ String.ofList (s.toList.flatMap quoteChar) ++ "\""

end StoredCall.Text
