import StoredCall.Number.Shortest

/-!
# JSON values

The tree of a JSON text. Fields stand in the order of the text and a name may stand twice; who
reads an object decides what that means.

* `Json.Num` keeps integers that fit a word exact, and everything else as a double.
* `Json.compact` writes without white space, `Json.pretty` with two blanks a level.
-/

namespace StoredCall

open Number

/-- A number of a JSON text. -/
inductive Json.Num where
  | int (i : Int)
  | float (x : Binary64)
  deriving DecidableEq, Repr

/-- A JSON value. -/
inductive Json where
  | null
  | bool (b : Bool)
  | number (n : Json.Num)
  | string (s : String)
  | array (items : List Json)
  | object (fields : List (String × Json))
  deriving Repr, Inhabited

namespace Json

/-- Numbers keep a point, and have an exponent below `10 ^ -5` and from `10 ^ 16` on. -/
def layout : Layout where
  tie := .toEven
  isPlain := fun e => -5 ≤ e && e ≤ 15
  keepsPoint := true

/-- The text of a number. What is no finite number has none and is written as null. -/
def Num.text : Num → String
  | .int i => toString i
  | .float x => if x.isFinite then layout.write x else "null"

/-! ## Strings -/

/-- A hexadecimal digit. -/
def hexDigit (n : Nat) : Char := (Nat.digitChar (n % 16))

/-- How a character stands between quotes. -/
def escapeChar (c : Char) : List Char :=
  if c = '"' then ['\\', '"']
  else if c = '\\' then ['\\', '\\']
  else if c = '\x08' then ['\\', 'b']
  else if c = '\x0c' then ['\\', 'f']
  else if c = '\n' then ['\\', 'n']
  else if c = '\r' then ['\\', 'r']
  else if c = '\t' then ['\\', 't']
  else if c.toNat < 0x20 then
    ['\\', 'u', '0', '0', hexDigit (c.toNat / 16), hexDigit c.toNat]
  else [c]

/-- The characters of a text between quotes. -/
def stringChars (s : String) : List Char :=
  '"' :: (s.toList.flatMap escapeChar ++ ['"'])

/-! ## Writing -/

/-- The characters of an array, given those of its elements. -/
def bracket (left right : Char) (parts : List (List Char)) : List Char :=
  left :: (List.intercalate [','] parts ++ [right])

mutual

/-- The text of a value without white space. -/
def chars : Json → List Char
  | null => "null".toList
  | bool true => "true".toList
  | bool false => "false".toList
  | number n => n.text.toList
  | string s => stringChars s
  | array items => bracket '[' ']' (itemChars items)
  | object fields => bracket '\x7b' '\x7d' (fieldChars fields)

/-- The texts of elements. -/
def itemChars : List Json → List (List Char)
  | [] => []
  | j :: rest => chars j :: itemChars rest

/-- The texts of fields. -/
def fieldChars : List (String × Json) → List (List Char)
  | [] => []
  | (k, j) :: rest => (stringChars k ++ ':' :: chars j) :: fieldChars rest

end

@[inherit_doc chars]
def compact (j : Json) : String := String.ofList j.chars

/-- A line break and the blanks of a level. -/
def newline (level : Nat) : List Char :=
  '\n' :: List.replicate (2 * level) ' '

/-- Parts on lines of their own, one level further in; no parts take no lines. -/
def block (left right : Char) (level : Nat) (parts : List (List Char)) : List Char :=
  if parts.isEmpty then [left, right]
  else
    left :: (List.intercalate [','] (parts.map (newline (level + 1) ++ ·))
      ++ newline level ++ [right])

mutual

/-- The text of a value at a level, one element or field a line. -/
def prettyChars (level : Nat) : Json → List Char
  | null => "null".toList
  | bool true => "true".toList
  | bool false => "false".toList
  | number n => n.text.toList
  | string s => stringChars s
  | array items => block '[' ']' level (prettyItems (level + 1) items)
  | object fields => block '\x7b' '\x7d' level (prettyFields (level + 1) fields)

/-- The texts of elements at a level. -/
def prettyItems (level : Nat) : List Json → List (List Char)
  | [] => []
  | j :: rest => prettyChars level j :: prettyItems level rest

/-- The texts of fields at a level. -/
def prettyFields (level : Nat) : List (String × Json) → List (List Char)
  | [] => []
  | (k, j) :: rest =>
    (stringChars k ++ ':' :: ' ' :: prettyChars level j) :: prettyFields level rest

end

/-- The text of a value with one element or field a line. -/
def pretty (j : Json) : String := String.ofList (j.prettyChars 0)

end Json

end StoredCall
