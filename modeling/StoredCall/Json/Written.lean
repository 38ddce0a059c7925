import StoredCall.Json

/-!
# JSON as it is written

A text can follow the grammar of JSON and still stand for no value: a number may be beyond the
doubles, and a string may hold half of a pair of code units. Who passes over a part of a text does
not care.

* `Json.Written` is the tree of a text that follows the grammar.
* `Json.Written.json?` is the value it stands for, if it stands for one.
-/

namespace StoredCall.Json

/-- A text that follows the grammar. -/
inductive Written where
  | null
  | bool (b : Bool)
  /-- A number, unless it is beyond the doubles. -/
  | number (n : Option Num)
  /-- A string, unless its escapes stand for no characters. -/
  | string (s : Option String)
  | array (items : List Written)
  | object (fields : List (Option String × Written))
  deriving Repr, Inhabited

namespace Written

mutual

/-- The value that a text stands for. -/
def json? : Written → Option Json
  | null => some .null
  | bool b => some (.bool b)
  | number n => n.map .number
  | string s => s.map .string
  | array items => (items? items).map .array
  | object fields => (fields? fields).map .object

/-- The values of elements. -/
def items? : List Written → Option (List Json)
  | [] => some []
  | w :: rest =>
    match json? w, items? rest with
    | some j, some js => some (j :: js)
    | _, _ => none

/-- The names and values of fields. -/
def fields? : List (Option String × Written) → Option (List (String × Json))
  | [] => some []
  | (name, w) :: rest =>
    match name, json? w, fields? rest with
    | some name, some j, some js => some ((name, j) :: js)
    | _, _, _ => none

end

end Written

end StoredCall.Json
