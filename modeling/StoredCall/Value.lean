import StoredCall.Number.Shortest
import StoredCall.Path
import StoredCall.Timestamp

/-!
# Values

Requests and responses are trees of values. An object keeps its fields in the order they were
added and may hold a name twice, in which case the first one is meant. A large object of text or
bytes may have been spilled to a file, and then the tree holds the file.

* `Value.lookup` and `Value.set` read and write the part at a path of fields.
* `Value.column` and `Value.setColumn` (`set_column`) read and write one part of every element of a
  list.
* `Value.same` is equality of values, with numbers compared as numbers.
-/

namespace StoredCall

/-- A large object kept in a file: what the file holds, and the length noted when it was
written. -/
structure Spilled where
  content : List UInt8
  length : Nat
  deriving DecidableEq, Repr

/-- A value of a request or a response. -/
inductive Value where
  | null
  | bool (b : Bool)
  | int (i : Int64)
  | float (x : Binary64)
  | decimal (text : String)
  | text (s : String)
  | bytes (b : List UInt8)
  | timestamp (t : Timestamp)
  | spilled (lob : Spilled)
  | object (fields : List (String × Value))
  | list (items : List Value)
  deriving Repr, Inhabited

namespace Value

/-- The word for the form of a value. -/
def kindName : Value → String
  | null => "null"
  | bool _ => "bool"
  | int _ => "integer"
  | float _ => "float"
  | decimal _ => "decimal"
  | text _ => "text"
  | bytes _ => "bytes"
  | timestamp _ => "timestamp"
  | spilled _ => "spilled lob"
  | object _ => "object"
  | list _ => "list"

/-- The absent value. -/
def isNull : Value → Bool
  | null => true
  | _ => false

/-- The fields of an object; any other value has none. -/
def fields : Value → List (String × Value)
  | object fs => fs
  | _ => []

/-! ## Reading -/

/-- The first field of a name. -/
def get? (v : Value) (name : String) : Option Value :=
  v.fields.lookup name

/-- The part at a path of fields. There is none at a path through every element. -/
def lookup (v : Value) : Path → Option Value
  | [] => some v
  | .field name :: rest =>
    match v.get? name with
    | some w => w.lookup rest
    | none => none
  | .each :: _ => none

/-- One part of every element of a list, null where an element lacks it. A list that is absent
has no elements, and another value is no list. -/
def column (v : Value) (p : Path) : Option (List Value) :=
  match p.splitEach with
  | none => none
  | some (path, inner) =>
    match v.lookup path with
    | none | some null => some []
    | some (list items) => some (items.map fun item => (item.lookup inner).getD null)
    | some _ => none

/-! ## Writing -/

/-- Changes the first field of a name, which is added as null when there is none. -/
def updateField (name : String) (f : Value → Value) : List (String × Value) → List (String × Value)
  | [] => [(name, f null)]
  | (key, w) :: rest =>
    if key = name then (key, f w) :: rest else (key, w) :: updateField name f rest

/-- Changes the part at a path of fields. Values on the way that are no objects become objects,
and the path ends at its first step through every element. -/
def update (f : Value → Value) : Path → Value → Value
  | .field name :: rest, v => object (updateField name (update f rest) v.fields)
  | [], v => f v
  | .each :: _, v => f v

/-- Puts a value at a path of fields. -/
def set (v : Value) (p : Path) (x : Value) : Value :=
  v.update (fun _ => x) p

/-- Puts a value into a field. -/
def withField (v : Value) (name : String) (x : Value) : Value :=
  v.set [.field name] x

/-- The elements of a list; any other value has none. -/
def items : Value → List Value
  | list xs => xs
  | _ => []

/-- Puts one value into each element in turn; elements that are missing are made. -/
def setEach (inner : Path) : List Value → List Value → List Value
  | items, [] => items
  | [], x :: xs => null.set inner x :: setEach inner [] xs
  | item :: items, x :: xs => item.set inner x :: setEach inner items xs

/-- Puts a list of values into one part of every element of the list at a path. A path that does
not go through every element gets the list itself. -/
def setColumn (v : Value) (p : Path) (xs : List Value) : Value :=
  match p.splitEach with
  | none => v.set p (list xs)
  | some (path, inner) => v.update (fun w => list (setEach inner w.items xs)) path

/-! ## Comparing -/

mutual

/-- Equality of values, with numbers compared as numbers. -/
def same : Value → Value → Bool
  | null, null => true
  | bool a, bool b => a == b
  | int a, int b => a == b
  | float a, float b => a.same b
  | decimal a, decimal b => a == b
  | text a, text b => a == b
  | bytes a, bytes b => a == b
  | timestamp a, timestamp b => a == b
  | spilled a, spilled b => a == b
  | object a, object b => sameFields a b
  | list a, list b => sameItems a b
  | _, _ => false

/-- Equality of elements, in order. -/
def sameItems : List Value → List Value → Bool
  | [], [] => true
  | a :: as, b :: bs => same a b && sameItems as bs
  | _, _ => false

/-- Equality of fields, in order. -/
def sameFields : List (String × Value) → List (String × Value) → Bool
  | [], [] => true
  | (k, a) :: as, (l, b) :: bs => k == l && same a b && sameFields as bs
  | _, _ => false

end

end Value

end StoredCall
