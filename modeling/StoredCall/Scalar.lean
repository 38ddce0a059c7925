import StoredCall.Text.Blank
import StoredCall.Text.Split

/-!
# Scalar types

A scalar is a database type without parts: its name, and where the catalog states them its
length, precision and scale, and the name of the type it was declared by.

* `Scalar.kind` is the class of values a scalar holds.
* `Scalar.elementDecl` (`plsql_elem_decl`) declares the elements of an array that carries the scalar
  in a block.
* `Scalar.text` is the scalar as a person writes it.
-/

namespace StoredCall

open Text

/-- The classes of values. -/
inductive Kind where
  | int | decimal | float | bool | text | bytes | timestamp | clob | blob
  deriving DecidableEq, Repr, Inhabited

/-- The kinds whose values may be too large to hold in memory. -/
def Kind.isLob : Kind → Bool
  | .clob | .blob => true
  | _ => false

/-- A scalar database type. -/
structure Scalar where
  name : String
  length : Option UInt32 := none
  precision : Option UInt8 := none
  scale : Option Int8 := none
  typeName : Option String := none
  deriving DecidableEq, Repr, Inhabited

namespace Scalar

/-- The scalar of a name, in capitals. -/
def named (name : String) : Scalar where
  name := upper name

/-- A number of few enough digits and no fraction is an integer. -/
def isIntegral (s : Scalar) : Bool :=
  match s.precision with
  | some p => 1 ≤ p && p ≤ 18 && s.scale.getD 0 == 0
  | none => false

/-- The names of the integer types. -/
def integerNames : List String :=
  ["PLS_INTEGER", "BINARY_INTEGER", "SIMPLE_INTEGER", "INTEGER", "NATURAL", "NATURALN",
    "POSITIVE", "POSITIVEN", "SIGNTYPE"]

/-- The class of values a scalar holds. A type that is not known holds text. -/
def kind (s : Scalar) : Kind :=
  if integerNames.contains s.name then .int
  else match s.name with
    | "NUMBER" => if s.isIntegral then .int else .decimal
    | "BINARY_FLOAT" | "BINARY_DOUBLE" | "FLOAT" => .float
    | "BOOLEAN" | "PL/SQL BOOLEAN" => .bool
    | "DATE" => .timestamp
    | "CLOB" | "NCLOB" => .clob
    | "BLOB" | "BFILE" => .blob
    | "RAW" | "LONG RAW" => .bytes
    | name => if (dropStart? "TIMESTAMP".toList name.toList).isSome then .timestamp else .text

/-- An object type whose parts the catalog rows do not list. -/
def isUnexpanded (s : Scalar) : Bool :=
  s.name = "OBJECT"

/-- A type name with its size in brackets. -/
def sized (name : String) (size : UInt32) : String :=
  name ++ "(" ++ toString size.toNat ++ ")"

/-- The declared length, when it is not zero. -/
def givenLength (s : Scalar) : Option UInt32 :=
  s.length.filter (0 < ·)

/-- How a block declares the elements of an array that carries the scalar. -/
def elementDecl (s : Scalar) : String :=
  match s.kind with
  | .int | .decimal => "NUMBER"
  | .float => s.name
  | .bool => "BOOLEAN"
  | .timestamp => if s.name = "DATE" then "DATE" else "TIMESTAMP"
  | .clob => "CLOB"
  | .blob => "BLOB"
  | .bytes => sized "RAW" (s.length.getD 2000)
  | .text =>
    sized (if s.name = "NVARCHAR2" || s.name = "NCHAR" then "NVARCHAR2" else "VARCHAR2")
      (s.givenLength.getD 32767)

/-- The scalar as a person writes it: the declared name, or the base type with its size. -/
def text (s : Scalar) : String :=
  match s.typeName with
  | some name => name
  | none =>
    match s.precision, s.scale with
    | some p, some q =>
      if q ≠ 0 then s.name ++ "(" ++ toString p.toNat ++ "," ++ toString q.toInt ++ ")"
      else s.name ++ "(" ++ toString p.toNat ++ ")"
    | some p, none => s.name ++ "(" ++ toString p.toNat ++ ")"
    | none, _ =>
      match s.givenLength with
      | some l => sized s.name l
      | none => s.name

end Scalar

/-- How a collection is indexed; one without an index kind is a nested table. -/
inductive IndexBy where
  | integer
  deriving DecidableEq, Repr

/-- What a field or an element is made of: a scalar, or the type stored under a key. -/
inductive TypeRef where
  | scalar (s : Scalar)
  | named (key : String)
  deriving DecidableEq, Repr

/-- A field of a record type. -/
structure Field where
  name : String
  type : TypeRef
  deriving DecidableEq, Repr

/-- The definition of a named type. -/
inductive TypeDef where
  | scalar (s : Scalar)
  | record (fields : List Field)
  | collection (elem : TypeRef) (indexBy : Option IndexBy)
  deriving DecidableEq, Repr

/-- The word for the form of a definition. -/
def TypeDef.kindName : TypeDef → String
  | .scalar _ => "scalar"
  | .record _ => "record"
  | .collection .. => "collection"

/-- The references a definition makes. -/
def TypeDef.refs : TypeDef → List TypeRef
  | .scalar _ => []
  | .record fields => fields.map Field.type
  | .collection elem _ => [elem]

end StoredCall
