import StoredCall.Scalar
import StoredCall.Text.Distinct
import StoredCall.Text.Quoted

/-!
# Stored subprograms

A subprogram is a procedure or function of a package. Its arguments are trees: scalars, records
of fields, and tables of one element, where a cursor is a table that is read row by row.

* `Argument` and `Shape` are the trees; `Argument.listing` (`flatten`) walks one in preorder.
* `Subprogram.argFields` and `Subprogram.retField` (`field_names`) are the field names of the
  arguments and of the return value, pairwise different.
* `Subprogram.ident` is the entry point's name in generated text.
-/

namespace StoredCall

open Text

/-- Which way an argument's value goes. -/
inductive Direction where
  | input | output | both
  deriving DecidableEq, Repr, Inhabited

namespace Direction

/-- The value goes into the call. -/
def isInput : Direction → Bool
  | .input | .both => true
  | .output => false

/-- The value comes out of the call. -/
def isOutput : Direction → Bool
  | .output | .both => true
  | .input => false

/-- The words of the catalog for a direction. -/
def text : Direction → String
  | .input => "IN"
  | .output => "OUT"
  | .both => "IN/OUT"

/-- A text that is no direction, in capitals. -/
structure Unknown where
  text : String
  deriving DecidableEq, Repr

/-- What is said about a text that is no direction. -/
def Unknown.message (e : Unknown) : String :=
  "unknown argument direction: " ++ quoted e.text

/-- Reads a direction; no text means input. -/
def parse (s : String) : Except Unknown Direction :=
  match upper (trim s) with
  | "" | "IN" => .ok .input
  | "OUT" => .ok .output
  | "IN/OUT" | "IN OUT" | "INOUT" => .ok .both
  | other => .error ⟨other⟩

end Direction

/-- The three forms of an argument. -/
inductive Flavor where
  | simple | record | table
  deriving DecidableEq, Repr

/-- The form that a catalog's data type stands for. -/
def Flavor.ofDataType (s : String) : Flavor :=
  match upper (trim s) with
  | "PL/SQL RECORD" => .record
  | "TABLE" | "PL/SQL TABLE" | "REF CURSOR" | "VARRAY" => .table
  | _ => .simple

mutual

/-- What an argument is made of. -/
inductive Shape where
  | scalar (s : Scalar)
  | record (typeName : Option String) (fields : List Argument)
  | table (typeName : Option String) (elem : Option Argument) (nested cursor : Bool)
  deriving Repr

/-- An argument, a field of a record or the element of a table. -/
structure Argument where
  name : String
  position : UInt32 := 0
  direction : Direction
  shape : Shape
  deriving Repr

end

instance : Inhabited Shape := ⟨.scalar default⟩

instance : Inhabited Argument := ⟨{ name := "", direction := .input, shape := default }⟩

/-- The form of a shape. -/
def Shape.flavor : Shape → Flavor
  | .scalar _ => .simple
  | .record .. => .record
  | .table .. => .table

/-- The name of the type a shape was declared by. -/
def Shape.typeName : Shape → Option String
  | .scalar s => s.typeName
  | .record name _ => name
  | .table name .. => name

/-- The parts of a shape: the fields of a record, or the element of a table. -/
def Shape.parts : Shape → List Argument
  | .scalar _ => []
  | .record _ fields => fields
  | .table _ elem _ _ => elem.toList

/-- A table that is read row by row. -/
def Shape.isCursor : Shape → Bool
  | .table _ _ _ cursor => cursor
  | _ => false

namespace Argument

/-- The form of an argument. -/
def flavor (a : Argument) : Flavor := a.shape.flavor

/-- A table that is read row by row. -/
def isCursor (a : Argument) : Bool := a.shape.isCursor

end Argument

mutual

/-- Level and position of an argument and of all its parts, in preorder. -/
def Argument.listing (level : Nat) : Argument → List (Nat × UInt32)
  | ⟨_, position, _, shape⟩ => (level, position) :: shape.listing (level + 1)

/-- Level and position of the parts of a shape, in preorder. -/
def Shape.listing (level : Nat) : Shape → List (Nat × UInt32)
  | .scalar _ => []
  | .record _ fields => listingAll level fields
  | .table _ elem _ _ => listingElem level elem

/-- Level and position of siblings and of their parts, in preorder. -/
def listingAll (level : Nat) : List Argument → List (Nat × UInt32)
  | [] => []
  | a :: rest => a.listing level ++ listingAll level rest

/-- Level and position of a table's element and of its parts, in preorder. -/
def listingElem (level : Nat) : Option Argument → List (Nat × UInt32)
  | none => []
  | some a => a.listing level

end

/-- The formats of a document that stands for a whole request or response. -/
inductive BlobFormat where
  | json | xml
  deriving DecidableEq, Repr

mutual

/-- A procedure or function of a package, or a standalone one when the package is empty. -/
structure Subprogram where
  package : String
  name : String
  overload : Option UInt32 := none
  givenName : Option String := none
  args : List Argument := []
  returns : Option Argument := none
  replacement : Option Replacement := none
  handles : List String := []
  tags : List String := []
  maxTableSize : Option Nat := none
  deriving Repr

/-- A subprogram that is called instead, with one document in and one out. -/
structure Replacement where
  subprogram : Subprogram
  format : BlobFormat
  deriving Repr

end

namespace Subprogram

/-- The name with its package. -/
def qualifiedName (f : Subprogram) : String :=
  if f.package = "" then f.name else f.package ++ "." ++ f.name

/-- The name of the entry point in generated text. -/
def ident (f : Subprogram) : String :=
  match f.givenName, f.overload with
  | some name, _ => snake name
  | none, some n => snake f.name ++ "_" ++ toString n.toNat
  | none, none => snake f.name

/-- Whether rows come back through a cursor. -/
def streams (f : Subprogram) : Bool :=
  (f.args ++ f.returns.toList).any fun a => a.direction.isOutput && a.isCursor

/-- The field of a return value, unless an argument has taken the name. -/
def returnField : String := "ret"

/-- The field names of the arguments. -/
def argFields (f : Subprogram) : List String :=
  Text.fieldNames (f.args.map Argument.name)

/-- The field name of the return value, different from those of the arguments. -/
def retField (f : Subprogram) : Option String :=
  f.returns.map fun _ => freshName f.argFields returnField

/-- The name with package and overload number. -/
def text (f : Subprogram) : String :=
  match f.overload with
  | some n => f.qualifiedName ++ "#" ++ toString n.toNat
  | none => f.qualifiedName

/-- Level and position of every node, the return value first. -/
def listing (f : Subprogram) : List (Nat × UInt32) :=
  listingAll 0 (f.returns.toList ++ f.args)

end Subprogram

end StoredCall
