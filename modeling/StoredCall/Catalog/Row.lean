import StoredCall.Csv
import StoredCall.Name
import StoredCall.Subprogram

/-!
# Catalog rows

Two extracts of the data dictionary. Argument rows list the arguments of subprograms and their
parts in preorder, each with its level. Type rows list the attributes, elements and columns of
named types.

* `ArgRow` and `TypeRow` are the rows, `ArgRow.readAll` (`read_arg_rows`) and `TypeRow.readAll`
  (`read_type_rows`) read extracts.
* `ArgRow.scalar` and `TypeRow.attr` say which type a row refers to.
-/

namespace StoredCall

open Text Csv

/-! ## Cells by name -/

/-- The text under a column, empty where the column is missing. -/
def textAt (row : List (String × Cell)) (name : String) : String :=
  match row.lookup name with
  | some (.text s) => s
  | _ => ""

/-- The number under a column. -/
def numberAt? (row : List (String × Cell)) (name : String) : Option Int :=
  match row.lookup name with
  | some (.number n) => n
  | _ => none

/-- A column of words of 32 bits. -/
def word32 (optional : Bool) : Content := .number 0 4294967295 optional

/-- A column of bytes. -/
def word8 (optional : Bool) : Content := .number 0 255 optional

/-- A column of signed bytes. -/
def signed8 : Content := .number (-128) 127 true

/-- A scalar as the catalog describes it: a length of zero is none, and a precision without a
scale has scale zero. -/
def catalogScalar (name : String) (length : Option UInt32) (precision : Option UInt8)
    (scale : Option Int8) (typeName : Option String) : Scalar where
  name := upper name
  length := length.filter (0 < ·)
  precision := precision
  scale := precision.map fun _ => scale.getD 0
  typeName := typeName

/-! ## Arguments -/

/-- A row of the extract of arguments. -/
structure ArgRow where
  package : String := ""
  object : String
  overload : Option UInt32 := none
  level : UInt8 := 0
  position : UInt32 := 0
  sequence : Option UInt32 := none
  argument : String := ""
  inOut : String := ""
  dataType : String := ""
  precision : Option UInt8 := none
  scale : Option Int8 := none
  charLength : Option UInt32 := none
  typeOwner : String := ""
  typeName : String := ""
  typeSubname : String := ""
  plsType : String := ""
  deriving DecidableEq, Repr

namespace ArgRow

/-- The columns of the extract. -/
def columns : List Csv.Column := [
  { name := "PACKAGE_NAME", aka := ["PACKAGE"] },
  { name := "OBJECT_NAME", aka := ["OBJECT"], required := true },
  { name := "OVERLOAD", content := word32 true },
  { name := "DATA_LEVEL", aka := ["LEVEL"], content := word8 false },
  { name := "POSITION", content := word32 false },
  { name := "SEQUENCE", content := word32 true },
  { name := "ARGUMENT_NAME" },
  { name := "IN_OUT" },
  { name := "DATA_TYPE" },
  { name := "DATA_PRECISION", content := word8 true },
  { name := "DATA_SCALE", content := signed8 },
  { name := "CHAR_LENGTH", aka := ["DATA_LENGTH"], content := word32 true },
  { name := "TYPE_OWNER" },
  { name := "TYPE_NAME" },
  { name := "TYPE_SUBNAME" },
  { name := "PLS_TYPE" }]

/-- The row that has the given cells. -/
def ofCells (row : List (String × Cell)) : ArgRow where
  package := textAt row "PACKAGE_NAME"
  object := textAt row "OBJECT_NAME"
  overload := (numberAt? row "OVERLOAD").map fun n => n.toNat.toUInt32
  level := ((numberAt? row "DATA_LEVEL").getD 0).toNat.toUInt8
  position := ((numberAt? row "POSITION").getD 0).toNat.toUInt32
  sequence := (numberAt? row "SEQUENCE").map fun n => n.toNat.toUInt32
  argument := textAt row "ARGUMENT_NAME"
  inOut := textAt row "IN_OUT"
  dataType := textAt row "DATA_TYPE"
  precision := (numberAt? row "DATA_PRECISION").map fun n => n.toNat.toUInt8
  scale := (numberAt? row "DATA_SCALE").map fun n => n.toInt8
  charLength := (numberAt? row "CHAR_LENGTH").map fun n => n.toNat.toUInt32
  typeOwner := textAt row "TYPE_OWNER"
  typeName := textAt row "TYPE_NAME"
  typeSubname := textAt row "TYPE_SUBNAME"
  plsType := textAt row "PLS_TYPE"

/-- Reads an extract. -/
def readAll (text : String) : Except Error (List ArgRow) := do
  return (← readTable columns text).map ofCells

/-- A row of a subprogram that is not for callers. -/
def isHidden (r : ArgRow) : Bool :=
  r.object.toList.getLast? = some '#'

/-- Package, name and overload number, which tell subprograms apart. -/
def key (r : ArgRow) : String × String × Option UInt32 :=
  (upper r.package, upper r.object, r.overload)

/-- The direction of the argument. -/
def direction (r : ArgRow) : Except Error Direction :=
  (Direction.parse r.inOut).mapError fun e =>
    .inconsistent (.badDirection r.package r.object r.argument e)

/-- The reference to the argument's declared type. -/
def typeReference (r : ArgRow) : Option String :=
  if r.typeName = "" then none
  else some (join "." ([r.typeOwner, r.typeName, r.typeSubname].filter (· ≠ "")))

/-- The scalar type of the argument. -/
def scalar (r : ArgRow) : Scalar :=
  catalogScalar (if r.plsType = "" then r.dataType else r.plsType) r.charLength r.precision
    r.scale r.typeReference

end ArgRow

/-! ## Types -/

/-- What an attribute, an element or a column is made of. -/
inductive AttributeType where
  | scalar (s : Scalar)
  | named (name : QName)
  deriving DecidableEq, Repr

/-- An attribute of a record or object, the element of a collection or a column of a table. -/
structure Attribute where
  name : String
  type : AttributeType
  deriving DecidableEq, Repr

/-- The key of the type an attribute refers to. -/
def Attribute.key? (a : Attribute) : Option String :=
  match a.type with
  | .scalar _ => none
  | .named q => some q.key

/-- A row of the extract of types. -/
structure TypeRow where
  owner : String := ""
  package : String := ""
  name : String
  typecode : String
  indexBy : String := ""
  position : Option UInt32 := none
  attrName : String := ""
  attrOwner : String := ""
  attrPackage : String := ""
  attrType : String := ""
  charLength : Option UInt32 := none
  precision : Option UInt8 := none
  scale : Option Int8 := none
  deriving DecidableEq, Repr

namespace TypeRow

/-- The columns of the extract. -/
def columns : List Csv.Column := [
  { name := "OWNER" },
  { name := "PACKAGE_NAME", aka := ["PACKAGE"] },
  { name := "TYPE_NAME", aka := ["TABLE_NAME"], required := true },
  { name := "TYPECODE", required := true },
  { name := "INDEX_BY" },
  { name := "POSITION", aka := ["ATTR_NO"], content := word32 true },
  { name := "ATTR_NAME", aka := ["COLUMN_NAME"] },
  { name := "ATTR_TYPE_OWNER" },
  { name := "ATTR_TYPE_PACKAGE" },
  { name := "ATTR_TYPE_NAME", aka := ["DATA_TYPE"] },
  { name := "CHAR_LENGTH", aka := ["LENGTH"], content := word32 true },
  { name := "DATA_PRECISION", aka := ["PRECISION"], content := word8 true },
  { name := "DATA_SCALE", aka := ["SCALE"], content := signed8 }]

/-- The row that has the given cells. -/
def ofCells (row : List (String × Cell)) : TypeRow where
  owner := textAt row "OWNER"
  package := textAt row "PACKAGE_NAME"
  name := textAt row "TYPE_NAME"
  typecode := textAt row "TYPECODE"
  indexBy := textAt row "INDEX_BY"
  position := (numberAt? row "POSITION").map fun n => n.toNat.toUInt32
  attrName := textAt row "ATTR_NAME"
  attrOwner := textAt row "ATTR_TYPE_OWNER"
  attrPackage := textAt row "ATTR_TYPE_PACKAGE"
  attrType := textAt row "ATTR_TYPE_NAME"
  charLength := (numberAt? row "CHAR_LENGTH").map fun n => n.toNat.toUInt32
  precision := (numberAt? row "DATA_PRECISION").map fun n => n.toNat.toUInt8
  scale := (numberAt? row "DATA_SCALE").map fun n => n.toInt8

/-- Reads an extract. -/
def readAll (text : String) : Except Error (List TypeRow) := do
  return (← readTable columns text).map ofCells

/-- A text, or another where it is empty. -/
def orElse (s dflt : String) : String := if s = "" then dflt else s

/-- The type that the row is about. -/
def qname (r : TypeRow) (defaultOwner : String) : QName :=
  let owner := orElse r.owner defaultOwner
  if upper r.typecode = "TABLE" then .ofRow owner r.name
  else .ofType owner (some r.package) r.name

/-- A row that describes an attribute. -/
def hasAttribute (r : TypeRow) : Bool := r.attrType ≠ ""

/-- The attribute that the row describes; one without owner and package is a scalar. -/
def attr (r : TypeRow) (defaultOwner : String) : Attribute :=
  if r.attrOwner = "" ∧ r.attrPackage = "" then
    ⟨r.attrName, .scalar (catalogScalar r.attrType r.charLength r.precision r.scale none)⟩
  else
    let owner := orElse r.attrOwner defaultOwner
    match dropEnd? rowMark.toList (upper r.attrType).toList with
    | some table => ⟨r.attrName, .named (.ofRow owner (String.ofList table))⟩
    | none => ⟨r.attrName, .named (.ofType owner (some r.attrPackage) r.attrType)⟩

end TypeRow

end StoredCall
