import StoredCall.Assoc
import StoredCall.Catalog.Row

/-!
# Subprograms from catalog rows

The rows of a subprogram list its arguments and their parts in preorder, each with its level. A row
belongs to the composite that is open one level above it, and a row of a record or a table opens a
level of its own. The row at level zero without a name is the return value.

* `Selection` says which subprograms are wanted.
* `Draft` is what the rows so far amount to; `Draft.add` (`attach`) takes one more row.
* `Subprogram.ofRows` (`build_one`) builds one subprogram, `Subprogram.groups` finds the rows of
  each.
-/

namespace StoredCall

open Text

/-! ## Selection -/

/-- Which subprograms are wanted. An entry is a package, a name or both with a dot. -/
structure Selection where
  only : List String := []
  skip : List String := []
  deriving Repr

namespace Selection

/-- The selection by entries in any case, with blanks around them. -/
def of (only skip : List String) : Selection where
  only := only.map fun s => upper (trim s)
  skip := skip.map fun s => upper (trim s)

/-- Whether one of the entries is about a subprogram. -/
def hits (entries : List String) (package object : String) : Bool :=
  entries.any fun e => e = package ++ "." ++ object ∨ e = object ∨ e = package

/-- Whether a subprogram is wanted. -/
def accepts (s : Selection) (package object : String) : Bool :=
  let package := upper package
  let object := upper object
  (s.only.isEmpty || hits s.only package object) && !hits s.skip package object

end Selection

/-! ## Rows to trees -/

/-- The shape that has the form of another and the given parts. -/
def Shape.withParts (parts : List Argument) : Shape → Shape
  | .scalar s => .scalar s
  | .record typeName _ => .record typeName parts
  | .table typeName _ nested cursor => .table typeName parts.head? nested cursor

/-- The shape of a row, without parts. -/
def ArgRow.shape (r : ArgRow) : Shape :=
  let dataType := upper (trim r.dataType)
  match Flavor.ofDataType dataType with
  | .simple => .scalar r.scalar
  | .record => .record r.typeReference []
  | .table =>
    .table r.typeReference none (dataType = "TABLE" || dataType = "VARRAY")
      (dataType = "REF CURSOR")

/-- The argument of a row, without parts. -/
def ArgRow.toArgument (r : ArgRow) : Except Error Argument := do
  let direction ← r.direction
  return { name := r.argument, position := r.position, direction, shape := r.shape }

/-- A row that only says that there are no arguments. -/
def ArgRow.isPlaceholder (r : ArgRow) : Bool :=
  isBlankText r.dataType

/-- A record or table that can still take parts. -/
structure Frame where
  head : Argument
  parts : List Argument := []

/-- The argument that a frame stands for. -/
def Frame.close (f : Frame) : Argument :=
  { f.head with shape := f.head.shape.withParts f.parts }

/-- What the rows so far amount to: what is finished at the top, and the open composites, the
innermost first. -/
structure Draft where
  args : List Argument := []
  returns : Option Argument := none
  opened : List Frame := []

namespace Draft

/-- Puts a finished argument where it belongs. -/
def place (d : Draft) (a : Argument) : Draft :=
  match d.opened with
  | [] => if a.name = "" then { d with returns := some a } else { d with args := d.args ++ [a] }
  | f :: rest => { d with opened := { f with parts := f.parts ++ [a] } :: rest }

/-- Closes the innermost composite. -/
def close (d : Draft) : Draft :=
  match d.opened with
  | [] => d
  | f :: rest => { d with opened := rest }.place f.close

/-- Closes composites, a given number of them. -/
def closeMany : Nat → Draft → Draft
  | 0, d => d
  | n + 1, d => closeMany n d.close

/-- Closes composites until `level` are open. -/
def closeTo (d : Draft) (level : Nat) : Draft :=
  closeMany (d.opened.length - level) d

/-- Whether an argument may come next: there is one return value, and one element to a table. -/
def admits (d : Draft) (label : String) (a : Argument) : Except Error Unit :=
  match d.opened with
  | [] =>
    if a.name = "" ∧ d.returns.isSome then .error (.inconsistent (.secondReturn label)) else .ok ()
  | f :: _ =>
    match f.head.shape, f.parts with
    | .table .., _ :: _ => .error (.inconsistent (.secondElement label f.head.name))
    | _, _ => .ok ()

/-- Takes one more row. -/
def add (label : String) (d : Draft) (r : ArgRow) : Except Error Draft :=
  if r.isPlaceholder then .ok d
  else if d.opened.length < r.level.toNat then
    .error (.inconsistent (.noOpenParent label r.argument r.level.toNat))
  else do
    let d := d.closeTo r.level.toNat
    let a ← r.toArgument
    d.admits label a
    if a.flavor = .simple then return d.place a
    else return { d with opened := { head := a } :: d.opened }

/-- Takes rows in turn. -/
def addAll (label : String) (d : Draft) (rows : List ArgRow) : Except Error Draft :=
  rows.foldlM (add label) d

end Draft

namespace Subprogram

/-- Package, name and overload number, which tell subprograms apart. -/
abbrev Key := String × String × Option UInt32

/-- The subprogram of a key with the arguments that its rows describe. -/
def ofRows (key : Key) (rows : List ArgRow) : Except Error Subprogram := do
  let (package, name, overload) := key
  let d := (← Draft.addAll (package ++ "." ++ name) {} rows).closeTo 0
  return { package, name, overload, args := d.args, returns := d.returns }

/-- Rows by their sequence numbers, if all have one, else as they are. -/
def inSequence (rows : List ArgRow) : List ArgRow :=
  if rows.all fun r => r.sequence.isSome then
    rows.mergeSort fun a b => a.sequence.getD 0 ≤ b.sequence.getD 0
  else rows

/-- The rows of each wanted subprogram, in the order to build it from. -/
def groups (wanted : Selection) (rows : List ArgRow) : List (Key × List ArgRow) :=
  let visible := rows.filter fun r => !r.isHidden && wanted.accepts r.package r.object
  (Assoc.group ArgRow.key visible).map fun (key, rows) => (key, inSequence rows)

/-- The wanted subprograms that rows describe. -/
def allOfRows (wanted : Selection) (rows : List ArgRow) : Except Error (List Subprogram) :=
  (groups wanted rows).mapM fun (key, rows) => ofRows key rows

end Subprogram

end StoredCall
