import StoredCall.Text.Blank
import StoredCall.Text.Split
import StoredCall.Text.Quoted

/-!
# Names of database types

A reference to a type may be partial: `NAME`, `PREFIX.NAME` where the prefix is an owner or a
package, `OWNER.PACKAGE.NAME`, or `[OWNER.]TABLE%ROWTYPE` for the row of a table.

* `Reference.parse` reads a reference; names are compared without quotes and in capitals.
* `Reference.candidates` lists the full names a reference may mean, in the order they are tried.
* `QName` is a full name, and `QName.key` (`canonical`) the text under which its type is stored.
-/

namespace StoredCall

open Text

/-- The mark of a row type. -/
def rowMark : String := "%ROWTYPE"

/-- The spelling under which names are compared: trimmed, without quotes, in capitals. -/
def normalize (s : String) : String :=
  upper (String.ofList ((trim s).toList.filter (· ≠ '"')))

/-- A full name of a database type, or of the row of a table. -/
structure QName where
  owner : String
  package : Option String := none
  name : String
  isRow : Bool := false
  deriving DecidableEq, Repr, Inhabited

namespace QName

/-- The full name of a type; an empty package is no package. -/
def ofType (owner : String) (package : Option String) (name : String) : QName where
  owner := normalize owner
  package := (package.filter (· ≠ "")).map normalize
  name := normalize name

/-- The full name of the row of a table. -/
def ofRow (owner table : String) : QName where
  owner := normalize owner
  name := normalize table
  isRow := true

/-- The text under which a type is stored. -/
def key (q : QName) : String :=
  let owner := match q.package with
    | some package => q.owner ++ "." ++ package
    | none => q.owner
  owner ++ "." ++ q.name ++ (if q.isRow then rowMark else "")

end QName

/-- Whether a key is that of a row type. -/
def isRowKey (key : String) : Bool :=
  (dropEnd? rowMark.toList key.toList).isSome

/-- A reference to a type, as a catalog or a caller writes it. -/
inductive Reference where
  | bare (name : String)
  | qualified (owner name : String)
  | full (owner package name : String)
  | row (owner : Option String) (table : String)
  deriving DecidableEq, Repr

/-- A text that is no reference. -/
structure MalformedReference where
  text : String
  deriving DecidableEq, Repr

/-- What is said about a text that is no reference. -/
def MalformedReference.message (e : MalformedReference) : String :=
  "malformed type reference: " ++ quoted e.text

namespace Reference

/-- The parts of a name between its dots. -/
def parts (cs : List Char) : List String :=
  (pieces '.' cs).map String.ofList

/-- The row reference with the given parts. -/
def ofRowParts? : List String → Option Reference
  | [table] => if table = "" then none else some (.row none table)
  | [owner, table] => if owner = "" || table = "" then none else some (.row (some owner) table)
  | _ => none

/-- The type reference with the given parts. -/
def ofParts? (ps : List String) : Option Reference :=
  if ps.any (· = "") then none
  else match ps with
    | [name] => some (.bare name)
    | [owner, name] => some (.qualified owner name)
    | [owner, package, name] => some (.full owner package name)
    | _ => none

/-- Reads a reference, or gives nothing. -/
def parse? (s : String) : Option Reference :=
  let text := normalize s
  if text = "" then none
  else match dropEnd? rowMark.toList text.toList with
    | some base => ofRowParts? (parts base)
    | none => ofParts? (parts text.toList)

/-- Reads a reference. -/
def parse (s : String) : Except MalformedReference Reference :=
  match parse? s with
  | some r => .ok r
  | none => .error ⟨s⟩

/-- The full names a reference may mean, in the order they are tried. -/
def candidates (defaultOwner : String) : Reference → List QName
  | .bare name => [.ofType defaultOwner none name]
  | .qualified owner name =>
    [.ofType owner none name, .ofType defaultOwner (some owner) name]
  | .full owner package name => [.ofType owner (some package) name]
  | .row owner table => [.ofRow (owner.getD defaultOwner) table]

/-- The normal text of a reference. -/
def text : Reference → String
  | .bare name => name
  | .qualified owner name => owner ++ "." ++ name
  | .full owner package name => owner ++ "." ++ package ++ "." ++ name
  | .row (some owner) table => owner ++ "." ++ table ++ rowMark
  | .row none table => table ++ rowMark

end Reference

end StoredCall
