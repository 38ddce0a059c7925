import StoredCall.Text.Casing
import StoredCall.Text.Split

/-!
# Blocks

A block is a small program of the database: declarations, then statements. It is kept as a tree and
written out at the end.

* `Expr`, `Stmt` and `Decl` are the parts that generated blocks are made of; `blockName`
  (`plsql_name`) writes a name.
* `Block.text` writes a block, `Block.placeholders` lists the placeholders in the order written.
-/

namespace StoredCall

open Text

/-- A name as a block writes it: in quotes, unless it is a plain identifier. -/
def blockName (name : String) : String :=
  if isPlainIdent name then name else "\"" ++ name ++ "\""

/-- An expression of a block. -/
inductive Expr where
  | placeholder (position : Nat)
  | var (name : String)
  | field (record : Expr) (name : String)
  | item (table index : Expr)
  | first (table : Expr)
  | last (table : Expr)
  | next (table index : Expr)
  | count (table : Expr)
  | succ (e : Expr)
  /-- An empty table of a nested table type. -/
  | construct (typeName : String)
  deriving DecidableEq, Repr

namespace Expr

/-- An expression as written. -/
def text : Expr → String
  | placeholder position => ":" ++ toString position
  | var name => name
  | field record name => record.text ++ "." ++ blockName name
  | item table index => table.text ++ "(" ++ index.text ++ ")"
  | first table => table.text ++ ".FIRST"
  | last table => table.text ++ ".LAST"
  | next table index => table.text ++ ".NEXT(" ++ index.text ++ ")"
  | count table => table.text ++ ".COUNT"
  | succ e => e.text ++ " + 1"
  | construct typeName => typeName ++ "()"

/-- The placeholders of an expression, as written from left to right. -/
def placeholders : Expr → List Nat
  | placeholder position => [position]
  | var _ | construct _ => []
  | field e _ | first e | last e | count e | succ e => e.placeholders
  | item table index | next table index => table.placeholders ++ index.placeholders

/-- The part of a record that fields lead to. -/
def select (e : Expr) (fields : List String) : Expr := fields.foldl field e

end Expr

/-- A statement of a block. -/
inductive Stmt where
  | assign (target value : Expr)
  | delete (table : Expr)
  | extend (table : Expr)
  /-- Leaves the loop when a table has a given number of elements or more. -/
  | exitWhenFull (table : Expr) (limit : Nat)
  /-- Repeats statements while an index is there. -/
  | whileSet (index : Expr) (body : List Stmt)
  /-- Runs statements if a value is there. -/
  | ifSet (value : Expr) (body : List Stmt)
  | call (result : Option Expr) (name : String) (params : List (String × Expr))
  /-- Runs statements and swallows exceptions. -/
  | handled (body : List Stmt) (exceptions : List String)
  deriving Repr

/-- Lines one level further in. -/
def indented (lines : List String) : List String :=
  lines.map ("  " ++ ·)

/-- A call as written, without the place its result goes to. -/
def callText (name : String) (params : List (String × Expr)) : String :=
  if params.isEmpty then name
  else name ++ "(" ++ join ", " (params.map fun (p, e) => blockName p ++ " => " ++ e.text) ++ ")"

mutual

/-- The lines of a statement. -/
def Stmt.lines : Stmt → List String
  | .assign target value => [target.text ++ " := " ++ value.text ++ ";"]
  | .delete table => [table.text ++ ".DELETE;"]
  | .extend table => [table.text ++ ".EXTEND;"]
  | .exitWhenFull table limit =>
    ["EXIT WHEN " ++ (Expr.count table).text ++ " >= " ++ toString limit ++ ";"]
  | .whileSet index body =>
    ("WHILE " ++ index.text ++ " IS NOT NULL LOOP") :: indented (linesAll body) ++ ["END LOOP;"]
  | .ifSet value body =>
    ("IF " ++ value.text ++ " IS NOT NULL THEN") :: indented (linesAll body) ++ ["END IF;"]
  | .call none name params => [callText name params ++ ";"]
  | .call (some result) name params => [result.text ++ " := " ++ callText name params ++ ";"]
  | .handled body exceptions =>
    "BEGIN" :: indented (linesAll body) ++ "EXCEPTION"
      :: indented (exceptions.map fun e => "WHEN " ++ e ++ " THEN NULL;") ++ ["END;"]

/-- The lines of statements. -/
def linesAll : List Stmt → List String
  | [] => []
  | s :: rest => s.lines ++ linesAll rest

end

mutual

/-- The placeholders of a statement, as written from left to right. -/
def Stmt.placeholders : Stmt → List Nat
  | .assign target value => target.placeholders ++ value.placeholders
  | .delete table | .extend table | .exitWhenFull table _ => table.placeholders
  | .whileSet index body => index.placeholders ++ placeholdersAll body
  | .ifSet value body => value.placeholders ++ placeholdersAll body
  | .call none _ params => params.flatMap fun (_, e) => e.placeholders
  | .call (some result) _ params =>
    result.placeholders ++ params.flatMap fun (_, e) => e.placeholders
  | .handled body _ => placeholdersAll body

/-- The placeholders of statements, as written. -/
def placeholdersAll : List Stmt → List Nat
  | [] => []
  | s :: rest => s.placeholders ++ placeholdersAll rest

end

/-- A declaration of a block. -/
inductive Decl where
  | var (name typeName : String)
  /-- The type of arrays with integer indices and the given elements. -/
  | arrayType (name elem : String)
  deriving DecidableEq, Repr

namespace Decl

/-- The declared name. -/
def name : Decl → String
  | .var name _ | .arrayType name _ => name

/-- A declaration as written. -/
def text : Decl → String
  | .var name typeName => name ++ " " ++ typeName ++ ";"
  | .arrayType name elem =>
    "TYPE " ++ name ++ " IS TABLE OF " ++ elem ++ " INDEX BY BINARY_INTEGER;"

end Decl

/-- Declarations and statements. -/
structure Block where
  decls : List Decl
  body : List Stmt
  deriving Repr

namespace Block

/-- The lines of a block. -/
def lines (b : Block) : List String :=
  (if b.decls.isEmpty then [] else "DECLARE" :: indented (b.decls.map Decl.text))
    ++ "BEGIN" :: indented (linesAll b.body) ++ ["END;"]

/-- A block as written. -/
def text (b : Block) : String :=
  String.join (b.lines.map (· ++ "\n"))

/-- The placeholders of a block, as written. -/
def placeholders (b : Block) : List Nat := placeholdersAll b.body

end Block

end StoredCall
