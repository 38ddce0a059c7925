import StoredCall.Error
import StoredCall.Number.Digits

/-!
# Directives

A directive file adjusts subprograms, one directive to a line: a name, blanks, a target and
perhaps an operand after an arrow. Blank lines and lines that start with a hash do not count.

    rename         PKG.GET_EMPLOYEE_DETAILS=>employee
    private        PKG.INTERNAL_HELPER
    replace        PKG.BULK_LOAD=>PKG.BULK_LOAD_XML
    replace_json   PKG.SEARCH=>PKG.SEARCH_JSON
    handle         NO_DATA_FOUND
    handle         PKG=>PKG.E_LOCKED
    max-table-size PKG.BULK_LOAD=>1000
    tag            PKG.SEARCH=>readonly

A target is a name with or without its package, and stands for every overload.

* `Directive.readAll` (`parse_directives`) reads a file, `Directive.applyAll` (`apply_directives`)
  applies directives in order.
-/

namespace StoredCall

open Text Number

/-- What a directive does. -/
inductive Action where
  | rename (target newName : String)
  /-- Calls another subprogram instead, with one document in and one out. -/
  | replace (target other : String) (format : BlobFormat)
  /-- Leaves the target out of everything generated. -/
  | hide (target : String)
  /-- Swallows an exception around calls, in one package or everywhere. -/
  | handle (package : Option String) (exception : String)
  | maxTableSize (target : String) (size : Nat)
  | tag (target tag : String)
  deriving DecidableEq, Repr

/-- An action and the line it stands in. -/
structure Directive where
  line : Nat
  action : Action
  deriving DecidableEq, Repr

namespace Directive

/-! ## Reading -/

/-- Reads the size of a table, which is above zero. -/
def readSize? (s : String) : Option Nat :=
  (readWord? s.toList).filter (0 < ·)

/-- The action of a directive's name, target and operand. -/
def actionOf (name target : String) (operand : Option String) : Except DirectiveFault Action :=
  let need (what : String) : Except DirectiveFault String :=
    match operand with
    | some s => .ok s
    | none => .error (.missingOperand name what)
  let target := upper target
  match lower name with
  | "rename" => do return .rename target (← need "new-name")
  | "replace" => do return .replace target (upper (← need "replacement")) .xml
  | "replace_json" => do return .replace target (upper (← need "replacement")) .json
  | "private" =>
    match operand with
    | none => .ok (.hide target)
    | some _ => .error .extraOperand
  | "handle" =>
    match operand with
    | some exception => .ok (.handle (some target) (upper exception))
    | none => .ok (.handle none target)
  | "max-table-size" | "max_table_size" => do
    let text ← need "size"
    match readSize? text with
    | some size => return .maxTableSize target size
    | none => throw (.badSize text)
  | "tag" => do return .tag target (← need "tag")
  | other => .error (.unknown other)

/-- Reads a line that is neither blank nor a comment. -/
def readLine (line : String) : Except DirectiveFault Action :=
  match cutWhere? isBlank line.toList with
  | none => .error (.noTarget line)
  | some (name, rest) =>
    let rest := strip isBlank rest
    let (target, operand) := match cutAt? ['=', '>'] rest with
      | some (target, operand) => (strip isBlank target, some (strip isBlank operand))
      | none => (rest, none)
    if target.isEmpty ∨ operand = some [] then .error (.emptyOperand line)
    else actionOf (String.ofList name) (String.ofList target) (operand.map String.ofList)

/-- A line that says nothing. -/
def isComment (line : String) : Bool :=
  line.isEmpty || line.toList.head? = some '#'

/-- Reads lines; `number` is the number of the first. -/
def readLines : (number : Nat) → List String → Except Error (List Directive)
  | _, [] => .ok []
  | number, line :: rest =>
    let line := trim line
    if isComment line then readLines (number + 1) rest
    else do
      let action ← (readLine line).mapError (.directive number)
      let more ← readLines (number + 1) rest
      return ⟨number, action⟩ :: more

/-- Reads a directive file. -/
def readAll (text : String) : Except Error (List Directive) :=
  readLines 1 ((lines text.toList).map String.ofList)

/-! ## Applying -/

/-- Whether a target stands for a subprogram. -/
def targets (target : String) (f : Subprogram) : Bool :=
  target = f.name || target = f.qualifiedName

/-- The list with a text added at its end, unless it is there. -/
def addNew (s : String) (xs : List String) : List String :=
  if xs.contains s then xs else xs ++ [s]

/-- Changes the subprograms that a target stands for. -/
def update (target : String) (change : Subprogram → Subprogram) (fs : List Subprogram) :
    List Subprogram :=
  fs.map fun f => if targets target f then change f else f

/-- Applies a directive, except that subprograms to be hidden stay. -/
def apply (fs : List Subprogram) (d : Directive) : Except Error (List Subprogram) :=
  match d.action with
  | .rename target newName => .ok (update target (fun f => { f with givenName := some newName }) fs)
  | .tag target tag => .ok (update target (fun f => { f with tags := addNew tag f.tags }) fs)
  | .maxTableSize target size =>
    .ok (update target (fun f => { f with maxTableSize := some size }) fs)
  | .handle package exception =>
    .ok (fs.map fun f =>
      if (package.map fun p => decide (f.package = p)).getD true then
        { f with handles := addNew exception f.handles }
      else f)
  | .replace target other format =>
    match fs.find? (targets other) with
    | none => .error (.directive d.line (.noReplacement other))
    | some g =>
      .ok (update target (fun f => { f with replacement := some ⟨g, format⟩ }) fs)
  | .hide _ => .ok fs

/-- Whether one of the directives hides a subprogram. -/
def hides (ds : List Directive) (f : Subprogram) : Bool :=
  ds.any fun d =>
    match d.action with
    | .hide target => targets target f
    | _ => false

/-- Applies directives in order. Hidden subprograms are taken out at the end, so that they can
still replace others. -/
def applyAll (fs : List Subprogram) (ds : List Directive) : Except Error (List Subprogram) := do
  let fs ← ds.foldlM apply fs
  return fs.filter fun f => !hides ds f

end Directive

end StoredCall
