import StoredCall.Error
import StoredCall.Plan
import StoredCall.Stub.Block
import StoredCall.Stub.Names

/-!
# Lowering

A call is turned into a block whose placeholders carry scalars, arrays of scalars, cursors and
documents only. Records go through locals, one scalar at a time; tables go through arrays of
scalars, one array for each scalar inside an element, and loops that copy between the two.

The block has three parts: what fills the locals of composite inputs, the call, and what reads the
locals of composite outputs. Slots are made in the order in which their placeholders are written, so
that the position of a slot is known when it is made. A value that goes in and comes out through two
slots is converted once: the second slot copies the first.

* `leavesOf` (`leaves`) lists the scalars inside an element.
* `Argument.lowerIn` (`lower_in`) and `Argument.lowerOut` (`lower_out`) lower one argument; `copyIn`
  and `copyOut` are the statements that move a table.
* `Subprogram.lower` (`lower_direct`, `lower_replacement`) turns a subprogram into a block and its
  slots.
-/

namespace StoredCall

open Text

/-! ## Scalars inside an element -/

/-- A scalar inside the element of a table. -/
structure Leaf where
  /-- The fields that lead to it in the block. -/
  fields : List String
  /-- The path that leads to it in a value. -/
  path : Path
  scalar : Scalar
  deriving DecidableEq, Repr

mutual

/-- The scalars of an argument in preorder, below the given fields and path. -/
def Argument.leaves (label : String) (fields : List String) (path : Path) :
    Argument → Except Error (List Leaf)
  | ⟨name, _, _, shape⟩ => shape.leaves label name fields path

/-- The scalars of a shape in preorder. A table has none of its own, and is refused. -/
def Shape.leaves (label name : String) (fields : List String) (path : Path) :
    Shape → Except Error (List Leaf)
  | .scalar s => .ok [⟨fields, path, s⟩]
  | .record _ [] => .error (.notSupported label (.emptyRecord name))
  | .record _ (f :: rest) =>
    leavesAll label fields path (fieldNames ((f :: rest).map Argument.name)) (f :: rest)
  | .table .. => .error (.notSupported label .nestedCollection)

/-- The scalars of siblings that go by the given field names. -/
def leavesAll (label : String) (fields : List String) (path : Path) :
    (names : List String) → List Argument → Except Error (List Leaf)
  | _, [] => .ok []
  | names, f :: rest => do
    let here ← f.leaves label (fields ++ [f.name]) (path.child (names.headD ""))
    let more ← leavesAll label fields path names.tail rest
    return here ++ more

end

/-- The scalars inside an element, in preorder. -/
def leavesOf (label : String) (elem : Argument) : Except Error (List Leaf) :=
  elem.leaves label [] []

/-! ## The state of lowering -/

/-- What is fixed for one subprogram. -/
structure Setting where
  /-- The name that failures give. -/
  label : String
  package : String
  /-- How many elements an array holds at most. -/
  capacity : Nat

/-- What has been made so far. -/
structure Work where
  names : Names
  decls : List Decl := []
  slots : List Slot := []
  /-- How many loops there are. -/
  loops : Nat := 0

/-- A step of lowering. The names given out before a failure stay given out. -/
abbrev Lower (α : Type) := ExceptT Error (StateM Work) α

/-- The slot that comes after others: it copies the first with the same path, if there is one. -/
def nextSlot (slots : List Slot) (path : Path) (direction : Direction) (kind : SlotKind) :
    Slot where
  position := slots.length + 1
  path := path
  direction := direction
  kind := kind
  source :=
    match slots.findIdx? fun slot => slot.path = path with
    | some index => .copyOf index
    | none => .convert

/-- Makes a slot and gives its position. -/
def bindSlot (path : Path) (direction : Direction) (kind : SlotKind) : Lower Nat :=
  modifyGet fun w =>
    let slot := nextSlot w.slots path direction kind
    (slot.position, { w with slots := w.slots ++ [slot] })

/-- The identifier of a long name. -/
def identifier (s : Setting) (long : String) : Lower String :=
  modifyGet fun w =>
    let (name, names) := w.names.ident s.package long
    (name, { w with names })

/-- Declares a name that is not declared yet. -/
def declare (d : Decl) : Lower Unit :=
  modify fun w =>
    if w.decls.any fun e => e.name = d.name then w else { w with decls := w.decls ++ [d] }

/-- The local that stands for a composite argument, of the argument's declared type. -/
def bridge (s : Setting) (a : Argument) (long : String) : Lower String := do
  match a.shape.typeName with
  | none => throw (.notSupported s.label (.undeclaredArgument a.name))
  | some typeName =>
    let name ← identifier s long
    declare (.var name typeName)
    return name

/-- The index of a new loop. -/
def loopIndex : Lower String := do
  modify fun w => { w with loops := w.loops + 1 }
  let name := "i" ++ toString (← get).loops
  declare (.var name "PLS_INTEGER")
  return name

/-- The array types that are declared, with their elements. -/
def arrayTypes (decls : List Decl) : List (String × String) :=
  decls.filterMap fun
    | .arrayType name elem => some (elem, name)
    | .var .. => none

/-- The type of arrays with the given elements. -/
def arrayType (elem : String) : Lower String := do
  let types := arrayTypes (← get).decls
  match Assoc.get? elem types with
  | some name => return name
  | none =>
    let name := "t_" ++ toString (types.length + 1)
    declare (.arrayType name elem)
    return name

/-- The fields of a path, joined to a long name. -/
def pathIdent (p : Path) : String :=
  join "_" (p.filterMap fun
    | .field name => some name
    | .each => none)

/-- The array that carries the scalar at a path below the elements at `each`. -/
def arrayLocal (s : Setting) (each : Path) (leaf : Leaf) : Lower String := do
  let typeName ← arrayType leaf.scalar.elementDecl
  let name ← identifier s ("x_" ++ pathIdent (each ++ leaf.path))
  declare (.var name typeName)
  return name

/-! ## Tables -/

/-- A scalar inside an element, the array that carries it and the placeholder of the array. -/
structure Carried where
  leaf : Leaf
  array : String
  position : Nat
  deriving DecidableEq, Repr

/-- Makes arrays and slots for the scalars inside the elements at `each`. -/
def carry (s : Setting) (each : Path) (direction : Direction) :
    List Leaf → Lower (List Carried)
  | [] => return []
  | leaf :: rest => do
    let array ← arrayLocal s each leaf
    let kind := SlotKind.array leaf.scalar.kind s.capacity
    let position ← bindSlot (each ++ leaf.path) direction kind
    let more ← carry s each direction rest
    return ⟨leaf, array, position⟩ :: more

/-- Fills the table `target` from arrays. A nested table is made first, as an empty one of its type,
and then extended by one element at a time; in any other the elements have the indices of the
arrays. -/
def copyIn (target index : Expr) (nestedType : Option String) : List Carried → List Stmt
  | [] => []
  | driver :: rest =>
    let columns := driver :: rest
    let elem := match nestedType with
      | some _ => Expr.item target (.last target)
      | none => Expr.item target index
    let filled := columns.map fun c =>
      Stmt.assign (elem.select c.leaf.fields) (.item (.var c.array) index)
    columns.map (fun c => Stmt.assign (.var c.array) (.placeholder c.position))
      ++ nestedType.toList.map (fun typeName => Stmt.assign target (.construct typeName))
      ++ [.assign index (.first (.var driver.array)),
        .whileSet index
          (nestedType.toList.map (fun _ => Stmt.extend target) ++ filled
            ++ [.assign index (.next (.var driver.array) index)])]

/-- Fills arrays from the table `source`, up to a capacity. A nested table may be missing as a
whole, and then the arrays stay empty. -/
def copyOut (source index : Expr) (nested : Bool) (capacity : Nat) : List Carried → List Stmt
  | [] => []
  | driver :: rest =>
    let columns := driver :: rest
    let filled := columns.map fun c =>
      Stmt.assign (.item (.var c.array) (.succ (.count (.var c.array))))
        ((Expr.item source index).select c.leaf.fields)
    let copy := [.assign index (.first source),
      .whileSet index
        (.exitWhenFull (.var driver.array) capacity :: filled
          ++ [.assign index (.next source index)])]
    columns.map (fun c => Stmt.delete (.var c.array))
      ++ (if nested then [.ifSet source copy] else copy)
      ++ columns.map fun c => Stmt.assign (.placeholder c.position) (.var c.array)

/-- The scalars inside the elements of a table. -/
def elementLeaves (s : Setting) (name : String) (elem : Option Argument) : Lower (List Leaf) :=
  match elem with
  | none => throw (.missingElementType s.label name)
  | some elem => ofExcept (leavesOf s.label elem)

/-- Fills a table from slots. -/
def tableIn (s : Setting) (name : String) (target : Expr) (path : Path)
    (typeName : Option String) (elem : Option Argument) (nested : Bool) : Lower (List Stmt) := do
  let leaves ← elementLeaves s name elem
  let columns ← carry s path.elements .input leaves
  let index ← loopIndex
  if nested then
    match typeName with
    | none => throw (.notSupported s.label (.undeclaredTable name))
    | some typeName => return copyIn target (.var index) (some typeName) columns
  else return copyIn target (.var index) none columns

/-- Reads a table into slots. -/
def tableOut (s : Setting) (name : String) (source : Expr) (path : Path)
    (elem : Option Argument) (nested : Bool) : Lower (List Stmt) := do
  let leaves ← elementLeaves s name elem
  let columns ← carry s path.elements .output leaves
  let index ← loopIndex
  return copyOut source (.var index) nested s.capacity columns

/-! ## Composites -/

mutual

/-- Fills a local from slots. -/
def Argument.lowerIn (s : Setting) (target : Expr) (path : Path) : Argument → Lower (List Stmt)
  | ⟨name, _, _, shape⟩ => shape.lowerIn s name target path

/-- Fills a place of the given shape from slots. -/
def Shape.lowerIn (s : Setting) (name : String) (target : Expr) (path : Path) :
    Shape → Lower (List Stmt)
  | .scalar scalar => do
    let position ← bindSlot path .input (.scalar scalar.kind)
    return [.assign target (.placeholder position)]
  | .record _ [] => throw (.notSupported s.label (.emptyRecord name))
  | .record _ (f :: rest) =>
    lowerInAll s target path (fieldNames ((f :: rest).map Argument.name)) (f :: rest)
  | .table _ _ _ true => throw (.notSupported s.label (.cursorAsInput name))
  | .table typeName elem nested false => tableIn s name target path typeName elem nested

/-- Fills the fields of a record, which go by the given field names. -/
def lowerInAll (s : Setting) (target : Expr) (path : Path) :
    (names : List String) → List Argument → Lower (List Stmt)
  | _, [] => return []
  | names, f :: rest => do
    let here ← f.lowerIn s (.field target f.name) (path.child (names.headD ""))
    let more ← lowerInAll s target path names.tail rest
    return here ++ more

end

mutual

/-- Reads a local into slots. -/
def Argument.lowerOut (s : Setting) (source : Expr) (path : Path) : Argument → Lower (List Stmt)
  | ⟨name, _, _, shape⟩ => shape.lowerOut s name source path

/-- Reads a place of the given shape into slots. -/
def Shape.lowerOut (s : Setting) (name : String) (source : Expr) (path : Path) :
    Shape → Lower (List Stmt)
  | .scalar scalar => do
    let position ← bindSlot path .output (.scalar scalar.kind)
    return [.assign (.placeholder position) source]
  | .record _ [] => throw (.notSupported s.label (.emptyRecord name))
  | .record _ (f :: rest) =>
    lowerOutAll s source path (fieldNames ((f :: rest).map Argument.name)) (f :: rest)
  | .table _ _ _ true => throw (.notSupported s.label (.cursorInside name))
  | .table _ elem nested false => tableOut s name source path elem nested

/-- Reads the fields of a record, which go by the given field names. -/
def lowerOutAll (s : Setting) (source : Expr) (path : Path) :
    (names : List String) → List Argument → Lower (List Stmt)
  | _, [] => return []
  | names, f :: rest => do
    let here ← f.lowerOut s (.field source f.name) (path.child (names.headD ""))
    let more ← lowerOutAll s source path names.tail rest
    return here ++ more

end

/-! ## The call -/

/-- What a placeholder can stand for in a call. -/
inductive Direct where
  | scalar (s : Scalar)
  | cursor (elem : Option Argument)

/-- A scalar or a cursor stands in the call as a placeholder; all else goes through a local. -/
def Shape.direct? : Shape → Option Direct
  | .scalar s => some (.scalar s)
  | .table _ elem _ true => some (.cursor elem)
  | .record .. | .table _ _ _ false => none

/-- How a value gets to the call. -/
inductive Route where
  | slot (d : Direct)
  | through (name : String)

/-- An argument under its field name, and how it gets to the call. -/
structure Passed where
  field : String
  arg : Argument
  route : Route

/-- The path of an argument in requests and responses. -/
def Passed.path (p : Passed) : Path := [.field p.field]

/-- Makes the slot of a scalar or a cursor. -/
def bindDirect (s : Setting) (name : String) (path : Path) (direction : Direction) :
    Direct → Lower Expr
  | .scalar scalar => do return .placeholder (← bindSlot path direction (.scalar scalar.kind))
  | .cursor elem => do
    if direction ≠ .output then throw (.notSupported s.label (.cursorNotOutput name))
    let leaves ← elementLeaves s name elem
    let columns := leaves.map fun leaf => (⟨leaf.path, leaf.scalar.kind⟩ : Column)
    return .placeholder (← bindSlot path .output (.cursor columns))

/-- Makes the local of a value that goes through one. -/
def routeOf (s : Setting) (field : String) (a : Argument) : Lower Route := do
  match a.shape.direct? with
  | some d => return .slot d
  | none => return .through (← bridge s a ("v_" ++ field))

/-- Fills the local of an input. -/
def fillLocal (s : Setting) (p : Passed) : Lower (List Stmt) :=
  match p.route with
  | .slot _ => return []
  | .through name =>
    if p.arg.direction.isInput then p.arg.lowerIn s (.var name) p.path else return []

/-- Makes the locals of composite arguments and fills those of inputs. -/
def passIn (s : Setting) : List (String × Argument) → Lower (List Passed × List Stmt)
  | [] => return ([], [])
  | (field, arg) :: rest => do
    let p : Passed := ⟨field, arg, ← routeOf s field arg⟩
    let here ← fillLocal s p
    let (more, stmts) ← passIn s rest
    return (p :: more, here ++ stmts)

/-- The return value under its field name, and how it gets out of the call. -/
def passReturn (s : Setting) (f : Subprogram) : Lower (Option Passed) := do
  match f.returns, f.retField with
  | some ret, some field => return some ⟨field, ret, ← routeOf s field ret⟩
  | _, _ => return none

/-- What stands in the call for a value that goes in the given direction. -/
def placeOf (s : Setting) (direction : Direction) (p : Passed) : Lower Expr :=
  match p.route with
  | .slot d => bindDirect s p.arg.name p.path direction d
  | .through name => return .var name

/-- The parameters of the call. -/
def params (s : Setting) : List Passed → Lower (List (String × Expr))
  | [] => return []
  | p :: rest => do
    let value ← placeOf s p.arg.direction p
    let more ← params s rest
    return (p.arg.name, value) :: more

/-- Reads the local of a value. -/
def readLocal (s : Setting) (p : Passed) : Lower (List Stmt) :=
  match p.route with
  | .slot _ => return []
  | .through name => p.arg.lowerOut s (.var name) p.path

/-- Reads the locals of composite outputs. -/
def passOut (s : Setting) : List Passed → Lower (List Stmt)
  | [] => return []
  | p :: rest => do
    let here ← if p.arg.direction.isOutput then readLocal s p else pure []
    let more ← passOut s rest
    return here ++ more

/-- A call, with exceptions swallowed where there are any to swallow. -/
def guardCall (exceptions : List String) (call : Stmt) : Stmt :=
  if exceptions.isEmpty then call else .handled [call] exceptions

/-- The statements of a call with all its arguments. -/
def lowerDirect (s : Setting) (f : Subprogram) : Lower (List Stmt) := do
  let (passed, before) ← passIn s (f.argFields.zip f.args)
  let ret ← passReturn s f
  let result ← ret.mapM (placeOf s .output)
  let ps ← params s passed
  let after ← passOut s passed
  let last ← match ret with
    | some p => readLocal s p
    | none => pure []
  return before ++ guardCall f.handles (.call result f.qualifiedName ps) :: after ++ last

/-! ## Replacements -/

/-- One scalar goes in, one scalar comes out, and there is nothing else. -/
def takesDocument (g : Subprogram) : Bool :=
  (g.args ++ g.returns.toList).all (fun a => a.flavor = .simple)
    && (g.args.filter fun a => a.direction.isInput).length == 1
    && (g.args.filter fun a => a.direction.isOutput).length + g.returns.toList.length == 1

/-- The slots of a call with documents: one to the return value, one to each argument. -/
def documentSlots (format : BlobFormat) (directions : List Direction) : List Slot :=
  directions.zipIdx.map fun (direction, i) =>
    { position := i + 1, path := [], direction, kind := .document format, source := .convert }

/-- The statement of a call with documents, whose placeholders stand in order. -/
def documentCall (g : Subprogram) : Stmt :=
  let first := g.returns.toList.length + 1
  .call (g.returns.map fun _ => .placeholder 1) g.qualifiedName
    (g.args.zipIdx.map fun (a, i) => (a.name, .placeholder (first + i)))

/-- The block and the slots of a call to a replacement. -/
def lowerReplacement (label : String) (handles : List String) (r : Replacement) :
    Except Error (Block × List Slot) :=
  let g := r.subprogram
  if takesDocument g then
    let directions := g.returns.toList.map (fun _ => .output) ++ g.args.map Argument.direction
    .ok (⟨[], [guardCall handles (documentCall g)]⟩, documentSlots r.format directions)
  else .error (.notSupported label (.replacementShape g.qualifiedName))

/-! ## Subprograms -/

/-- The block and the slots of a call. `capacity` is how many elements an array holds where the
subprogram does not say. -/
def Subprogram.lower (f : Subprogram) (capacity : Nat) :
    ExceptT Error (StateM Names) (Block × List Slot) :=
  match f.replacement with
  | some r => ofExcept (lowerReplacement f.text f.handles r)
  | none =>
    let s : Setting := ⟨f.text, f.package, f.maxTableSize.getD capacity⟩
    ExceptT.mk fun names =>
      match (lowerDirect s f).run { names } with
      | (.ok body, w) => (.ok (⟨w.decls, body⟩, w.slots), w.names)
      | (.error e, w) => (.error e, w.names)

end StoredCall
