import StoredCall.Assoc
import StoredCall.Error
import StoredCall.Text.Split

/-!
# Workspaces

A command reads and writes files, reads its input and prints. `Workspace` is what it needs for
that, so that a command can be run on a real file system or on one in memory.

* `Workspace` is the operations.
* `FileRoute` is a path taken apart.
* `Files` is a file system in memory, and `Desk` a workspace in memory. Names and paths have the
  limits of common file systems.
-/

namespace StoredCall

open Text

/-- What a command needs from the world around it. -/
class Workspace (m : Type → Type) where
  readFile : (path : String) → m (Except FileFault (List UInt8))
  /-- The input, up to its end. -/
  readInput : m (List UInt8)
  writeFile : (path : String) → (content : List UInt8) → m (Except FileFault Unit)
  /-- Makes a directory and those above it, where they are missing. -/
  makeDirs : (path : String) → m (Except FileFault Unit)
  print : String → m Unit

/-! ## Paths -/

/-- A place of a file system: the names that lead to it from the directory that a command runs in.
A place outside of that directory begins with `..` for each directory further up, or with `/`. -/
abbrev Place := List String

/-- A path: where it begins, the names in it, and whether it ends in a slash. -/
structure FileRoute where
  start : Place
  names : List String
  slashed : Bool := false
  deriving DecidableEq, Repr

namespace FileRoute

/-- The length in bytes that a path must stay below. -/
def maxPath : Nat := 4096

/-- The route of a path. -/
def parse (path : String) : Except FileFault FileRoute :=
  let cs := path.toList
  if cs.contains '\x00' then .error .nullInPath
  else if path = "" then .error .notFound
  else if maxPath ≤ path.utf8ByteSize then .error .nameTooLong
  else .ok {
    start := if cs.head? = some '/' then ["/"] else []
    names := ((pieces '/' cs).filter (· ≠ [])).map String.ofList
    slashed := cs.getLast? = some '/' }

/-- The name at the end, unless the route ends in dots or has no names. -/
def last? (r : FileRoute) : Option String :=
  r.names.getLast?.filter fun name => name ≠ "." ∧ name ≠ ".."

/-- The names that count when a route is taken back name by name: single dots do not, except at the
beginning. -/
def parts (r : FileRoute) : List String :=
  match r.start, r.names with
  | [], "." :: rest => "." :: rest.filter (· ≠ ".")
  | _, names => names.filter (· ≠ ".")

end FileRoute

/-! ## Files in memory -/

/-- What stands at a place of a file system. -/
inductive FileNode where
  | directory
  | file (content : List UInt8)
  deriving DecidableEq, Repr

/-- A file system in memory. Of what is outside of it only the directories above are there. -/
structure Files where
  nodes : List (Place × FileNode) := []
  deriving Repr

namespace Files

/-- The directory that a command runs in, and those above it. -/
def isAbove (place : Place) : Bool := place = ["/"] ∨ place.all (· = "..")

/-- The place one directory further up. -/
def up (place : Place) : Place :=
  if place = ["/"] then place
  else if place.all (· = "..") then place ++ [".."]
  else place.dropLast

/-- What stands at a place. -/
def node? (t : Files) (place : Place) : Option FileNode :=
  if isAbove place then some .directory else Assoc.get? place t.nodes

/-- Puts something at a place. -/
def put (t : Files) (place : Place) (node : FileNode) : Files :=
  { nodes := Assoc.put place node t.nodes }

/-- The longest name in bytes. -/
def maxName : Nat := 255

/-- The place one step further; there must be a directory to step from. -/
def step (t : Files) (here : Place) (name : String) : Except FileFault Place :=
  match t.node? here with
  | none => .error .notFound
  | some (.file _) => .error .notADirectory
  | some .directory =>
    match name with
    | "." => .ok here
    | ".." => .ok (up here)
    | name => if maxName < name.utf8ByteSize then .error .nameTooLong else .ok (here ++ [name])

/-- The place that a route leads to. All but the last step must be there, and a slash at the end is
a step to the same place. -/
def locate (t : Files) (r : FileRoute) : Except FileFault Place :=
  (r.names ++ if r.slashed then ["."] else []).foldlM t.step r.start

/-- The directory in which a route ends. -/
def locateParent (t : Files) (r : FileRoute) : Except FileFault Place :=
  (r.names.dropLast ++ ["."]).foldlM t.step r.start

/-- Whether a route leads to a directory. -/
def isDirectory (t : Files) (r : FileRoute) : Bool :=
  match t.locate r with
  | .ok place => t.node? place = some .directory
  | .error _ => false

/-- The content of a file. -/
def read (t : Files) (path : String) : Except FileFault (List UInt8) := do
  match t.node? (← t.locate (← FileRoute.parse path)) with
  | none => throw .notFound
  | some .directory => throw .isADirectory
  | some (.file content) => return content

/-- Makes a file, or gives one another content. What ends in dots or a slash would be a
directory. -/
def write (t : Files) (path : String) (content : List UInt8) : Except FileFault Files := do
  let r ← FileRoute.parse path
  let here ← t.locateParent r
  match r.last? with
  | none => throw .isADirectory
  | some name =>
    if r.slashed then throw .isADirectory
    let place ← t.step here name
    match t.node? place with
    | some .directory => throw .isADirectory
    | _ => return t.put place (.file content)

/-- Makes a directory. What ends in dots is there already. -/
def makeDir (t : Files) (r : FileRoute) : Except FileFault Files := do
  let here ← t.locateParent r
  match r.last? with
  | none => throw .alreadyExists
  | some name =>
    let place ← t.step here name
    match t.node? place with
    | some _ => throw .alreadyExists
    | none => return t.put place .directory

/-- Makes a directory that may be there already. -/
def needDir (t : Files) (r : FileRoute) : Except FileFault Files :=
  match t.makeDir r with
  | .ok t => .ok t
  | .error e => if t.isDirectory r then .ok t else .error e

/-- Makes a directory that may be there already; where one above it is missing, `above` makes those,
and it is tried once more. -/
def needDirs (t : Files) (r : FileRoute) (above : Files → Except FileFault Files) :
    Except FileFault Files := do
  match t.makeDir r with
  | .error .notFound => (← above t).needDir r
  | _ => t.needDir r

/-- Makes the directories of a route that is given by its names, the last one first. -/
def makeRoute (start : Place) : (reversed : List String) → Files → Except FileFault Files
  | [], t => .ok t
  | name :: above, t =>
    t.needDirs { start, names := (name :: above).reverse } (makeRoute start above)

/-- Makes a directory and those above it, where they are missing. -/
def makeDirs (t : Files) (path : String) : Except FileFault Files := do
  let r ← FileRoute.parse path
  t.needDirs r (makeRoute r.start r.parts.dropLast.reverse)

/-- The file system with the given files and the directories above them. -/
def ofList (files : List (String × List UInt8)) : Files :=
  files.foldl (fun t (path, content) =>
    let names := (pieces '/' path.toList).map String.ofList
    let above := (List.range names.length).tail.map fun n => names.take n
    let t := above.foldl (fun t place => { nodes := Assoc.putNew place .directory t.nodes }) t
    t.put names (.file content)) {}

/-- The files that are new or have another content than before. What is outside does not count. -/
def changes (before after : Files) : List (String × List UInt8) :=
  after.nodes.filterMap fun (place, node) =>
    match node with
    | .directory => none
    | .file content =>
      if place.head? = some "/" ∨ place.head? = some ".." then none
      else if before.node? place = some (.file content) then none
      else some (join "/" place, content)

end Files

/-- A workspace in memory: files, what is left of the input, and what has been printed. -/
structure Desk where
  files : Files := {}
  input : List UInt8 := []
  printed : String := ""

namespace Desk

/-- Changes the files, unless that fails. -/
def changeFiles (change : Files → Except FileFault Files) : StateM Desk (Except FileFault Unit) :=
  modifyGet fun d =>
    match change d.files with
    | .ok files => (.ok (), { d with files })
    | .error e => (.error e, d)

instance : Workspace (StateM Desk) where
  readFile path := do return (← get).files.read path
  readInput := modifyGet fun d => (d.input, { d with input := [] })
  writeFile path content := changeFiles fun files => files.write path content
  makeDirs path := changeFiles fun files => files.makeDirs path
  print s := modify fun d => { d with printed := d.printed ++ s }

end Desk

end StoredCall
