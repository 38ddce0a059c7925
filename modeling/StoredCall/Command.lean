import StoredCall.Catalog.Store
import StoredCall.CommandLine
import StoredCall.Directive
import StoredCall.Snapshot.Binary
import StoredCall.Subprogram.Fill
import StoredCall.TypeGraph.Discovery
import StoredCall.Workspace

/-!
# Commands

All commands begin alike: rows are read, types are resolved, subprograms are built and directives
are applied. Then `gen` writes blocks and glue, `proto` writes schemas, and `check` writes nothing
and counts.

* `load` is what commands have in common.
* `Command.run` carries a command out in a workspace.
-/

namespace StoredCall

open Text

section Running

variable {m : Type → Type} [Monad m] [Workspace m]

/-! ## Files -/

/-- The outcome of an operation on files. -/
def onFiles {α : Type} (x : m (Except FileFault α)) : ExceptT Error m α :=
  ExceptT.mk do return (← x).mapError .file

/-- The content of a file. -/
def readBytes (path : String) : ExceptT Error m (List UInt8) :=
  onFiles (Workspace.readFile path)

/-- The text of a file. -/
def readText (path : String) : ExceptT Error m String := do
  ofExcept (textOfBytes (← readBytes path))

/-- The text of a file, or of the input for a dash. -/
def readExtract (path : String) : ExceptT Error m String := do
  let bytes ← if path = "-" then liftM (Workspace.readInput : m _) else readBytes path
  ofExcept (textOfBytes bytes)

/-- The ending of a file's name, after the last dot; a dot at the start does not count. -/
def extension? (path : String) : Option String :=
  let names := (pieces '/' path.toList).filter fun n => n ≠ [] ∧ n ≠ ['.']
  match names.getLast? with
  | none | some ['.', '.'] => none
  | some name =>
    match (pieces '.' name).reverse with
    | ending :: before :: more =>
      if before = [] ∧ more = [] then none else some (String.ofList ending)
    | _ => none

/-- Whether a file holds JSON, by its name. -/
def isJson (path : String) : Bool := (extension? path).map lower = some "json"

/-- Reads a snapshot in the form that the file's name says. -/
def readSnapshot (path : String) : ExceptT Error m Snapshot := do
  let found ← if isJson path then Snapshot.ofJson? <$> readText path
    else Snapshot.ofBinary? <$> readBytes path
  match found with
  | some s => return s
  | none => throw .snapshot

/-- Writes a snapshot in the form that the file's name says. -/
def writeSnapshot (path : String) (s : Snapshot) : ExceptT Error m Unit :=
  onFiles (Workspace.writeFile path (if isJson path then utf8 s.toJson else s.toBinary))

/-- The path of a file in a directory. -/
def joinPath (dir name : String) : String :=
  if name.toList.head? = some '/' then name
  else if dir.toList.getLast? = some '/' then dir ++ name
  else dir ++ "/" ++ name

/-- Writes a file into a directory, or prints it where there is none. -/
def emit (dir : Option String) (name content : String) : ExceptT Error m Unit :=
  match dir with
  | none => liftM (Workspace.print content : m Unit)
  | some dir => do
    onFiles (Workspace.makeDirs dir)
    onFiles (Workspace.writeFile (joinPath dir name) (utf8 content))

/-! ## Loading -/

/-- The subprograms of a package. -/
abbrev Package := String × List Subprogram

/-- Subprograms, and the types they were built with. -/
structure Loaded where
  subprograms : List Subprogram
  graph : TypeGraph

/-- The packages in ascending order of their names. -/
def Loaded.packages (l : Loaded) : List Package :=
  (Assoc.group Subprogram.package l.subprograms).mergeSort fun a b => !(b.1 < a.1)

/-- The catalog of a command. -/
def loadStore (i : Inputs) : ExceptT Error m Store := do
  let s := Store.empty i.owner
  match i.types with
  | none => return s
  | some path =>
    let rows ← ofExcept (TypeRow.readAll (← readExtract path))
    ofExcept (s.insertTypeRows rows)

/-- The types that a command starts with. -/
def loadGraph (i : Inputs) : ExceptT Error m TypeGraph := do
  match i.snapshot with
  | none => return {}
  | some path => return .ofSnapshot (← readSnapshot path)

/-- Runs a step on a type graph. -/
def onGraph {α : Type} (g : TypeGraph) (step : Resolve α) : ExceptT Error m (α × TypeGraph) :=
  match step.run g with
  | (.ok a, g) => return (a, g)
  | (.error e, _) => throw e

/-- Reads what a command needs. -/
def load (i : Inputs) : ExceptT Error m Loaded := do
  let rows ← ofExcept (ArgRow.readAll (← readExtract i.rows))
  let catalog := (← loadStore i).catalog
  let graph ← loadGraph i
  let (_, graph) ← onGraph graph (TypeGraph.names catalog none none)
  let (fs, graph) ← onGraph graph (Subprogram.allFilled catalog i.wanted rows)
  match i.directives with
  | none => return ⟨fs, graph⟩
  | some path =>
    let directives ← ofExcept (Directive.readAll (← readText path))
    return ⟨← ofExcept (Directive.applyAll fs directives), graph⟩

/-! ## Running -/

/-- The name of a package's files. -/
def fileStem (package : String) : String :=
  if package = "" then "standalone" else lower package

/-- Writes the blocks and the glue of packages. -/
def genPackages (outDir : Option String) (c : StubConfig) : List Package → ExceptT Error m Unit
  | [] => return ()
  | (package, fs) :: rest => do
    let stubs ← ofExcept (Stub.generateAll c fs)
    emit outDir (fileStem package ++ ".sql") (Stub.listing package stubs)
    emit outDir (fileStem package ++ ".rs") (Stub.moduleText c package stubs)
    genPackages outDir c rest

/-- Writes the schemas of packages. -/
def protoPackages (outDir : Option String) (c : SchemaConfig) :
    List Package → ExceptT Error m Unit
  | [] => return ()
  | (package, fs) :: rest => do
    let schema ← ofExcept (Schema.ofSubprograms c package fs)
    emit outDir (fileStem package ++ ".proto") schema.text
    protoPackages outDir c rest

/-- What a check counts. -/
structure Summary where
  packages : Nat := 0
  subprograms : Nat := 0
  /-- How many subprograms have no stub. -/
  skipped : Nat := 0
  deriving DecidableEq, Repr

/-- Counts packages, after going through what would be written for each. -/
def checkPackages : Summary → List Package → Except Error Summary
  | s, [] => .ok s
  | s, (package, fs) :: rest => do
    let stubs ← Stub.generateAll {} fs
    let _ ← Schema.ofSubprograms {} package fs
    checkPackages {
      packages := s.packages + 1
      subprograms := s.subprograms + fs.length
      skipped := s.skipped + (fs.length - stubs.length) } rest

/-- The outcome of a check; a strict one fails when anything is left out. -/
def Summary.verdict (s : Summary) (strict : Bool) : Except Error Summary :=
  if strict ∧ 0 < s.skipped then
    .error (.notSupported (toString s.skipped ++ " function(s)") .skipped)
  else .ok s

/-- Carries a command out. A check gives what it has counted. -/
def Command.run : Command → ExceptT Error m (Option Summary)
  | .gen inputs outDir config snapshot => do
    let loaded ← load inputs
    genPackages outDir config loaded.packages
    if let some path := snapshot then writeSnapshot path loaded.graph.snapshot
    return none
  | .proto inputs outDir config => do
    let loaded ← load inputs
    protoPackages outDir config loaded.packages
    return none
  | .check inputs strict => do
    let loaded ← load inputs
    return some (← ofExcept (do (← checkPackages {} loaded.packages).verdict strict))

end Running

end StoredCall
