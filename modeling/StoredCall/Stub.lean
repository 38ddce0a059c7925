import StoredCall.Stub.Glue
import StoredCall.Stub.Lower

/-!
# Stubs

A stub is what is generated for one subprogram: a call plan and its glue. The stubs of a package are
written as a module of glue and as a listing of blocks.

* `Stub.generate` makes a stub; identifiers are shared with the stubs made before.
* `Stub.generateAll` (`generate_all`) leaves out subprograms that cannot be represented.
* `Stub.moduleText` (`render_module`) and `Stub.listing` (`render_sql`) are the two files of a
  package.
-/

namespace StoredCall

/-- Limits of generated stubs. -/
structure StubConfig where
  /-- How many elements an array holds where a subprogram does not say. -/
  maxTableSize : Nat := 512
  cursorBatchSize : Nat := 128
  lobSpillThreshold : Nat := 1048576
  /-- Where the glue finds what it calls. -/
  runtimePath : String := "plcall_runtime"
  deriving Repr

namespace StubConfig

/-- Sets the size of tables, which is at least one. -/
def withMaxTableSize (c : StubConfig) (n : Nat) : StubConfig := { c with maxTableSize := max n 1 }

/-- Sets the size of batches, which is at least one. -/
def withCursorBatchSize (c : StubConfig) (n : Nat) : StubConfig :=
  { c with cursorBatchSize := max n 1 }

/-- The limits of collecting. -/
def limits (c : StubConfig) : Limits := ⟨c.cursorBatchSize, c.lobSpillThreshold⟩

end StubConfig

/-- What is generated for a subprogram. -/
structure Stub where
  subprogram : Subprogram
  plan : Plan
  glue : String

namespace Stub

/-- The plan of a block and its slots. -/
def planOf (c : StubConfig) (f : Subprogram) (block : Block) (slots : List Slot) : Plan where
  function := f.qualifiedName
  ident := f.ident
  block := block.text
  slots := slots
  cursorBatchSize := c.cursorBatchSize
  lobSpillThreshold := c.lobSpillThreshold

/-- The glue of a plan. -/
def glueOf (c : StubConfig) (p : Plan) : String := (Glue.ofPlan c.limits p).text

/-- Makes the stub of a subprogram. -/
def generate (c : StubConfig) (f : Subprogram) : ExceptT Error (StateM Names) Stub := do
  let (block, slots) ← f.lower c.maxTableSize
  let plan := planOf c f block slots
  return { subprogram := f, plan, glue := glueOf c plan }

/-- Makes the stubs of those subprograms that can be represented. -/
def generateEach (c : StubConfig) : List Subprogram → ExceptT Error (StateM Names) (List Stub)
  | [] => return []
  | f :: rest => do
    let stub ← tryCatch (do return some (← generate c f))
      (fun e => if e.isSkippable then return none else throw e)
    let more ← generateEach c rest
    return stub.toList ++ more

/-- Makes the stubs of those subprograms that can be represented, with identifiers of their own. -/
def generateAll (c : StubConfig) (fs : List Subprogram) : Except Error (List Stub) :=
  ((generateEach c fs).run []).1

/-- The module of glue of a package. -/
def moduleText (c : StubConfig) (package : String) (stubs : List Stub) : String :=
  "//! Generated by plcall for package " ++ package ++ ". Do not edit.\n\n"
    ++ "#![allow(unused_imports, unused_mut)]\n\n"
    ++ "use " ++ c.runtimePath ++ "::\x7bBlobFormat, CallOptions, Executor, Response, Result, "
    ++ "ScalarKind, Value, marshal\x7d;\n"
    ++ String.join (stubs.map fun s => "\n" ++ s.glue)

/-- The line of a slot in a listing. -/
def slotLine (slot : Slot) : String :=
  "--   :" ++ toString slot.position ++ " " ++ slot.direction.text ++ " "
    ++ (if slot.path.isEmpty then "<request>" else slot.path.text) ++ "\n"

/-- The part of a listing for one stub. -/
def blockListing (s : Stub) : String :=
  "\n-- " ++ s.subprogram.text ++ " (" ++ s.plan.ident ++ ")\n"
    ++ String.join (s.plan.slots.map slotLine) ++ s.plan.block ++ "/\n"

/-- The listing of the blocks of a package. -/
def listing (package : String) (stubs : List Stub) : String :=
  "-- Generated by plcall for package " ++ package ++ ". Do not edit.\n"
    ++ String.join (stubs.map blockListing)

end Stub

end StoredCall
