import StoredCall.Command

/-!
# The program

Carries out a command line on the files of the machine. What is generated goes to the standard
output or into files, and what went wrong to the standard error.
-/

namespace StoredCall

/-- The fault behind an error of the system; other errors are thrown on. -/
def faultOf : IO.Error → IO FileFault
  | .noFileOrDirectory .. => return .notFound
  | .alreadyExists .. => return .alreadyExists
  | .inappropriateType _ 21 _ => return .isADirectory
  | .inappropriateType .. => return .notADirectory
  | e => throw e

/-- The outcome of an operation on the files of the machine. -/
def attempt {α : Type} (x : IO α) : IO (Except FileFault α) :=
  try return .ok (← x) catch e => return .error (← faultOf e)

/-- The rest of the standard input. -/
partial def restOfInput (stream : IO.FS.Stream) (before : ByteArray) : IO ByteArray := do
  let more ← stream.read 65536
  if more.isEmpty then return before else restOfInput stream (before ++ more)

instance : Workspace IO where
  readFile path := attempt do return (← IO.FS.readBinFile path).toList
  readInput := do return (← restOfInput (← IO.getStdin) .empty).toList
  writeFile path content := attempt (IO.FS.writeBinFile path ⟨content.toArray⟩)
  makeDirs path := attempt (IO.FS.createDirAll path)
  print s := IO.print s

/-- Carries out a request and gives the exit code. -/
def Request.perform (r : Request) : IO UInt32 := do
  match ← r.command.run.run with
  | .ok _ => return 0
  | .error e =>
    IO.eprintln ("error: " ++ e.message)
    return 1

end StoredCall

open StoredCall in
/-- Reads the command line and carries it out. -/
def main (args : List String) : IO UInt32 := do
  match Request.parse args with
  | .ok r => r.perform
  | .error .help =>
    IO.println UsageError.help.message
    return 0
  | .error e =>
    IO.eprintln ("error: " ++ e.message)
    return e.exitCode.toUInt32
