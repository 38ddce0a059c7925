import StoredCall.Number.Digits
import StoredCall.Schema.OfSubprograms
import StoredCall.Stub
import StoredCall.Subprogram.OfRows

/-!
# The command line

A command line has options, a command, and options of the command around the path of the rows to
read. Options have a long name and some a short one; short ones can be written in one word, and a
value can be joined to its option. What follows a double dash is no option.

Values are looked at late: a value is checked when the next option or path that makes sense comes,
or at the end. So an unknown option is noticed before a bad value in front of it.

* `Opt` is an option, `Opt.form` says what it takes.
* `UsageError` is what can be wrong with a command line.
* `Request.parse` reads a command line into a `Request`.
-/

namespace StoredCall

open Text

/-! ## Options -/

/-- The options, and the path of rows. -/
inductive Opt where
  | rows | directives | types | snapshot | owner | only | skip
  | outDir | maxTableSize | batchSize | lobSpill | runtimePath | writeSnapshot
  | protoPackage | unary | noCatalogTypes | strict | verbose | help
  deriving DecidableEq, Repr

/-- What a value must be. -/
inductive ValueForm where
  /-- A path, which is not empty. -/
  | path
  | text
  /-- A word of the machine. -/
  | size
  deriving DecidableEq, Repr

/-- What an option takes. -/
inductive OptForm where
  /-- Nothing; it can be given once. -/
  | flag
  /-- Nothing; it can be given again. -/
  | count
  /-- Nothing; it asks for help. -/
  | help
  /-- A value; it can be given once. -/
  | single (form : ValueForm)
  /-- A value; it can be given again. -/
  | repeated (form : ValueForm)
  deriving DecidableEq, Repr

namespace Opt

/-- What an option takes. -/
def form : Opt → OptForm
  | rows | directives | types | snapshot | outDir | writeSnapshot => .single .path
  | owner | runtimePath | protoPackage => .single .text
  | only | skip => .repeated .text
  | maxTableSize | batchSize | lobSpill => .single .size
  | unary | noCatalogTypes | strict => .flag
  | verbose => .count
  | help => .help

/-- The long name of an option. -/
def long : Opt → Option String
  | rows => none
  | directives => some "directives"
  | types => some "types"
  | snapshot => some "snapshot"
  | owner => some "owner"
  | only => some "only"
  | skip => some "skip"
  | outDir => some "out-dir"
  | maxTableSize => some "max-table-size"
  | batchSize => some "batch-size"
  | lobSpill => some "lob-spill"
  | runtimePath => some "runtime-path"
  | writeSnapshot => some "write-snapshot"
  | protoPackage => some "proto-package"
  | unary => some "unary"
  | noCatalogTypes => some "no-catalog-types"
  | strict => some "strict"
  | verbose => some "verbose"
  | help => some "help"

/-- The short name of an option. -/
def short : Opt → Option Char
  | directives => some 'd'
  | types => some 't'
  | only => some 'p'
  | outDir => some 'o'
  | verbose => some 'v'
  | help => some 'h'
  | _ => none

end Opt

/-- The commands. -/
inductive CommandName where
  | gen | proto | check
  deriving DecidableEq, Repr

namespace CommandName

/-- The command of a name. -/
def ofText? : String → Option CommandName
  | "gen" => some .gen
  | "proto" => some .proto
  | "check" => some .check
  | _ => none

/-- The options of all commands. -/
def shared : List Opt :=
  [.directives, .types, .snapshot, .owner, .only, .skip, .verbose, .help]

/-- The options of a command. -/
def opts : CommandName → List Opt
  | .gen =>
    [.outDir, .maxTableSize, .batchSize, .lobSpill, .runtimePath, .writeSnapshot] ++ shared
  | .proto => [.outDir, .protoPackage, .unary, .noCatalogTypes] ++ shared
  | .check => .strict :: shared

end CommandName

/-! ## What can be wrong -/

/-- Why a command line is not carried out. -/
inductive UsageError where
  | help
  /-- Nothing was asked for. -/
  | nothingAsked
  | missingCommand
  | invalidCommand
  | unknownArgument
  | missingArgument
  /-- A value is missing, or empty where it must not be. -/
  | invalidValue
  /-- A value is no number of its range. -/
  | badValue
  /-- An option was given twice that can be given once. -/
  | conflict
  /-- A value was joined to an option that takes none. -/
  | unneededValue
  deriving DecidableEq, Repr

/-- What is said about a command line that is not carried out. -/
def UsageError.message : UsageError → String
  | .help | .nothingAsked =>
    "usage: plcall [-v] gen|proto|check [-d FILE] [-t FILE] [-p NAME] [-o DIR] [OPTION]... ROWS"
  | .missingCommand => "a command is needed: gen, proto or check"
  | .invalidCommand => "unrecognized command"
  | .unknownArgument => "unexpected argument"
  | .missingArgument => "the path of the argument rows is needed"
  | .invalidValue => "an option has no value"
  | .badValue => "a value is not a number in range"
  | .conflict => "an option is given more than once"
  | .unneededValue => "a value is given to an option that takes none"

/-- The exit code of a command line that is not carried out. -/
def UsageError.exitCode : UsageError → Nat
  | .help => 0
  | _ => 2

/-! ## Words -/

/-- What a word of a command line looks like. -/
inductive Word where
  | doubleDash
  /-- A long option, and a value joined to it. -/
  | long (name : String) (value : Option String)
  /-- Short options, at least one. -/
  | short (letters : List Char)
  | plain (text : String)
  deriving DecidableEq, Repr

/-- What a word looks like; a single dash is plain. -/
def Word.of (s : String) : Word :=
  match s.toList with
  | ['-', '-'] => .doubleDash
  | '-' :: '-' :: rest =>
    match cutAt? ['='] rest with
    | some (name, value) => .long (String.ofList name) (some (String.ofList value))
    | none => .long (String.ofList rest) none
  | '-' :: c :: rest => .short (c :: rest)
  | _ => .plain s

/-! ## Scanning -/

/-- What has been read so far. -/
structure Scan where
  /-- Options and values that have been checked, in order. -/
  given : List (Opt × String) := []
  /-- An option whose value is awaited, or not checked yet. -/
  pending : Option (Opt × Option String) := none

namespace Scan

/-- Whether an option was given. -/
def has (s : Scan) (o : Opt) : Bool := s.given.any fun g => g.1 = o

/-- Whether an option or path was given, checked or not. -/
def hasSeen (s : Scan) (o : Opt) : Bool := s.has o || s.pending.any fun p => p.1 = o

/-- The last value of an option. -/
def value? (s : Scan) (o : Opt) : Option String :=
  (s.given.filter fun g => g.1 = o).getLast?.map Prod.snd

/-- All values of an option. -/
def values (s : Scan) (o : Opt) : List String :=
  (s.given.filter fun g => g.1 = o).map Prod.snd

/-- A value as a number. -/
def size? (s : Scan) (o : Opt) : Option Nat :=
  (s.value? o).bind fun v => Number.readWord? v.toList

/-- Checks a value. -/
def checkValue : ValueForm → String → Except UsageError Unit
  | .path, v => if v = "" then .error .invalidValue else .ok ()
  | .text, _ => .ok ()
  | .size, v => if (Number.readWord? v.toList).isSome then .ok () else .error .badValue

/-- Takes an option with its value, checked. -/
def accept (s : Scan) (o : Opt) (v : String) : Except UsageError Scan := do
  match o.form with
  | .single form =>
    if s.has o then throw .conflict
    checkValue form v
  | .repeated form => checkValue form v
  | .flag => if s.has o then throw .conflict
  | .count => pure ()
  | .help => throw .help
  return { s with given := s.given ++ [(o, v)] }

/-- Checks what is not checked yet. -/
def settle (s : Scan) : Except UsageError Scan :=
  match s.pending with
  | none => .ok s
  | some (_, none) => .error .invalidValue
  | some (o, some v) => { s with pending := none }.accept o v

/-- Takes an option, perhaps with a value joined to it. -/
def takeOpt (s : Scan) (o : Opt) (joined : Option String) : Except UsageError Scan := do
  match o.form, joined with
  | .single _, none | .repeated _, none =>
    return { ← s.settle with pending := some (o, none) }
  | .single _, some v | .repeated _, some v => (← s.settle).accept o v
  | .flag, none | .count, none | .help, none => (← s.settle).accept o ""
  | .flag, some _ | .count, some _ | .help, some _ => throw .unneededValue

/-- Takes short options in one word. What follows one that takes a value is its value, after an
equals sign or without. -/
def takeShort (opts : List Opt) (s : Scan) : List Char → Except UsageError Scan
  | [] => .ok s
  | c :: rest =>
    match opts.find? fun o => o.short = some c with
    | none => .error .unknownArgument
    | some o =>
      match o.form with
      | .single _ | .repeated _ =>
        let joined := match rest with
          | [] => none
          | '=' :: v => some v
          | v => some v
        s.takeOpt o (joined.map String.ofList)
      | _ => do takeShort opts (← s.takeOpt o none) rest

/-- Takes a path. -/
def takePath (s : Scan) (path : String) : Except UsageError Scan := do
  if s.hasSeen .rows then throw .unknownArgument
  return { ← s.settle with pending := some (.rows, some path) }

/-- Takes a word that is not after a double dash. -/
def takeWord (opts : List Opt) (s : Scan) : Word → Except UsageError Scan
  | .doubleDash => .ok s
  | .long name value =>
    match opts.find? fun o => o.long = some name with
    | none => .error .unknownArgument
    | some o => s.takeOpt o value
  | .short letters => s.takeShort opts letters
  | .plain v =>
    match s.pending with
    | some (o, none) => .ok { s with pending := some (o, some v) }
    | _ => s.takePath v

/-- Takes the words of a command, up to the end. -/
def takeAll (opts : List Opt) : (afterDash : Bool) → Scan → List String → Except UsageError Scan
  | _, s, [] => s.settle
  | true, s, v :: rest => do takeAll opts true (← s.takePath v) rest
  | false, s, v :: rest => do
    let word := Word.of v
    takeAll opts (word = .doubleDash) (← s.takeWord opts word) rest

/-- Reads the words of a command. -/
def ofWords (command : CommandName) (words : List String) : Except UsageError Scan := do
  let s ← takeAll command.opts false {} words
  if s.has .rows then return s else throw .missingArgument

end Scan

/-! ## Requests -/

/-- Where a command reads from. -/
structure Inputs where
  rows : String
  directives : Option String
  types : Option String
  snapshot : Option String
  owner : String
  wanted : Selection

/-- A command with its options. -/
inductive Command where
  | gen (inputs : Inputs) (outDir : Option String) (config : StubConfig)
      (writeSnapshot : Option String)
  | proto (inputs : Inputs) (outDir : Option String) (config : SchemaConfig)
  | check (inputs : Inputs) (strict : Bool)

/-- What a command line asks for. -/
structure Request where
  /-- How much is to be logged. -/
  verbosity : Nat
  command : Command

namespace Request

/-- The inputs of a command. -/
def inputs (s : Scan) : Inputs where
  rows := (s.value? .rows).getD "-"
  directives := s.value? .directives
  types := s.value? .types
  snapshot := s.value? .snapshot
  owner := (s.value? .owner).getD "PUBLIC"
  wanted := .of (s.values .only) (s.values .skip)

/-- The limits of stubs. -/
def stubConfig (s : Scan) : StubConfig :=
  let c : StubConfig := {}
  let c := match s.size? .maxTableSize with
    | some n => c.withMaxTableSize n
    | none => c
  let c := match s.size? .batchSize with
    | some n => c.withCursorBatchSize n
    | none => c
  { c with
    lobSpillThreshold := (s.size? .lobSpill).getD c.lobSpillThreshold
    runtimePath := (s.value? .runtimePath).getD c.runtimePath }

/-- What a schema shows. -/
def schemaConfig (s : Scan) : SchemaConfig where
  streamCursors := !s.has .unary
  catalogTypes := !s.has .noCatalogTypes
  package := s.value? .protoPackage

/-- The command of a name with the options that were given. -/
def commandOf (s : Scan) : CommandName → Command
  | .gen => .gen (inputs s) (s.value? .outDir) (stubConfig s) (s.value? .writeSnapshot)
  | .proto => .proto (inputs s) (s.value? .outDir) (schemaConfig s)
  | .check => .check (inputs s) (s.has .strict)

/-- Reads the words after a command. How much is to be logged is said with the command, or else
before it. -/
def ofCommand (before : Nat) (name : CommandName) (words : List String) :
    Except UsageError Request := do
  let s ← Scan.ofWords name words
  let own := (s.values .verbose).length
  return { verbosity := if 0 < own then own else before, command := commandOf s name }

/-- Help on a command, or on help itself. -/
def askHelp : List String → UsageError
  | [] => .help
  | [topic] =>
    if (CommandName.ofText? topic).isSome ∨ topic = "help" then .help else .invalidCommand
  | _ => .invalidCommand

/-- Reads the words before a command. -/
def parseFrom : (afterDash : Bool) → Scan → List String → Except UsageError Request
  | _, s, [] => .error (if s.has .verbose then .missingCommand else .nothingAsked)
  | true, _, v :: _ =>
    .error (if (CommandName.ofText? v).isSome ∨ v = "help" then .unknownArgument
      else .invalidCommand)
  | false, s, v :: rest =>
    match CommandName.ofText? v with
    | some name => ofCommand (s.values .verbose).length name rest
    | none =>
      if v = "help" then .error (askHelp rest)
      else match Word.of v with
        | .plain _ => .error .invalidCommand
        | word => do
          let s ← s.takeWord [.verbose, .help] word
          parseFrom (word = .doubleDash) s rest

/-- Reads a command line. -/
def parse (words : List String) : Except UsageError Request := parseFrom false {} words

/-- The level of logging. -/
def logLevel (r : Request) : String :=
  match r.verbosity with
  | 0 => "info"
  | 1 => "debug"
  | _ => "trace"

end Request

end StoredCall
