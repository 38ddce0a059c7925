import StoredCall.Subprogram
import StoredCall.Text.Utf8

/-!
# Failures of reading, resolving and generating

Each way these can fail is a constructor, with what it is about; `Error.message` is the wording.
A failure that concerns one type or one subprogram alone is skippable: a run over many of them
leaves that one out and goes on.
-/

namespace StoredCall

open Text

/-- Why a type or a subprogram is not supported. -/
inductive Unsupported where
  | noParts
  | indexedBy (type : String)
  | recursiveType
  | emptyRecord (argument : String)
  | nestedCollection
  | undeclaredArgument (argument : String)
  | undeclaredTable (argument : String)
  | cursorNotOutput (argument : String)
  | cursorAsInput (argument : String)
  | cursorInside (argument : String)
  | replacementShape (replacement : String)
  | skipped
  deriving DecidableEq, Repr

/-- The words for why something is not supported. -/
def Unsupported.text : Unsupported → String
  | .noParts => "catalog lists no attributes, element or columns"
  | .indexedBy type => "collection indexed by " ++ type
  | .recursiveType => "recursive type cannot be passed as an argument"
  | .emptyRecord argument => "record " ++ quoted argument ++ " has no fields"
  | .nestedCollection => "collection nested inside a collection element"
  | .undeclaredArgument argument => "argument " ++ quoted argument ++ " has no declared type"
  | .undeclaredTable argument => "nested table " ++ quoted argument ++ " has no declared type"
  | .cursorNotOutput argument => "REF CURSOR " ++ quoted argument ++ " must be an output"
  | .cursorAsInput argument => "REF CURSOR " ++ quoted argument ++ " cannot be an input"
  | .cursorInside argument => "REF CURSOR " ++ quoted argument ++ " inside a composite"
  | .replacementShape replacement =>
    "replacement " ++ replacement ++ " must take one scalar input and produce one scalar output"
  | .skipped => "skipped under --strict"

/-- Why catalog rows do not fit together. -/
inductive Inconsistency where
  | badDirection (package object argument : String) (direction : Direction.Unknown)
  | noOpenParent (label argument : String) (level : Nat)
  | secondReturn (label : String)
  | secondElement (label argument : String)
  | elementRows (type : String) (count : Nat)
  | unknownTypecode (type code : String)
  deriving DecidableEq, Repr

/-- The words for why catalog rows do not fit together. -/
def Inconsistency.text : Inconsistency → String
  | .badDirection package object argument direction =>
    package ++ "." ++ object ++ " argument " ++ quoted argument ++ ": " ++ direction.message
  | .noOpenParent label argument level =>
    label ++ ": argument " ++ quoted argument ++ " at level " ++ toString level
      ++ " has no open parent"
  | .secondReturn label => label ++ ": more than one return value"
  | .secondElement label argument =>
    label ++ ": table " ++ quoted argument ++ " has more than one element"
  | .elementRows type count =>
    "collection " ++ type ++ " has " ++ toString count ++ " element rows"
  | .unknownTypecode type code => "type " ++ type ++ ": unknown typecode " ++ quoted code

/-- What is wrong with a directive. -/
inductive DirectiveFault where
  | noTarget (line : String)
  | emptyOperand (line : String)
  | missingOperand (directive operand : String)
  | extraOperand
  | badSize (text : String)
  | unknown (directive : String)
  | noReplacement (target : String)
  deriving DecidableEq, Repr

/-- What is said about a faulty directive. -/
def DirectiveFault.text : DirectiveFault → String
  | .noTarget line => quoted line ++ " has no target"
  | .emptyOperand line => quoted line ++ " has an empty operand"
  | .missingOperand directive operand => directive ++ " needs `=>" ++ operand ++ "`"
  | .extraOperand => "private takes no `=>` operand"
  | .badSize text => "invalid table size " ++ quoted text
  | .unknown directive => "unknown directive " ++ quoted directive
  | .noReplacement target => "replacement " ++ target ++ " not found"

/-- What is wrong with a record of a data file. -/
inductive RecordFault where
  /-- The record has another number of fields than the header. -/
  | unequalLengths (header found : Nat)
  /-- The value of a column is no number of its range. -/
  | badNumber (column : Nat)
  /-- A column is missing, or stands there twice. -/
  | badColumns
  deriving DecidableEq, Repr

/-- Why a file cannot be read or written. -/
inductive FileFault where
  | notFound
  | invalidData
  | alreadyExists
  | notADirectory
  | isADirectory
  /-- A path holds a null character. -/
  | nullInPath
  /-- A path, or a name in it, is too long. -/
  | nameTooLong
  deriving DecidableEq, Repr

/-- What is said about a file that cannot be read or written. -/
def FileFault.text : FileFault → String
  | notFound => "no such file or directory"
  | invalidData => "not valid UTF-8"
  | alreadyExists => "file exists"
  | notADirectory => "not a directory"
  | isADirectory => "is a directory"
  | nullInPath => "null character in a path"
  | nameTooLong => "file name too long"

/-- A failure of reading, resolving or generating. -/
inductive Error where
  | unknownType (name : String)
  | notSupported (name : String) (reason : Unsupported)
  | missingElementType (subprogram argument : String)
  | inconsistent (reason : Inconsistency)
  | query (text : String)
  | directive (line : Nat) (fault : DirectiveFault)
  | record (number : Nat) (fault : RecordFault)
  | file (fault : FileFault)
  | snapshot
  deriving DecidableEq, Repr

namespace Error

/-- What is said about a failure. -/
def message : Error → String
  | unknownType name => "unknown type: " ++ name
  | notSupported name reason => name ++ ": not supported: " ++ reason.text
  | missingElementType subprogram argument =>
    subprogram ++ ": table argument " ++ quoted argument ++ " has no element type"
  | inconsistent reason => "inconsistent catalog rows: " ++ reason.text
  | query text => "catalog query " ++ quoted text ++ " failed"
  | directive line fault => "directive line " ++ toString line ++ ": " ++ fault.text
  | record number _ => "catalog rows: record " ++ toString number
  | file fault => fault.text
  | snapshot => "type snapshot"

/-- A failure that concerns one type or one subprogram alone. -/
def isSkippable : Error → Bool
  | unknownType _ | notSupported .. | missingElementType .. => true
  | _ => false

end Error

/-- The text of a file of the given bytes. -/
def textOfBytes (bytes : List UInt8) : Except Error String :=
  match utf8? bytes with
  | some s => .ok s
  | none => .error (.file .invalidData)

end StoredCall
