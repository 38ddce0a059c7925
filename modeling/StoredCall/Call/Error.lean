import StoredCall.Scalar
import StoredCall.Subprogram

/-!
# Failures of a call

Each way a call can fail is a constructor of `CallError`; `CallError.message` is its wording.
-/

namespace StoredCall

/-- What a value should have been. -/
inductive Expected where
  | kind (k : Kind)
  | valuePath
  | list
  | lob
  | cursor
  | utf8Text
  | rowValues
  deriving DecidableEq, Repr

/-- The word for a kind of value in messages. -/
def Kind.word : Kind → String
  | .int => "integer"
  | .decimal => "decimal"
  | .float => "float"
  | .bool => "bool"
  | .text => "text"
  | .bytes => "bytes"
  | .timestamp => "timestamp"
  | .clob => "clob"
  | .blob => "blob"

/-- The words for what a value should have been. -/
def Expected.text : Expected → String
  | .kind k => k.word
  | .valuePath => "value path"
  | .list => "list"
  | .lob => "lob"
  | .cursor => "cursor"
  | .utf8Text => "utf-8 text"
  | .rowValues => "one value per column"

/-- What is wrong with a document, or with a value that should be written into one. -/
inductive DocumentFault where
  /-- A spilled large object of the given length cannot stand inside a document. -/
  | spilled (length : Nat)
  | secondRoot
  | unclosed
  | empty
  /-- A value of the named form is no document. -/
  | unexpected (found : String)
  | malformed
  deriving DecidableEq, Repr

/-- The name of a document format in messages. -/
def BlobFormat.word : BlobFormat → String
  | .json => "Json"
  | .xml => "Xml"

/-- What is said about a faulty document. -/
def DocumentFault.text (format : BlobFormat) : DocumentFault → String
  | .spilled length =>
    "spilled LOB of " ++ toString length ++ " bytes cannot be "
      ++ (match format with
        | .json => "serialized inline"
        | .xml => "inlined")
  | .secondRoot => "more than one root element"
  | .unclosed => "unclosed element"
  | .empty => "empty document"
  | .unexpected found => "unexpected " ++ found
  | .malformed => "malformed document"

/-- What is wrong with a bind. -/
inductive BindFault where
  /-- It copies a slot that does not come before its own. -/
  | notBuilt (slot : Nat)
  /-- It takes no output. -/
  | notOutput
  deriving DecidableEq, Repr

/-- What is said about a faulty bind. -/
def BindFault.text : BindFault → String
  | .notBuilt slot => "copies slot " ++ toString slot ++ ", which is not built yet"
  | .notOutput => "not an output"

/-- A failure of a call. -/
inductive CallError where
  | convert (path : String) (expected : Expected) (found : String)
  | driver
  | bind (index : Nat) (fault : BindFault)
  | cancelled
  | deadlineExceeded
  | document (format : BlobFormat) (fault : DocumentFault)
  | file
  /-- A size has no successor among the machine's words. -/
  | overflow
  deriving DecidableEq, Repr

/-- What is said about a failure. -/
def CallError.message : CallError → String
  | .convert path expected found => path ++ ": expected " ++ expected.text ++ ", found " ++ found
  | .driver => "driver error"
  | .bind index fault => "bind " ++ toString index ++ ": " ++ fault.text
  | .cancelled => "call cancelled"
  | .deadlineExceeded => "deadline exceeded"
  | .document format fault => format.word ++ " blob: " ++ fault.text format
  | .file => "file error"
  | .overflow => "attempt to add with overflow"

end StoredCall
