import StoredCall.Text.Quoted
import StoredCall.Text.Split

/-!
# Wire schemas

A schema file describes the requests and responses of a package: one service with one call for each
subprogram, and the messages that its calls are made of. It is kept as a tree and written out at the
end.

* `Schema` is a file, `Schema.text` writes it.
* `Schema.imports` are the files that it needs, one of them for timestamps.
-/

namespace StoredCall

open Text

/-- The scalar types of a schema. -/
inductive WireScalar where
  | sint32 | sint64 | double | bool | string | bytes | timestamp
  deriving DecidableEq, Repr

/-- A scalar type as written. -/
def WireScalar.text : WireScalar → String
  | .sint32 => "sint32"
  | .sint64 => "sint64"
  | .double => "double"
  | .bool => "bool"
  | .string => "string"
  | .bytes => "bytes"
  | .timestamp => "google.protobuf.Timestamp"

/-- The type of a field. -/
inductive FieldType where
  | scalar (t : WireScalar)
  | message (name : String)
  /-- The elements of a collection that has neither scalars nor records for elements. -/
  | unspecified
  deriving DecidableEq, Repr

/-- A type as written. -/
def FieldType.text : FieldType → String
  | .scalar t => t.text
  | .message name => name
  | .unspecified => WireScalar.bytes.text

/-- A field of a message. -/
structure MessageField where
  isRepeated : Bool
  type : FieldType
  name : String
  number : Nat
  /-- The type in the catalog, where it is to be shown. -/
  catalogType : Option String
  deriving DecidableEq, Repr

/-- A message. -/
structure Message where
  name : String
  fields : List MessageField
  deriving DecidableEq, Repr

/-- A call of a service. -/
structure Rpc where
  name : String
  input : String
  output : String
  /-- Whether responses come as a stream. -/
  isStream : Bool
  deriving DecidableEq, Repr

/-- A schema file. -/
structure Schema where
  package : String
  service : String
  rpcs : List Rpc
  messages : List Message
  /-- Whether the file for timestamps is imported. -/
  importsTimestamp : Bool
  deriving DecidableEq, Repr

/-- A field as written. -/
def MessageField.text (f : MessageField) : String :=
  let shown := match f.catalogType with
    | some t => " [(catalog_type) = " ++ quoted t ++ "]"
    | none => ""
  "  " ++ (if f.isRepeated then "repeated " else "") ++ f.type.text ++ " " ++ f.name ++ " = "
    ++ toString f.number ++ shown ++ ";\n"

/-- A message as written. -/
def Message.text (m : Message) : String :=
  "message " ++ m.name ++ " \x7b\n" ++ String.join (m.fields.map MessageField.text) ++ "\x7d\n"

/-- A call as written. -/
def Rpc.text (r : Rpc) : String :=
  "  rpc " ++ r.name ++ " (" ++ r.input ++ ") returns (" ++ (if r.isStream then "stream " else "")
    ++ r.output ++ ") \x7b\x7d\n"

namespace Schema

/-- The number of the field option that shows a type in the catalog. -/
def catalogTypeOption : Nat := 50501

/-- The imports of a file. -/
def imports (s : Schema) : List String :=
  "google/protobuf/descriptor.proto"
    :: if s.importsTimestamp then ["google/protobuf/timestamp.proto"] else []

/-- A file as written. -/
def text (s : Schema) : String :=
  "syntax = \"proto3\";\n\npackage " ++ s.package ++ ";\n\n"
    ++ String.join (s.imports.map fun i => "import \"" ++ i ++ "\";\n")
    ++ "\nextend google.protobuf.FieldOptions \x7b\n  string catalog_type = "
    ++ toString catalogTypeOption ++ ";\n\x7d\n\nservice " ++ s.service ++ " \x7b\n"
    ++ String.join (s.rpcs.map Rpc.text) ++ "\x7d\n"
    ++ String.join (s.messages.map fun m => "\n" ++ m.text)

end Schema

end StoredCall
