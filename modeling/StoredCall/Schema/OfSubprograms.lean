import StoredCall.Assoc
import StoredCall.Error
import StoredCall.Name
import StoredCall.Schema

/-!
# The schema of a package

The messages of a call have the fields of the values that the call takes and gives. A record of a
named type becomes one message, shared by all its uses; any other record has a message of its own. A
table or cursor is a repeated field.

* `Argument.expressible` (`check`) refuses shapes that no message can have.
* `Argument.wire` (`field_type`) gives the type of a field and makes the messages it needs, each
  record's by `recordMessage` (`record`).
* `Schema.ofSubprograms` (`emit_proto`) is the schema of a list of subprograms.
-/

namespace StoredCall

open Text

/-- What a schema shows. -/
structure SchemaConfig where
  /-- Fields show their types in the catalog. -/
  catalogTypes : Bool := true
  /-- Calls that give cursors are streams. -/
  streamCursors : Bool := true
  /-- The package of the file, where it is not made from the catalog's. -/
  package : Option String := none
  deriving Repr

/-! ## Shapes without a message -/

mutual

/-- Refuses an argument that no field can hold. -/
def Argument.expressible (label : String) (inElement : Bool) : Argument → Except Error Unit
  | ⟨name, _, _, shape⟩ => shape.expressible label name inElement

/-- Refuses a shape that no field can have. -/
def Shape.expressible (label name : String) (inElement : Bool) : Shape → Except Error Unit
  | .scalar _ => .ok ()
  | .record _ [] => .error (.notSupported label (.emptyRecord name))
  | .record _ (f :: rest) => expressibleAll label (f :: rest)
  | .table _ elem _ _ =>
    if inElement then .error (.notSupported label .nestedCollection)
    else expressibleElement label name elem

/-- Refuses arguments that no field can hold, the first of them first. -/
def expressibleAll (label : String) : List Argument → Except Error Unit
  | [] => .ok ()
  | a :: rest => do
    a.expressible label false
    expressibleAll label rest

/-- Refuses an element that no repeated field can hold. -/
def expressibleElement (label name : String) : Option Argument → Except Error Unit
  | none => .error (.missingElementType label name)
  | some elem => elem.expressible label true

end

/-! ## Making messages -/

/-- What has been made so far. -/
structure Emission where
  /-- The names of messages. -/
  used : List String := []
  /-- The messages of named record types. -/
  records : List (String × String) := []
  messages : List Message := []
  /-- Whether a field is a timestamp. -/
  timestamp : Bool := false

/-- A step of making messages. -/
abbrev Emit (α : Type) := StateM Emission α

/-- A name for a message that no other has. -/
def messageName (base : String) : Emit String :=
  modifyGet fun e =>
    let name := freshNameWith "" e.used (pascal base)
    (name, { e with used := name :: e.used })

/-- Adds a message. -/
def addMessage (m : Message) : Emit Unit :=
  modify fun e => { e with messages := e.messages ++ [m] }

/-- Drops the mark of row types from the end, as often as it stands there. -/
def dropRowMarks (name : List Char) : List Char :=
  match dropEnd? rowMark.toList name with
  | none => name
  | some rest => if rest.length < name.length then dropRowMarks rest else name
termination_by name.length

/-- The name of a type without its owner and package. -/
def simpleName (typeName : String) : String :=
  String.ofList (dropRowMarks ((pieces '.' typeName.toList).getLast?.getD []))

/-- The message of a record. That of a named type is made once, with the fields that `fields` gives
for its name. -/
def recordMessage (parent field : String) (typeName : Option String)
    (fields : String → Emit (List MessageField)) : Emit String := do
  let known := (← get).records
  match typeName.bind fun t => Assoc.get? t known with
  | some name => return name
  | none =>
    let name ← messageName (match typeName with
      | some t => simpleName t
      | none => parent ++ pascal field)
    if let some t := typeName then
      modify fun e => { e with records := Assoc.put t name e.records }
    addMessage ⟨name, ← fields name⟩
    return name

/-- The scalar type of a field. -/
def Scalar.wire (s : Scalar) : WireScalar :=
  match s.kind with
  | .int =>
    let isNarrow := ["PLS_INTEGER", "BINARY_INTEGER", "SIMPLE_INTEGER", "NATURAL", "NATURALN",
      "POSITIVE", "POSITIVEN", "SIGNTYPE"].contains s.name || s.precision.any (· ≤ 9)
    if isNarrow then .sint32 else .sint64
  | .float => .double
  | .bool => .bool
  | .decimal | .text | .clob => .string
  | .bytes | .blob => .bytes
  | .timestamp => .timestamp

/-- The type of a field that holds a scalar. A timestamp is noted, for it takes an import. -/
def scalarType (s : Scalar) : Emit FieldType :=
  modifyGet fun e =>
    (.scalar s.wire, { e with timestamp := e.timestamp || s.wire == .timestamp })

/-- The type of an argument in the catalog. -/
def Shape.catalogType : Shape → Option String
  | .scalar s => some s.text
  | .record typeName _ => typeName
  | .table typeName _ _ cursor => typeName <|> if cursor then some "REF CURSOR" else none

mutual

/-- Whether a field is repeated, and its type. -/
def Argument.wire (c : SchemaConfig) (parent field : String) : Argument → Emit (Bool × FieldType)
  | ⟨_, _, _, shape⟩ => shape.wire c parent field

/-- Whether a field of a shape is repeated, and its type. -/
def Shape.wire (c : SchemaConfig) (parent field : String) : Shape → Emit (Bool × FieldType)
  | .scalar s => do return (false, ← scalarType s)
  | .record typeName fields => do
    let name ← recordMessage parent field typeName fun name =>
      wireFields c name 1 (fieldNames (fields.map Argument.name)) fields
    return (false, .message name)
  | .table _ none _ _ => return (true, .unspecified)
  | .table _ (some elem) _ _ => do return (true, ← elem.wireElement c parent field)

/-- The type of a repeated field. -/
def Argument.wireElement (c : SchemaConfig) (parent field : String) : Argument → Emit FieldType
  | ⟨_, _, _, .scalar s⟩ => scalarType s
  | ⟨_, _, _, .record typeName fields⟩ => do
    let name ← recordMessage parent field typeName fun name =>
      wireFields c name 1 (fieldNames (fields.map Argument.name)) fields
    return .message name
  | ⟨_, _, _, .table ..⟩ => return .unspecified

/-- The fields of the message `parent`, which go by the given names, numbered from `number` on. -/
def wireFields (c : SchemaConfig) (parent : String) :
    (number : Nat) → (names : List String) → List Argument → Emit (List MessageField)
  | _, _, [] => return []
  | number, names, a :: rest => do
    let name := names.headD ""
    let (isRepeated, type) ← a.wire c parent name
    let more ← wireFields c parent (number + 1) names.tail rest
    let catalogType := if c.catalogTypes then a.shape.catalogType else none
    return { isRepeated, type, name, number, catalogType } :: more

end

/-! ## Calls -/

/-- Arguments under their field names. -/
abbrev Named := List (String × Argument)

/-- The arguments that a request has. -/
def Subprogram.requestFields (f : Subprogram) : Named :=
  (f.argFields.zip f.args).filter fun (_, a) => a.direction.isInput

/-- The return value and the arguments that a response has. -/
def Subprogram.responseFields (f : Subprogram) : Named :=
  f.retField.toList.zip f.returns.toList
    ++ (f.argFields.zip f.args).filter fun (_, a) => a.direction.isOutput

/-- Makes the message of a request or response. -/
def callMessage (c : SchemaConfig) (name : String) (fields : Named) : Emit Unit := do
  addMessage ⟨name, ← wireFields c name 1 (fields.map Prod.fst) (fields.map Prod.snd)⟩

/-- Makes the call of a subprogram and its messages. -/
def Subprogram.wire (c : SchemaConfig) (f : Subprogram) : Emit Rpc := do
  let name := pascal f.ident
  let input ← messageName (name ++ "Input")
  let output ← messageName (name ++ "Output")
  callMessage c input f.requestFields
  callMessage c output f.responseFields
  return { name, input, output, isStream := c.streamCursors && f.streams }

/-- Refuses a subprogram with an argument or return value that no field can hold. -/
def Subprogram.expressible (f : Subprogram) : Except Error Unit :=
  expressibleAll f.text (f.args ++ f.returns.toList)

namespace Schema

/-- Makes the calls of those subprograms that can be expressed. -/
def calls (c : SchemaConfig) : List Subprogram → ExceptT Error (StateM Emission) (List Rpc)
  | [] => return []
  | f :: rest => do
    match f.expressible with
    | .ok () =>
      let rpc ← f.wire c
      let more ← calls c rest
      return rpc :: more
    | .error e => if e.isSkippable then calls c rest else throw e

/-- The schema of a package with the given subprograms. -/
def ofSubprograms (c : SchemaConfig) (package : String) (fs : List Subprogram) :
    Except Error Schema := do
  let (rpcs, e) := (calls c fs).run {}
  return {
    package := c.package.getD (snake package)
    service := pascal package
    rpcs := ← rpcs
    messages := e.messages
    importsTimestamp := e.timestamp }

end Schema

end StoredCall
