import StoredCall.Json.Reader
import StoredCall.Value.Coerce
import StoredCall.Xml

/-!
# Values as documents

A replaced call takes its whole request as one document and gives its response as another.

In JSON, values stand for themselves; bytes are Base64 text and timestamps are text. Reading sorts
the fields of every object by name, and of fields with one name the last counts.

In XML, the root element is `data`. Fields are elements of their name, elements of a list are
elements `item`, scalars are text and null is an empty element. A list carries the attribute
`list="true"`, so that an empty list, and an object whose only field is `item`, come back as
themselves. Reading gives texts for all scalars, and takes two or more elements `item` and nothing
else for a list even without the attribute.

* `Value.encode` and `Value.decode` are the two directions in either format.
-/

namespace StoredCall

namespace Value

/-! ## JSON -/

mutual

/-- The JSON form of a value. -/
def toJson : Value → Except DocumentFault Json
  | null => .ok .null
  | bool b => .ok (.bool b)
  | int i => .ok (.number (.int i.toInt))
  | float x => .ok (if x.isFinite then .number (.float x) else .null)
  | decimal s | text s => .ok (.string s)
  | bytes b => .ok (.string (String.ofList (Text.Base64.encode b)))
  | timestamp t => .ok (.string (Timestamp.text t))
  | spilled lob => .error (.spilled lob.length)
  | list xs => do return .array (← itemsToJson xs)
  | object fs => do return .object (← fieldsToJson fs)

/-- The JSON forms of elements. -/
def itemsToJson : List Value → Except DocumentFault (List Json)
  | [] => .ok []
  | v :: rest => do
    let j ← toJson v
    let js ← itemsToJson rest
    return j :: js

/-- The JSON forms of fields. -/
def fieldsToJson : List (String × Value) → Except DocumentFault (List (String × Json))
  | [] => .ok []
  | (k, v) :: rest => do
    let j ← toJson v
    let js ← fieldsToJson rest
    return (k, j) :: js

end

/-- Puts a field into a list sorted by name; one of the same name is replaced. -/
def insertField (name : String) (v : Value) : List (String × Value) → List (String × Value)
  | [] => [(name, v)]
  | (key, w) :: rest =>
    if name < key then (name, v) :: (key, w) :: rest
    else if name = key then (key, v) :: rest
    else (key, w) :: insertField name v rest

/-- The fields sorted by name; of fields with one name the last counts. -/
def sortFields (fs : List (String × Value)) : List (String × Value) :=
  fs.foldl (fun acc f => insertField f.1 f.2 acc) []

/-- A number of a JSON text: an integer, a decimal for one beyond the signed words, or a
double. -/
def ofNum : Json.Num → Value
  | .int i =>
    match Number.toInt64? i with
    | some w => int w
    | none => decimal (toString i)
  | .float x => float x

mutual

/-- The value of a JSON form. -/
def ofJson : Json → Value
  | .null => null
  | .bool b => bool b
  | .number n => ofNum n
  | .string s => text s
  | .array js => list (itemsOfJson js)
  | .object fs => object (sortFields (fieldsOfJson fs))

/-- The values of elements. -/
def itemsOfJson : List Json → List Value
  | [] => []
  | j :: rest => ofJson j :: itemsOfJson rest

/-- The values of fields, in the order of the text. -/
def fieldsOfJson : List (String × Json) → List (String × Value)
  | [] => []
  | (k, j) :: rest => (k, ofJson j) :: fieldsOfJson rest

end

/-! ## XML -/

/-- The element that holds a document. -/
def rootName : String := "data"

/-- The element that holds an element of a list. -/
def itemName : String := "item"

/-- The attribute that marks a list. -/
def listMark : String × String := ("list", "true")

/-- The text of a value that is neither null, object nor list. -/
def scalarText : Value → Except DocumentFault String
  | bool b => .ok (if b then "true" else "false")
  | int i => .ok (intText i)
  | float x => .ok (floatText x)
  | decimal s | text s => .ok s
  | bytes b => .ok (String.ofList (Text.Base64.encode b))
  | timestamp t => .ok (Timestamp.text t)
  | spilled lob => .error (.spilled lob.length)
  | null | object _ | list _ => .ok ""

/-- An opening tag. -/
def openTag (name : String) : List Char := '<' :: (name.toList ++ ['>'])

/-- A closing tag. -/
def closeTag (name : String) : List Char := '<' :: '/' :: (name.toList ++ ['>'])

/-- The name of a list's tag with the mark. -/
def markedName (name : String) : List Char :=
  name.toList ++ ' ' :: (listMark.1.toList ++ '=' :: '"' :: (listMark.2.toList ++ ['"']))

mutual

/-- The element of a name that holds a value. -/
def element (name : String) : Value → Except DocumentFault (List Char)
  | null => .ok ('<' :: (name.toList ++ ['/', '>']))
  | object fs => do
    let inside ← fieldElements fs
    return openTag name ++ inside ++ closeTag name
  | list [] => .ok ('<' :: (markedName name ++ ['/', '>']))
  | list (x :: xs) => do
    let inside ← itemElements (x :: xs)
    return '<' :: (markedName name ++ '>' :: (inside ++ closeTag name))
  | v => do
    let s ← scalarText v
    return openTag name ++ Xml.escape s.toList ++ closeTag name

/-- The elements of fields. -/
def fieldElements : List (String × Value) → Except DocumentFault (List Char)
  | [] => .ok []
  | (k, v) :: rest => do
    let e ← element k v
    let es ← fieldElements rest
    return e ++ es

/-- The elements of list elements. -/
def itemElements : List Value → Except DocumentFault (List Char)
  | [] => .ok []
  | v :: rest => do
    let e ← element itemName v
    let es ← itemElements rest
    return e ++ es

end

/-- An element that is not closed yet. Its finished children are in reverse order. -/
structure OpenElement where
  name : String
  isList : Bool
  children : List (String × Value) := []
  text : List Char := []

/-- The value of a closed element. -/
def OpenElement.value (e : OpenElement) : Value :=
  let children := e.children.reverse
  if e.isList then .list (children.map Prod.snd)
  else if children.isEmpty then
    if e.text.isEmpty then .null else .text (String.ofList e.text)
  else if 1 < children.length && children.all (fun c => c.1 == itemName) then
    .list (children.map Prod.snd)
  else .object children

/-- The elements that are open, innermost first, and the root once it is closed. -/
structure Reading where
  stack : List OpenElement := []
  root : Option Value := none

namespace Reading

/-- Adds a finished element to the one it stands in, or makes it the root. -/
def attach (r : Reading) (name : String) (v : Value) : Except DocumentFault Reading :=
  match r.stack, r.root with
  | e :: rest, _ => .ok { r with stack := { e with children := (name, v) :: e.children } :: rest }
  | [], none => .ok { r with root := some v }
  | [], some _ => .error .secondRoot

/-- Adds text to the innermost element. -/
def addText (r : Reading) (cs : List Char) : Reading :=
  match r.stack with
  | e :: rest => { r with stack := { e with text := e.text ++ cs } :: rest }
  | [] => r

/-- Takes in one piece of markup. Text outside the root does not count. -/
def step (r : Reading) : Xml.Piece → Except DocumentFault Reading
  | .start name attributes =>
    .ok { r with stack := { name, isList := attributes.contains listMark } :: r.stack }
  | .empty name attributes =>
    r.attach name (if attributes.contains listMark then .list [] else .null)
  | .text raw =>
    if r.stack.isEmpty then .ok r
    else match Xml.unescape? raw with
      | some cs => .ok (r.addText cs)
      | none => .error .malformed
  | .verbatim cs => .ok (r.addText cs)
  | .close name =>
    match r.stack with
    | e :: rest =>
      if e.name = name then { r with stack := rest }.attach name e.value else .error .malformed
    | [] => .error .malformed
  | .fault => .error .malformed

/-- Takes in pieces one after the other. -/
def run (r : Reading) : List Xml.Piece → Except DocumentFault Reading
  | [] => .ok r
  | p :: ps => do (← r.step p).run ps

/-- The value of a document that has been taken in. -/
def finish (r : Reading) : Except DocumentFault Value :=
  if !r.stack.isEmpty then .error .unclosed
  else match r.root with
    | some v => .ok v
    | none => .error .empty

end Reading

/-! ## Both formats -/

/-- The text of a document, or what is wrong with the value. -/
def write (v : Value) : BlobFormat → Except DocumentFault String
  | .json => do return (← v.toJson).compact
  | .xml => do return String.ofList (← v.element rootName)

/-- The value of a document, or what is wrong with the text. -/
def read (s : String) : BlobFormat → Except DocumentFault Value
  | .json =>
    match Json.parse? s with
    | some j => .ok (ofJson j)
    | none => .error .malformed
  | .xml => do (← Reading.run {} (Xml.scan s.toList)).finish

/-- The document of a value. -/
def encode (v : Value) (format : BlobFormat) : Except CallError String :=
  (v.write format).mapError (.document format)

/-- The value of a document. -/
def decode (s : String) (format : BlobFormat) : Except CallError Value :=
  (read s format).mapError (.document format)

end Value

end StoredCall
