import StoredCall.Json.Reader
import StoredCall.TypeGraph

/-!
# Snapshots

The resolved types of a graph can be kept in a file and given to a later run, as JSON for people or
in a compact binary form.

* `Snapshot` is the types in order, one under each key.
* `Snapshot.toJson` (`to_json`) and `Snapshot.ofJson?` (`from_json`) are the two directions of the
  JSON form. Reading passes over fields it does not know, whether or not they stand for a value, and
  takes a list of values in place of a structure's named fields.
* `TypeGraph.ofSnapshot` (`with_snapshot`) is a graph with the types of a snapshot resolved.
-/

namespace StoredCall

/-- Resolved types, one under each key. -/
structure Snapshot where
  types : List (String × TypeDef)
  deriving DecidableEq, Repr

/-- The resolved types of a graph. -/
def TypeGraph.snapshot (g : TypeGraph) : Snapshot := ⟨g.types⟩

/-- The graph with the types of a snapshot resolved and nothing else. -/
def TypeGraph.ofSnapshot (s : Snapshot) : TypeGraph where
  entries := s.types.map fun (key, d) => (key, .resolved d)

namespace Snapshot

open Json (Num Written)

/-! ## Writing JSON -/

/-- A natural number. -/
def natJson (n : Nat) : Json := .number (.int n)

/-- A value, or null. -/
def optionJson {α : Type} (f : α → Json) : Option α → Json
  | some a => f a
  | none => .null

/-- The JSON form of a scalar. -/
def scalarJson (s : Scalar) : Json :=
  .object [("name", .string s.name), ("length", optionJson (fun n => natJson n.toNat) s.length),
    ("precision", optionJson (fun n => natJson n.toNat) s.precision),
    ("scale", optionJson (fun n => .number (.int n.toInt)) s.scale),
    ("type_name", optionJson .string s.typeName)]

/-- The JSON form of a reference. -/
def refJson : TypeRef → Json
  | .scalar s => .object [("Scalar", scalarJson s)]
  | .named key => .object [("Named", .string key)]

/-- The JSON form of a field. -/
def fieldJson (f : Field) : Json :=
  .object [("name", .string f.name), ("ty", refJson f.type)]

/-- The JSON form of an index kind. -/
def indexJson : IndexBy → Json
  | .integer => .string "Integer"

/-- The JSON form of a definition. -/
def defJson : TypeDef → Json
  | .scalar s => .object [("Scalar", scalarJson s)]
  | .record fields => .object [("Record", .array (fields.map fieldJson))]
  | .collection elem indexBy =>
    .object [("Collection",
      .object [("elem", refJson elem), ("index_by", optionJson indexJson indexBy)])]

/-- The JSON form of a snapshot. -/
def json (s : Snapshot) : Json :=
  .object [("types", .object (s.types.map fun (key, d) => (key, defJson d)))]

/-- The JSON text of a snapshot. -/
def toJson (s : Snapshot) : String := s.json.pretty

/-! ## Reading JSON -/

/-- The names and contents of the fields of an object; every name must be a text. -/
def named? (fields : List (Option String × Written)) : Option (List (String × Written)) :=
  fields.mapM fun (name, w) => name.map (·, w)

/-- The contents of a structure's fields, in the order of `names`: those of an object under these
names, each at most once, or the elements of an array of the same length. A field that an object
lacks is `none`. -/
def structure? (names : List String) : Written → Option (List (Option Written))
  | .object fields => do
    let fields ← named? fields
    names.mapM fun name =>
      match (fields.filter fun f => f.1 = name).map Prod.snd with
      | [] => some none
      | [w] => some (some w)
      | _ => none
  | .array items => if items.length = names.length then some (items.map some) else none
  | _ => none

/-- The name and the content of a variant. -/
def variant? : Written → Option (String × Written)
  | .object [(some name, content)] => some (name, content)
  | _ => none

/-- Reads a value that may be null or lacking. -/
def option? {α : Type} (f : Written → Option α) : Option Written → Option (Option α)
  | none | some .null => some none
  | some w => (f w).map some

/-- Reads a text. -/
def text? : Written → Option String
  | .string s => s
  | _ => none

/-- Reads an integer of a range. -/
def integer? (low high : Int) : Written → Option Int
  | .number (some (.int i)) => if low ≤ i ∧ i ≤ high then some i else none
  | _ => none

/-- Reads a scalar. -/
def scalar? (w : Written) : Option Scalar := do
  match ← structure? ["name", "length", "precision", "scale", "type_name"] w with
  | [name, length, precision, scale, typeName] =>
    return {
      name := ← text? (← name)
      length := (← option? (integer? 0 4294967295) length).map fun n => n.toNat.toUInt32
      precision := (← option? (integer? 0 255) precision).map fun n => n.toNat.toUInt8
      scale := (← option? (integer? (-128) 127) scale).map fun n => n.toInt8
      typeName := ← option? text? typeName }
  | _ => none

/-- Reads a reference. -/
def ref? (w : Written) : Option TypeRef := do
  match ← variant? w with
  | ("Scalar", content) => return .scalar (← scalar? content)
  | ("Named", content) => return .named (← text? content)
  | _ => none

/-- Reads a field. -/
def field? (w : Written) : Option Field := do
  match ← structure? ["name", "ty"] w with
  | [some name, some type] => return ⟨← text? name, ← ref? type⟩
  | _ => none

/-- Reads an index kind. -/
def index? : Written → Option IndexBy
  | .string (some "Integer") => some .integer
  | .object [(some "Integer", .null)] => some .integer
  | _ => none

/-- Reads a definition. -/
def def? (w : Written) : Option TypeDef := do
  match ← variant? w with
  | ("Scalar", content) => return .scalar (← scalar? content)
  | ("Record", .array items) => return .record (← items.mapM field?)
  | ("Collection", content) =>
    match ← structure? ["elem", "index_by"] content with
    | [some elem, indexBy] => return .collection (← ref? elem) (← option? index? indexBy)
    | _ => none
  | _ => none

/-- Reads types under their keys; a later one under the same key takes the place of an earlier
one. -/
def types? (fields : List (Option String × Written)) : Option (List (String × TypeDef)) := do
  (← named? fields).foldlM (fun t (key, w) => do return Assoc.put key (← def? w) t) []

/-- Reads a snapshot from its JSON text. -/
def ofJson? (s : String) : Option Snapshot := do
  match ← structure? ["types"] (← Written.parse? s) with
  | [some (.object fields)] => return ⟨← types? fields⟩
  | _ => none

end Snapshot

end StoredCall
