import StoredCall.Assoc
import StoredCall.Catalog

/-!
# The type graph

Named types are resolved against a catalog when they are first asked for, and kept. A definition
refers to other types by their keys, so that types may refer to each other in cycles.

Each key has a state: `pending` when a scan of the catalog has seen it, `resolving` while its
definition is being built, `resolved` afterwards. A key is resolving before its parts are visited,
so a type that leads back to itself finds its own entry and stops there. A type that fails is
dropped again.

* `TypeGraph` is the state: entries in the order their keys came in, the references that were
  answered, and the number of queries the catalog has answered.
* `Resolve` is a step on the state that may fail; a failed step keeps its effect on the state.
* `TypeGraph.resolve` (`get`) resolves a reference, `TypeGraph.discover` a name of the catalog.

Resolving recurses on an allowance of nested types, `allowance c`. Each nested type was not open
before, and all but the first are mentioned by the catalog, so the allowance is never used up.
-/

namespace StoredCall

open Text

/-- The state of a key. -/
inductive Entry where
  | pending
  | resolving
  | resolved (d : TypeDef)
  deriving DecidableEq, Repr

/-- The types that are known, and how far each is resolved. -/
structure TypeGraph where
  entries : List (String × Entry) := []
  /-- The keys that references stood for when they were answered. -/
  aliases : List (String × String) := []
  /-- How many queries the catalog has answered. -/
  asked : Nat := 0

/-- A resolved type. -/
structure Node where
  key : String
  type : TypeDef
  deriving DecidableEq, Repr

/-- A step on a type graph that may fail. -/
abbrev Resolve (α : Type) := ExceptT Error (StateM TypeGraph) α

namespace TypeGraph

/-- The definition under a key. -/
def resolved? (g : TypeGraph) (key : String) : Option TypeDef :=
  match Assoc.get? key g.entries with
  | some (.resolved d) => some d
  | _ => none

/-- Whether a key is resolved or being resolved. -/
def isOpenOrDone (g : TypeGraph) (key : String) : Bool :=
  match Assoc.get? key g.entries with
  | some .resolving | some (.resolved _) => true
  | _ => false

/-- The keys that a scan has seen and nobody has resolved. -/
def pending (g : TypeGraph) : List String :=
  (g.entries.filter fun e => e.2 = .pending).map Prod.fst

/-- The resolved types, in the order their keys came in. -/
def types (g : TypeGraph) : List (String × TypeDef) :=
  g.entries.filterMap fun e =>
    match e.2 with
    | .resolved d => some (e.1, d)
    | _ => none

/-- The number of resolved types. -/
def size (g : TypeGraph) : Nat := g.types.length

/-- Puts a key into a state. -/
def mark (key : String) (e : Entry) : Resolve Unit :=
  modify fun g => { g with entries := Assoc.put key e g.entries }

/-- Drops a key. -/
def forget (key : String) : Resolve Unit :=
  modify fun g => { g with entries := Assoc.drop key g.entries }

/-- Notes the key that a reference stands for. -/
def remember (reference key : String) : Resolve Unit :=
  modify fun g => { g with aliases := Assoc.put reference key g.aliases }

/-- Asks the catalog; an answer is counted, a failure is not. -/
def ask {α : Type} (answer : Except Error α) : Resolve α := do
  match answer with
  | .ok a =>
    modify fun g => { g with asked := g.asked + 1 }
    return a
  | .error e => throw e

/-! ## Definitions as the catalog gives them -/

/-- A definition whose parts are not resolved yet. -/
inductive RawDef where
  | scalar (s : Scalar)
  | record (attributes : List Attribute)
  | collection (elem : Attribute) (indexBy : Option IndexBy)
  deriving DecidableEq, Repr

/-- Where a definition can come from. -/
inductive Source where
  | attributes | element | columns
  deriving DecidableEq, Repr

/-- Where the definition of a class of types is looked for, in this order. -/
def sourcesOf : TypeClass → List Source
  | .sealed => []
  | .record => [.attributes]
  | .collection _ => [.element]
  | .table => [.columns]
  | .object => [.attributes, .element, .columns]

/-- How a collection is indexed. Only integers are supported; a collection without an index type
is a nested table. -/
def indexKind (key : String) : Option String → Except Error (Option IndexBy)
  | none => .ok none
  | some s =>
    match upper (trim s) with
    | "" | "PLS_INTEGER" | "BINARY_INTEGER" | "SIMPLE_INTEGER" => .ok (some .integer)
    | other => .error (.notSupported key (.indexedBy other))

/-- Of neighbours with one name, keeps the first. -/
def dropRepeats : List Attribute → List Attribute
  | [] => []
  | a :: rest =>
    match dropRepeats rest with
    | [] => [a]
    | b :: more => if a.name = b.name then a :: more else a :: b :: more

/-- The first of several sources that is not empty. -/
def fetchFrom (c : Catalog) (q : QName) (indexBy : Option IndexBy) : List Source → Resolve RawDef
  | [] => throw (.notSupported q.key .noParts)
  | .attributes :: rest => do
    match ← ask (c.attributes q) with
    | [] => fetchFrom c q indexBy rest
    | as => return .record (dropRepeats as)
  | .element :: rest => do
    match ← ask (c.element q) with
    | none => fetchFrom c q indexBy rest
    | some elem => return .collection elem indexBy
  | .columns :: rest => do
    match ← ask (c.columns q) with
    | [] => fetchFrom c q indexBy rest
    | as => return .record (dropRepeats as)

/-- The definition of a type of a known class. -/
def fetch (c : Catalog) (q : QName) : TypeClass → Resolve RawDef
  | .sealed => return .scalar { name := "OPAQUE", typeName := some q.key }
  | .collection indexBy => do
    let kind ← ofExcept (indexKind q.key indexBy)
    fetchFrom c q kind (sourcesOf (.collection indexBy))
  | cls => fetchFrom c q none (sourcesOf cls)

/-! ## Resolving -/

/-- The reference to a part. A type that is neither resolved nor being resolved is resolved
first, by `install`. -/
def childRef (c : Catalog) (install : QName → TypeClass → Resolve Unit) :
    AttributeType → Resolve TypeRef
  | .scalar s => return .scalar s
  | .named q => do
    if !(← get).isOpenOrDone q.key then
      match ← ask (c.classify q) with
      | none => throw (.unknownType q.key)
      | some cls => install q cls
    return .named q.key

/-- The fields of a record, resolved from left to right. -/
def fieldRefs (c : Catalog) (install : QName → TypeClass → Resolve Unit) :
    List Attribute → Resolve (List Field)
  | [] => return []
  | a :: rest => do
    let type ← childRef c install a.type
    let fields ← fieldRefs c install rest
    return ⟨a.name, type⟩ :: fields

/-- The definition with its parts resolved. -/
def build (c : Catalog) (install : QName → TypeClass → Resolve Unit) : RawDef → Resolve TypeDef
  | .scalar s => return .scalar s
  | .record as => do return .record (← fieldRefs c install as)
  | .collection elem indexBy => do return .collection (← childRef c install elem.type) indexBy

/-- Resolves a name from its definition. `depth` is the allowance of nested types. -/
def install (c : Catalog) : (depth : Nat) → QName → RawDef → Resolve TypeDef
  | 0, q, _ => throw (.unknownType q.key)
  | depth + 1, q, raw => do
    mark q.key .resolving
    let nested (q : QName) (cls : TypeClass) : Resolve Unit := do
      let raw ← fetch c q cls
      discard (install c depth q raw)
    tryCatch
      (do
        let d ← build c nested raw
        mark q.key (.resolved d)
        return d)
      (fun e => do
        forget q.key
        throw e)

/-- How many types can be open inside each other. -/
def allowance (c : Catalog) : Nat := c.mentioned.length + 1

/-- Resolves the first of several full names that the catalog knows. `reference` is what was asked
for, and `text` its normal form. -/
def firstKnown (c : Catalog) (reference text : String) : List QName → Resolve Node
  | [] => throw (.unknownType reference)
  | q :: rest => do
    match (← get).resolved? q.key with
    | some d =>
      remember text q.key
      return ⟨q.key, d⟩
    | none =>
      match ← ask (c.classify q) with
      | none => firstKnown c reference text rest
      | some cls =>
        let raw ← fetch c q cls
        let d ← install c (allowance c) q raw
        remember text q.key
        return ⟨q.key, d⟩

/-- Resolves a reference. One that was answered before is answered from what is kept. -/
def resolve (c : Catalog) (reference : String) : Resolve Node := do
  match Reference.parse reference with
  | .error e => throw (.unknownType e.message)
  | .ok r =>
    let g ← get
    let known := do
      let key ← Assoc.get? r.text g.aliases
      let d ← g.resolved? key
      return (⟨key, d⟩ : Node)
    match known with
    | some node => return node
    | none => firstKnown c reference r.text (r.candidates c.owner)

/-- Resolves a name of the catalog. -/
def discover (c : Catalog) (q : QName) : Resolve Unit := do
  if ((← get).resolved? q.key).isNone then
    match ← ask (c.classify q) with
    | none => throw (.unknownType q.key)
    | some cls =>
      let raw ← fetch c q cls
      discard (install c (allowance c) q raw)

end TypeGraph

end StoredCall
