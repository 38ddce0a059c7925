import StoredCall.Call.Bind
import StoredCall.Value.Lob

/-!
# Responses

A response is a tree of values and the cursors that are still open, each under the text of its path.
It is put together from the binds of outputs, one after the other.

* `Response.collectScalar` (`collect_scalar`) and its like take over one bind. Those that can be
  given a stream take it out of the bind first, and give the bind back without it.
* `Response.toValue` (`into_value`) reads every cursor into its place in the tree.
-/

namespace StoredCall

open Text

/-- What comes back from a call. -/
structure Response (σ : Type) where
  value : Value := .object []
  cursors : List (String × Cursor σ) := []

namespace Response

variable {σ : Type}

/-- Puts a value at a path. -/
def put (r : Response σ) (path : String) (v : Value) : Except CallError (Response σ) := do
  return { r with value := r.value.set (← readPath path) v }

/-- Takes over a scalar. -/
def collectScalar (r : Response σ) (bind : Bind σ) (path : String) (kind : Kind) :
    Except CallError (Response σ) := do
  r.put path (← bind.value.coerce kind path)

/-- The value of a large object that came as a stream or as a value. -/
def lobValue (bind : Bind σ) (path : String) (kind : Kind) (threshold : Nat) :
    Option (Stream σ) → Except CallError Value
  | some (.lob bytes) => Value.materialize bytes kind threshold
  | some (.cursor _) => .error (.convert path .lob "cursor")
  | none => do (← bind.value.coerce kind path).spillIfLarge threshold

/-- Takes over a large object. -/
def collectLob (r : Response σ) (bind : Bind σ) (path : String) (kind : Kind) (threshold : Nat) :
    Except CallError (Response σ) × Bind σ :=
  let (stream, bind) := bind.takeStream
  (do r.put path (← lobValue bind path kind threshold stream), bind)

/-- The elements of an array; null has none. -/
def arrayItems (path : String) : Value → Except CallError (List Value)
  | .null => .ok []
  | .list items => .ok items
  | v => .error (.convert path .list v.kindName)

/-- Takes over an array, cut to the capacity of the bind. -/
def collectArray (r : Response σ) (bind : Bind σ) (path : String) (kind : Kind) :
    Except CallError (Response σ) := do
  let items ← arrayItems path bind.value
  let items := match bind.capacity with
    | some capacity => items.take capacity
    | none => items
  let items ← coerceAll kind path items
  return { r with value := r.value.setColumn (← readPath path) items }

/-- Reads the paths of columns from their texts. -/
def readColumns : List (String × Kind) → Except CallError (List (Path × Kind))
  | [] => .ok []
  | (text, kind) :: rest => do
    let path ← readPath text
    let more ← readColumns rest
    return (path, kind) :: more

/-- Takes over a cursor; a null one is a list without rows. -/
def collectCursor (r : Response σ) (bind : Bind σ) (path : String)
    (columns : List (String × Kind)) (batchSize : Nat) :
    Except CallError (Response σ) × Bind σ :=
  match readColumns columns with
  | .error e => (.error e, bind)
  | .ok columns =>
    match bind.takeStream with
    | (some (.cursor source), bind) =>
      let cursor := Cursor.start source columns batchSize
      (.ok { r with cursors := r.cursors ++ [(path, cursor)] }, bind)
    | (some (.lob _), bind) => (.error (.convert path .cursor "lob"), bind)
    | (none, bind) =>
      if bind.value.isNull then (r.put path (.list []), bind)
      else (.error (.convert path .cursor bind.value.kindName), bind)

/-- The document of a bind, if it is not null. -/
def documentText (format : BlobFormat) : Value → Except CallError (Option String)
  | .null => .ok none
  | .text s => .ok (some s)
  | .bytes b =>
    match utf8? b with
    | some s => .ok (some s)
    | none => .error (.document format .malformed)
  | .spilled lob =>
    match utf8? lob.content with
    | some s => .ok (some s)
    | none => .error .file
  | v => .error (.document format (.unexpected v.kindName))

/-- The tree with a document merged into it: its fields if it has any, else the document as the
return value. -/
def merge (tree : Value) : Value → Value
  | .object fields => fields.foldl (fun t (name, v) => t.set [.field name] v) tree
  | .null => tree
  | v => tree.set [.field Subprogram.returnField] v

/-- Takes over a document. -/
def collectDocument (r : Response σ) (bind : Bind σ) (format : BlobFormat) :
    Except CallError (Response σ) := do
  match ← documentText format bind.value with
  | none => return r
  | some s => return { r with value := merge r.value (← Value.decode s format) }

/-- Reads cursors into a tree, up to the first failure. -/
def drainAll [FiniteRows σ] (o : CallOptions) :
    (tree : Value) → List (String × Cursor σ) → Except CallError Value
  | tree, [] => .ok tree
  | tree, (path, cursor) :: rest => do
    let rows ← (cursor.collect o).1
    drainAll o (tree.set (← readPath path) (.list rows)) rest

/-- The tree with every cursor read into its place. -/
def toValue [FiniteRows σ] (o : CallOptions) (r : Response σ) : Except CallError Value :=
  drainAll o r.value r.cursors

end Response

end StoredCall
