import StoredCall.Call.Cursor
import StoredCall.Plan
import StoredCall.Value.Document

/-!
# Binds

A bind is what a database gets for one placeholder of a block: a value to read, or a box to write
into, which may hold a value to start from. Binds are made from the request, slot by slot; paths
come as text.

* `Bind` and `OutBox`; a box may also be given a `Stream`, to be read later.
* `Bind.scalarIn` (`scalar_in`) and its like make binds.
-/

namespace StoredCall

/-- An output that is read later. -/
inductive Stream (σ : Type) where
  | cursor (source : σ)
  | lob (bytes : List UInt8)

/-- Where a database writes an output. -/
structure OutBox (σ : Type) where
  value : Value := .null
  /-- How many elements the database may write. -/
  capacity : Option Nat := none
  stream : Option (Stream σ) := none

/-- What a database gets for a placeholder. -/
inductive Bind (σ : Type) where
  | input (value : Value)
  | output (box : OutBox σ)

/-- Reads a path from its text. -/
def readPath (text : String) : Except CallError Path :=
  (Path.parse text).mapError fun e => .convert text .valuePath e.message

/-- Brings values to a kind, up to the first failure. -/
def coerceAll (kind : Kind) (path : String) : List Value → Except CallError (List Value)
  | [] => .ok []
  | v :: rest => do
    let v ← v.coerce kind path
    let more ← coerceAll kind path rest
    return v :: more

/-- The value at a path of the request, null where there is none. -/
def requestScalar (request : Value) (path : String) (kind : Kind) : Except CallError Value := do
  match request.lookup (← readPath path) with
  | some v => v.coerce kind path
  | none => return .null

/-- The first elements of a column of the request. -/
def requestArray (request : Value) (path : String) (kind : Kind) (capacity : Nat) :
    Except CallError Value := do
  match request.column (← readPath path) with
  | none => throw (.convert path .list "non-list value")
  | some column => return .list (← coerceAll kind path (column.take capacity))

namespace Bind

variable {σ : Type}

/-- The value of a bind. -/
def value : Bind σ → Value
  | .input v => v
  | .output box => box.value

/-- How many elements may be written into a bind. -/
def capacity : Bind σ → Option Nat
  | .input _ => none
  | .output box => box.capacity

/-- Takes the stream out of a bind. -/
def takeStream : Bind σ → Option (Stream σ) × Bind σ
  | .input v => (none, .input v)
  | .output box => (box.stream, .output { box with stream := none })

/-- A scalar of the request. -/
def scalarIn (request : Value) (path : String) (kind : Kind) : Except CallError (Bind σ) := do
  return .input (← requestScalar request path kind)

/-- A box that starts from a scalar of the request. -/
def scalarInOut (request : Value) (path : String) (kind : Kind) : Except CallError (Bind σ) := do
  return .output { value := ← requestScalar request path kind }

/-- A column of the request, cut to a capacity. -/
def arrayIn (request : Value) (path : String) (kind : Kind) (capacity : Nat) :
    Except CallError (Bind σ) := do
  return .input (← requestArray request path kind capacity)

/-- A box that starts from a column of the request. -/
def arrayInOut (request : Value) (path : String) (kind : Kind) (capacity : Nat) :
    Except CallError (Bind σ) := do
  return .output { value := ← requestArray request path kind capacity, capacity := some capacity }

/-- A box for an array. -/
def arrayOut (capacity : Nat) : Bind σ := .output { capacity := some capacity }

/-- A box for anything else. -/
def empty : Bind σ := .output {}

/-- The request as a document. -/
def documentIn (request : Value) (format : BlobFormat) : Except CallError (Bind σ) := do
  return .input (.text (← request.encode format))

/-- A box that starts from the request as a document. -/
def documentInOut (request : Value) (format : BlobFormat) : Except CallError (Bind σ) := do
  return .output { value := .text (← request.encode format) }

/-- The value of an earlier bind. -/
def copyIn (first : Bind σ) : Bind σ := .input first.value

/-- A box that starts from the value of an earlier bind. -/
def copyOut (first : Bind σ) (capacity : Option Nat) : Bind σ :=
  .output { value := first.value, capacity }

/-- The bind of a slot that converts a value of the request. -/
def converting (request : Value) (slot : Slot) : Except CallError (Bind σ) :=
  match slot.kind, slot.direction with
  | .array _ capacity, .output => .ok (arrayOut capacity)
  | .array elem capacity, .input => arrayIn request slot.path.text elem capacity
  | .array elem capacity, .both => arrayInOut request slot.path.text elem capacity
  | .scalar _, .output => .ok empty
  | .scalar kind, .input => scalarIn request slot.path.text kind
  | .scalar kind, .both => scalarInOut request slot.path.text kind
  | .document _, .output => .ok empty
  | .document format, .input => documentIn request format
  | .document format, .both => documentInOut request format
  | .cursor _, _ => .ok empty

/-- The bind of a slot, after those of the slots before it. -/
def ofSlot (request : Value) (before : List (Bind σ)) (slot : Slot) : Except CallError (Bind σ) :=
  match slot.source with
  | .convert => converting request slot
  | .copyOf index =>
    match before[index]? with
    | none => .error (.bind before.length (.notBuilt index))
    | some first =>
      match slot.direction with
      | .input => .ok first.copyIn
      | .output | .both => .ok (first.copyOut slot.kind.capacity?)

/-- The binds of slots, after those of the slots before them. -/
def ofSlots (request : Value) : (before : List (Bind σ)) → List Slot →
    Except CallError (List (Bind σ))
  | before, [] => .ok before
  | before, slot :: rest => do
    let bind ← ofSlot request before slot
    ofSlots request (before ++ [bind]) rest

end Bind

end StoredCall
