import StoredCall.Path
import StoredCall.Subprogram

/-!
# Call plans

A plan is what is needed to call a subprogram: the text of a block, and the slots that the block's
placeholders `:1`, `:2`, … stand for, in this order. A slot says where its value lives in the
request or response, which way it goes and how it is converted.

* `Slot` and its parts `SlotKind` and `Source`.
* `Plan.outputs` (`output_slots`) lists the slots that carry something out, with their indices.
-/

namespace StoredCall

/-- A scalar inside a row of a cursor. -/
structure Column where
  /-- Where the scalar is in a row; the row itself for the empty path. -/
  path : Path
  kind : Kind
  deriving DecidableEq, Repr

/-- What a slot carries. -/
inductive SlotKind where
  | scalar (kind : Kind)
  /-- An array of scalars, of no more than `capacity` elements. -/
  | array (elem : Kind) (capacity : Nat)
  /-- A cursor, read in batches of rows. -/
  | cursor (columns : List Column)
  /-- A document that stands for the whole request or response. -/
  | document (format : BlobFormat)
  deriving DecidableEq, Repr

/-- Where the value that a slot carries in comes from. -/
inductive Source where
  /-- From the request, at the path of the slot. -/
  | convert
  /-- From the slot of this index. -/
  | copyOf (index : Nat)
  deriving DecidableEq, Repr

/-- A placeholder of a block. -/
structure Slot where
  /-- The number in the block, from 1 on. -/
  position : Nat
  path : Path
  direction : Direction
  kind : SlotKind
  source : Source
  deriving DecidableEq, Repr

/-- How many elements a slot holds at most, if it holds several. -/
def SlotKind.capacity? : SlotKind → Option Nat
  | .array _ capacity => some capacity
  | _ => none

/-- A block and its slots. -/
structure Plan where
  /-- The name of the subprogram, with its package. -/
  function : String
  /-- The name of the entry point. -/
  ident : String
  block : String
  slots : List Slot
  /-- How many rows of a cursor are fetched at a time. -/
  cursorBatchSize : Nat
  /-- The longest large object that is kept in memory. -/
  lobSpillThreshold : Nat
  deriving DecidableEq, Repr

/-- The slots that carry something out, with their indices. -/
def Plan.outputs (p : Plan) : List (Nat × Slot) :=
  (p.slots.zipIdx.filter fun (slot, _) => slot.direction.isOutput).map fun (slot, i) => (i, slot)

end StoredCall
