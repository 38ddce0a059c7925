import StoredCall.Call.Response

/-!
# Calls

A plan is carried out in four steps: the options are checked, binds are made for the slots, a
database runs the block, and the outputs are collected into a response.

* `Executor` is a database as seen from here.
* `Plan.invoke` carries a plan out.
-/

namespace StoredCall

/-- What a database writes into the output boxes, by their indices. -/
abbrev Writes (σ : Type) := Nat → OutBox σ → OutBox σ

/-- A database with states `ω`, whose cursors have states `σ`. Running a block fails or writes into
the boxes of outputs. -/
structure Executor (ω σ : Type) where
  execute : (block : String) → (binds : List (Bind σ)) → (hasDeadline : Bool) → ω →
    Except CallError (Writes σ) × ω

namespace Plan

variable {ω σ : Type}

/-- The bind of an index with what was written into it. -/
def written (writes : Writes σ) (index : Nat) : Bind σ → Bind σ
  | .input v => .input v
  | .output box => .output (writes index box)

/-- Collects the output of a slot. -/
def collectSlot (p : Plan) (r : Response σ) (bind : Bind σ) (slot : Slot) :
    Except CallError (Response σ) :=
  let path := slot.path.text
  match slot.kind with
  | .scalar kind =>
    if kind.isLob then (r.collectLob bind path kind p.lobSpillThreshold).1
    else r.collectScalar bind path kind
  | .array elem _ => r.collectArray bind path elem
  | .cursor columns =>
    let columns := columns.map fun c => (c.path.text, c.kind)
    (r.collectCursor bind path columns p.cursorBatchSize).1
  | .document format => r.collectDocument bind format

/-- Collects the outputs of slots from their binds, in order. -/
def collectOutputs (p : Plan) : Response σ → List (Bind σ × Slot) →
    Except CallError (Response σ)
  | r, [] => .ok r
  | r, (bind, slot) :: rest => do
    if slot.direction.isOutput then collectOutputs p (← p.collectSlot r bind slot) rest
    else collectOutputs p r rest

/-- Carries a plan out. -/
def invoke (p : Plan) (exec : Executor ω σ) (request : Value) (o : CallOptions) :
    ExceptT CallError (StateM ω) (Response σ) := do
  ofExcept o.check
  let binds ← ofExcept (Bind.ofSlots request [] p.slots)
  let writes ← ExceptT.mk fun w => exec.execute p.block binds o.deadline.isSome w
  let binds := binds.mapIdx fun index bind => written writes index bind
  ofExcept (p.collectOutputs {} (binds.zip p.slots))

end Plan

end StoredCall
