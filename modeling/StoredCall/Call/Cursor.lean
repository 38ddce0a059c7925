import StoredCall.Value.Coerce

/-!
# Cursors

Rows that come back through a cursor are fetched in batches. Each step fetches at most one batch and
turns its rows into records. A batch shorter than asked for ends the iteration. The cursor is closed
when the iteration ends, fails or is given up.

* `CallOptions` is what a caller asks for: to stop, or to stop in time.
* `RowSource` is what a database offers for an open cursor; `FiniteRows` says that it has an end.
* `Cursor.next` (`next_batch`) takes one step, `Cursor.collect` (`collect_rows`) takes all that are
  left.
-/

namespace StoredCall

/-! ## Options -/

/-- A point in time after which a call is not to go on. -/
inductive Deadline where
  | ahead | passed
  deriving DecidableEq, Repr

/-- What a caller asks for, as it stands at some moment. -/
structure CallOptions where
  cancelled : Bool := false
  deadline : Option Deadline := none
  deriving DecidableEq, Repr

/-- Refuses to go on when the call was cancelled or is out of time. -/
def CallOptions.check (o : CallOptions) : Except CallError Unit :=
  if o.cancelled then .error .cancelled
  else if o.deadline = some .passed then .error .deadlineExceeded
  else .ok ()

/-! ## Sources of rows -/

/-- What a database offers for an open cursor. -/
class RowSource (σ : Type) where
  /-- Fetches up to a number of rows, with one value for each column. Fewer rows than asked for mean
  that there are no more. -/
  fetch : σ → Nat → Except CallError (List (List Value)) × σ
  close : σ → Except CallError Unit × σ

/-- A source that gives rows only finitely often. -/
class FiniteRows (σ : Type) extends RowSource σ where
  /-- How often the source can still give rows. -/
  remaining : σ → Nat
  remaining_fetch : ∀ {s n rows}, (fetch s n).1 = .ok rows → rows ≠ [] →
    remaining (fetch s n).2 < remaining s

/-- An iteration over the rows of a source. -/
structure Cursor (σ : Type) where
  source : σ
  isOpen : Bool := true
  columns : List (Path × Kind)
  /-- How many rows are asked for at a time, at least one. -/
  batchSize : Nat
  /-- How many rows have been counted. -/
  rows : Nat := 0

namespace Cursor

variable {σ : Type}

/-- The iteration over an open source. -/
def start (source : σ) (columns : List (Path × Kind)) (batchSize : Nat) : Cursor σ where
  source := source
  columns := columns
  batchSize := max batchSize 1

/-- Puts the values of a row into a record, each brought to the kind of its column. -/
def fillRecord : (record : Value) → List ((Path × Kind) × Value) → Except CallError Value
  | record, [] => .ok record
  | record, ((path, kind), v) :: rest => do
    let v ← v.coerce kind path.text
    fillRecord (record.set path v) rest

/-- The record of a row. -/
def record (columns : List (Path × Kind)) (row : List Value) : Except CallError Value :=
  if row.length ≠ columns.length then
    .error (.convert "cursor row" .rowValues
      (toString row.length ++ " values for " ++ toString columns.length ++ " columns"))
  else fillRecord .null (columns.zip row)

/-- The records of rows, up to the first failure. -/
def records (columns : List (Path × Kind)) : List (List Value) → Except CallError (List Value)
  | [] => .ok []
  | row :: rest => do
    let r ← record columns row
    let more ← records columns rest
    return r :: more

/-- One step of an iteration: nothing when it is over, else a batch or a failure. -/
abbrev Item := Option (Except CallError (List Value))

/-- The item for a batch; an empty one ends the iteration. -/
def item (batch : List Value) : Item :=
  if batch.isEmpty then none else some (.ok batch)

section Steps

variable [RowSource σ]

/-- Closes the source, unless it is closed. -/
def close (c : Cursor σ) : Except CallError Unit × Cursor σ :=
  if c.isOpen then
    let (r, source) := RowSource.close c.source
    (r, { c with source, isOpen := false })
  else (.ok (), c)

/-- Ends the iteration with a failure. What closing says does not matter any more. -/
def fail (c : Cursor σ) (e : CallError) : Item × Cursor σ :=
  (some (.error e), c.close.2)

/-- Counts and hands out a batch. The source is closed when there are no more rows, and if that
fails the failure is handed out instead. -/
def deliver (c : Cursor σ) (batch : List Value) (isLast : Bool) : Item × Cursor σ :=
  let c := { c with rows := c.rows + batch.length }
  if isLast then
    match c.close with
    | (.ok (), c) => (item batch, c)
    | (.error e, c) => c.fail e
  else (item batch, c)

/-- Takes one step. -/
def next (o : CallOptions) (c : Cursor σ) : Item × Cursor σ :=
  if c.isOpen then
    match o.check with
    | .error e => c.fail e
    | .ok () =>
      match RowSource.fetch c.source c.batchSize with
      | (.error e, source) => { c with source }.fail e
      | (.ok rows, source) =>
        match records c.columns rows with
        | .error e => { c with source }.fail e
        | .ok batch => { c with source }.deliver batch (rows.length < c.batchSize)
  else (none, c)

/-- Takes up to `fuel` steps and joins the batches, up to the first failure. `o k` is what the
caller asks for at the step of number `k`. -/
def drain : (fuel : Nat) → (o : Nat → CallOptions) → Cursor σ →
    Except CallError (List Value) × Cursor σ
  | 0, _, c => (.ok [], c)
  | fuel + 1, o, c =>
    match c.next (o 0) with
    | (none, c) => (.ok [], c)
    | (some (.error e), c) => (.error e, c)
    | (some (.ok batch), c) =>
      let (more, c) := drain fuel (fun k => o (k + 1)) c
      (more.map (batch ++ ·), c)

/-- Gives the iteration up. -/
def drop (c : Cursor σ) : Cursor σ := c.close.2

end Steps

/-- Takes all steps that are left. -/
def collect [FiniteRows σ] (o : CallOptions) (c : Cursor σ) :
    Except CallError (List Value) × Cursor σ :=
  drain (FiniteRows.remaining c.source + 1) (fun _ => o) c

end Cursor

end StoredCall
