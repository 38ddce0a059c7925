import StoredCall.Value.Coerce

/-!
# Large objects

A large object comes from the database as a stream of bytes or as a value. Up to a threshold it is
kept in memory; a longer one is written to a file, and the value is the file.

* `Value.materialize` reads a stream; it takes one byte more than the threshold to find out which
  side it is on, so the threshold must have a successor among the words.
* `Value.spillIfLarge` (`spill_if_large`) applies the threshold to a value that is in memory
  already.
-/

namespace StoredCall.Value

open Text

/-- The value of bytes that are kept in memory. -/
def inMemory (kind : Kind) (bytes : List UInt8) : Except CallError Value :=
  match kind with
  | .clob =>
    match utf8? bytes with
    | some s => .ok (.text s)
    | none => .error (.convert "lob" .utf8Text "invalid utf-8")
  | _ => .ok (.bytes bytes)

/-- The value of a stream of bytes. -/
def materialize (bytes : List UInt8) (kind : Kind) (threshold : Nat) : Except CallError Value :=
  if Number.wordMax ≤ threshold then .error .overflow
  else
    let head := bytes.take (threshold + 1)
    if head.length ≤ threshold then inMemory kind head
    else
      let rest := bytes.drop (threshold + 1)
      .ok (.spilled { content := head ++ rest, length := head.length + rest.length })

/-- The bytes that a value keeps in memory. -/
def heldBytes : Value → List UInt8
  | .text s => utf8 s
  | .bytes b => b
  | _ => []

/-- Spills a text or bytes longer than the threshold. -/
def spillIfLarge (v : Value) (threshold : Nat) : Except CallError Value :=
  if v.heldBytes.length ≤ threshold then .ok v
  else materialize v.heldBytes .blob threshold

end StoredCall.Value
