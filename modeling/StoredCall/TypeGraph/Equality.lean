import StoredCall.TypeGraph

/-!
# Structural equality of types

Two keys are structurally equal when they are the same, or their definitions have the same form
with equal parts. Types may be cyclic: a pair that is already under comparison is taken to be
equal. The comparison recurses on the number of pairs of entries, since every pair is compared once.

* `TypeGraph.equal` (`structurally_equal`) resolves two references and compares them.
-/

namespace StoredCall.TypeGraph

/-- The pairs that have been compared or are under comparison. -/
abbrev Seen := List (String × String)

/-- Compares two references by a comparison of keys. -/
def sameRef (sameKey : String → String → StateM Seen Bool) : TypeRef → TypeRef → StateM Seen Bool
  | .scalar a, .scalar b => return a == b
  | .named a, .named b => sameKey a b
  | _, _ => return false

/-- Compares fields from left to right, up to the first difference. -/
def sameFields (sameKey : String → String → StateM Seen Bool) :
    List Field → List Field → StateM Seen Bool
  | [], [] => return true
  | a :: as, b :: bs => do
    if a.name ≠ b.name then return false
    if ← sameRef sameKey a.type b.type then sameFields sameKey as bs else return false
  | _, _ => return false

/-- Compares two definitions. -/
def sameDef (sameKey : String → String → StateM Seen Bool) : TypeDef → TypeDef → StateM Seen Bool
  | .scalar a, .scalar b => return a == b
  | .record as, .record bs =>
    if as.length = bs.length then sameFields sameKey as bs else return false
  | .collection a i, .collection b j => if i = j then sameRef sameKey a b else return false
  | _, _ => return false

/-- Compares two keys by a comparison of the keys inside them. -/
def sameKeyBy (g : TypeGraph) (inner : String → String → StateM Seen Bool) (a b : String) :
    StateM Seen Bool := do
  if a = b then return true
  let seen ← get
  if seen.contains (a, b) then return true
  set ((a, b) :: seen)
  match g.resolved? a, g.resolved? b with
  | some d, some e => sameDef inner d e
  | _, _ => return false

/-- Compares two keys; `fuel` bounds the pairs that are still to be compared. -/
def sameKey (g : TypeGraph) : (fuel : Nat) → String → String → StateM Seen Bool
  | 0, _, _ => return false
  | fuel + 1, a, b => sameKeyBy g (sameKey g fuel) a b

/-- Whether two keys are structurally equal. -/
def sameKeys (g : TypeGraph) (a b : String) : Bool :=
  ((sameKey g (g.entries.length * g.entries.length + 2) a b).run []).1

/-- Resolves two references and compares them. -/
def equal (c : Catalog) (a b : String) : Resolve Bool := do
  let m ← resolve c a
  let n ← resolve c b
  return sameKeys (← get) m.key n.key

end StoredCall.TypeGraph
