import StoredCall.TypeGraph

/-!
# Discovery

A scan resolves all names of the catalog, or those of a given set, one after the other. It can be
cancelled between two names: `budget` is the number of names that are handled before that, and a
scan without a budget is never cancelled.

All names are handled before any outcome is looked at. A type that is not supported is left out; any
other failure is the outcome of the scan, the first one in the order of the names.

* `TypeGraph.names` (`names_cancellable`) scans and gives the keys of the types that are resolved,
  in ascending order.
-/

namespace StoredCall.TypeGraph

/-- Puts a text into an ascending list. -/
def insertSorted (s : String) : List String → List String
  | [] => [s]
  | t :: rest =>
    if s < t then s :: t :: rest
    else if s = t then t :: rest
    else t :: insertSorted s rest

/-- The texts of a list in ascending order, each once. -/
def sortedSet (xs : List String) : List String :=
  xs.foldl (fun acc s => insertSorted s acc) []

/-- What came of a name: nothing when the scan was cancelled before it. -/
abbrev Outcome := Option (Except Error Unit)

/-- Handles names one after the other, as many as the budget allows. -/
def discoverAll (c : Catalog) :
    (budget : Option Nat) → List QName → StateM TypeGraph (List (String × Outcome))
  | _, [] => return []
  | some 0, q :: rest => do
    let outcomes ← discoverAll c (some 0) rest
    return (q.key, none) :: outcomes
  | budget, q :: rest => do
    let outcome ← (discover c q).run
    let outcomes ← discoverAll c (budget.map (· - 1)) rest
    return (q.key, some outcome) :: outcomes

/-- Drops a key that is still pending. -/
def forgetPending (key : String) : Resolve Unit :=
  modify fun g =>
    if Assoc.get? key g.entries = some .pending then
      { g with entries := Assoc.drop key g.entries }
    else g

/-- Looks at the outcomes in turn and takes the keys without a resolved type out of `names`. -/
def settle : (names : List String) → List (String × Outcome) → Resolve (List String)
  | names, [] => return names
  | names, (_, some (.ok ())) :: rest => settle names rest
  | names, (key, none) :: rest => settle (names.filter (· ≠ key)) rest
  | names, (key, some (.error e)) :: rest => do
    match e with
    | .notSupported .. =>
      forgetPending key
      settle (names.filter (· ≠ key)) rest
    | e => throw e

/-- Scans the catalog, or those of its names whose keys are in `only`. -/
def names (c : Catalog) (only : Option (List String)) (budget : Option Nat) :
    Resolve (List String) := do
  let all ← ofExcept c.typeNames
  let wanted := all.filter fun q => (only.map fun keys => keys.contains q.key).getD true
  let g ← get
  let fresh := wanted.filter fun q => (g.resolved? q.key).isNone
  modify fun g =>
    { g with entries := fresh.foldl (fun t q => Assoc.putNew q.key .pending t) g.entries }
  let outcomes ← discoverAll c budget fresh
  settle (sortedSet (wanted.map QName.key)) outcomes

end StoredCall.TypeGraph
