import StoredCall.TypeGraph

/-!
# Expansion of types

An argument of a named type has the shape that the type unfolds to. A type that contains itself
has no such shape. Expansion recurses on the number of entries, since the types that are open inside
each other are pairwise different.

* `TypeGraph.expand` resolves a reference and unfolds it.
-/

namespace StoredCall.TypeGraph

/-- The shape of a reference, by an expansion of keys. -/
def expandRef (expandKey : String → Except Error Shape) : TypeRef → Except Error Shape
  | .scalar s => .ok (.scalar s)
  | .named key => expandKey key

/-- The arguments that the fields of a record stand for, at positions from `position` on. -/
def expandFields (expandKey : String → Except Error Shape) (direction : Direction) :
    (position : UInt32) → List Field → Except Error (List Argument)
  | _, [] => .ok []
  | position, f :: rest => do
    let shape ← expandRef expandKey f.type
    let more ← expandFields expandKey direction (position + 1) rest
    return { name := f.name, position, direction, shape } :: more

/-- The shape of a definition under a key. -/
def expandDef (expandKey : String → Except Error Shape) (direction : Direction) (key : String) :
    TypeDef → Except Error Shape
  | .scalar s => .ok (.scalar s)
  | .record fields => do
    return .record (some key) (← expandFields expandKey direction 1 fields)
  | .collection elem indexBy => do
    let shape ← expandRef expandKey elem
    return .table (some key) (some { name := "", position := 1, direction, shape })
      (indexBy != some .integer) false

/-- The shape of a key inside the types of `stack`, by an expansion of the keys inside it. -/
def expandKeyBy (g : TypeGraph) (direction : Direction)
    (inner : List String → String → Except Error Shape) (stack : List String) (key : String) :
    Except Error Shape :=
  match g.resolved? key with
  | none => .error (.unknownType key)
  | some d =>
    if stack.contains key then .error (.notSupported key .recursiveType)
    else expandDef (inner (key :: stack)) direction key d

/-- The shape of a key inside the types of `stack`; `fuel` bounds the types that can still be open
inside each other. -/
def expandKey (g : TypeGraph) (direction : Direction) :
    (fuel : Nat) → (stack : List String) → String → Except Error Shape
  | 0, _, key => .error (.notSupported key .recursiveType)
  | fuel + 1, stack, key => expandKeyBy g direction (expandKey g direction fuel) stack key

/-- The shape that a resolved key unfolds to. -/
def shapeOf (g : TypeGraph) (direction : Direction) (key : String) : Except Error Shape :=
  expandKey g direction (g.entries.length + 1) [] key

/-- Resolves a reference and unfolds it. -/
def expand (c : Catalog) (reference : String) (direction : Direction) : Resolve Shape := do
  let node ← resolve c reference
  ofExcept (shapeOf (← get) direction node.key)

end StoredCall.TypeGraph
