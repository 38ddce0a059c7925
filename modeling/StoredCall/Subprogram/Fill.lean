import StoredCall.Subprogram.OfRows
import StoredCall.TypeGraph.Expansion

/-!
# Filling in declared types

Catalog rows may leave the inside of a composite out: a table without an element, a record without
fields, an object type as a bare scalar. Where such an argument names its type, the shape comes from
the type graph. A type that cannot be used leaves the argument as it is.

* `Subprogram.fill` (`expand_function`) fills in the arguments and the return value.
* `Subprogram.allFilled` (`build_functions`) builds subprograms from rows and fills each in.
-/

namespace StoredCall

open TypeGraph

/-- The shape of a declared type, unless there is none to be used. -/
def declared? (c : Catalog) (direction : Direction) : Option String → Resolve (Option Shape)
  | none => return none
  | some reference =>
    tryCatch
      (do return some (← expand c reference direction))
      (fun e => if e.isSkippable then return none else throw e)

/-- A table keeps the way it was declared. -/
def keepNested (nested : Bool) : Shape → Shape
  | .table typeName elem _ cursor => .table typeName elem nested cursor
  | s => s

mutual

/-- The argument with its shape filled in. -/
def Argument.fill (c : Catalog) : Argument → Resolve Argument
  | ⟨name, position, direction, shape⟩ => do
    return ⟨name, position, direction, ← shape.fill c direction⟩

/-- The shape with what is left out filled in. -/
def Shape.fill (c : Catalog) (direction : Direction) : Shape → Resolve Shape
  | .scalar s => do
    let declared ← declared? c direction (if s.isUnexpanded then s.typeName else none)
    return declared.getD (.scalar s)
  | .record typeName [] => do
    return (← declared? c direction typeName).getD (.record typeName [])
  | .record typeName (f :: rest) => do
    return .record typeName (← fillAll c (f :: rest))
  | .table typeName none nested false => do
    let declared ← declared? c direction typeName
    return (declared.map (keepNested nested)).getD (.table typeName none nested false)
  | .table typeName none nested true => return .table typeName none nested true
  | .table typeName (some elem) nested cursor => do
    return .table typeName (some (← elem.fill c)) nested cursor

/-- Arguments with their shapes filled in, from left to right. -/
def fillAll (c : Catalog) : List Argument → Resolve (List Argument)
  | [] => return []
  | a :: rest => do
    let a ← a.fill c
    let rest ← fillAll c rest
    return a :: rest

end

namespace Subprogram

/-- The subprogram with the shapes of its arguments and of its return value filled in. -/
def fill (c : Catalog) (f : Subprogram) : Resolve Subprogram := do
  let args ← fillAll c f.args
  let returns ← f.returns.mapM (Argument.fill c)
  return { f with args, returns }

/-- The wanted subprograms that rows describe, each built and then filled in. -/
def allFilled (c : Catalog) (wanted : Selection) (rows : List ArgRow) :
    Resolve (List Subprogram) :=
  (groups wanted rows).mapM fun (key, rows) => do
    fill c (← ofExcept (ofRows key rows))

end Subprogram

end StoredCall
