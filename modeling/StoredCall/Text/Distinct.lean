import StoredCall.Text.Casing

/-!
# Distinct names

Names that stand side by side must be different. A name that is taken gets the smallest free number
from 2 on, after a mark.

* `freshNameWith` (`claim`, `unique_name`) looks at one more candidate than there are taken names,
  so one of them is free. Its numbers have no end. A counter of 32 bits with a sign ends at
  2147483647, which no run reaches before that many siblings have the same name.
* `freshName` is the form for fields, where `base` becomes `base_2`, `base_3`, …
* `freshNames` names a list of siblings from left to right; `fieldNames` (`unique_field_names`) does
  so with field names.
-/

namespace StoredCall.Text

/-- The numbered forms of a name, from 2 on. -/
def numbered (mark base : String) (count : Nat) : List String :=
  (List.range' 2 count).map fun n => base ++ mark ++ toString n

/-- The first free form of a name, with `mark` before a number. -/
def freshNameWith (mark : String) (used : List String) (base : String) : String :=
  if used.contains base then
    ((numbered mark base (used.length + 1)).find? fun s => !used.contains s).getD base
  else base

/-- The first free form of a field name. -/
def freshName (used : List String) (base : String) : String := freshNameWith "_" used base

/-- Free forms of a list of names, each taken before the next is looked at. -/
def freshNames : List String → List String → List String
  | _, [] => []
  | used, base :: rest =>
    let name := freshName used base
    name :: freshNames (name :: used) rest

/-- The field names of siblings. -/
def fieldNames (names : List String) : List String :=
  freshNames [] (names.map snake)

end StoredCall.Text
