import StoredCall.Assoc
import StoredCall.Text.Blank
import StoredCall.Text.Casing

/-!
# Local identifiers

The locals of a block have identifiers of at most `maxIdent` characters. Each is made from a long
name, and stands for that long name in all blocks of a package; different long names have different
identifiers.

* `Names` is what has been given out, one scope to each package.
* `Names.ident?` gives the identifier of a long name. Numbers are counted in a signed word of 32
  bits, and there is no identifier when the counter runs out.
* `Names.ident` goes on counting there. Blocks are made with it, and the two agree up to the end of
  the counter.
-/

namespace StoredCall

open Text

/-- The identifiers of one package: those given to long names, the latest first. -/
structure Scope where
  given : List (String × String) := []
  deriving DecidableEq, Repr

namespace Scope

/-- The identifiers that are taken. -/
def used (s : Scope) : List String := s.given.map Prod.snd

/-- The small letter, digit or underscore that stands for a character. -/
def identChar (c : Char) : Char :=
  if c.isAlphanum || c == '_' then c.toLower else '_'

/-- A long name in the characters of an identifier, beginning with a letter. -/
def sanitize (long : String) : List Char :=
  let cs := long.toList.map identChar
  if (cs.head?.map Char.isAlpha).getD false then cs else 'x' :: cs

/-- The base with a number at its end, cut so that the whole is not too long. -/
def withNumber (base : List Char) (n : Nat) : String :=
  let ending := "_" ++ toString n
  String.ofList (base.take (maxIdent - ending.length)) ++ ending

/-- The first free identifier among a base with the numbers from 2 on. -/
def firstFree? (used : List String) (base : List Char) (count : Nat) : Option String :=
  ((List.range' 2 count).map (withNumber base)).find? fun s => !used.contains s

/-- The first free identifier for a base: the base itself if it is short enough, else with the
first free number. One more number is tried than there are taken identifiers. -/
def free (used : List String) (base : List Char) : String :=
  if base.length ≤ maxIdent ∧ String.ofList base ∉ used then String.ofList base
  else (firstFree? used base (used.length + 1)).getD (String.ofList base)

/-- The largest number that a counter of 32 bits with a sign holds. -/
def maxNumber : Nat := 2147483647

@[inherit_doc free]
def free? (used : List String) (base : List Char) : Option String :=
  if base.length ≤ maxIdent ∧ String.ofList base ∉ used then some (String.ofList base)
  else firstFree? used base (min (used.length + 1) (maxNumber - 1))

/-- The identifier of a long name. -/
def ident (s : Scope) (long : String) : String × Scope :=
  match Assoc.get? long s.given with
  | some name => (name, s)
  | none =>
    let name := free s.used (sanitize long)
    (name, { given := (long, name) :: s.given })

@[inherit_doc ident]
def ident? (s : Scope) (long : String) : Option (String × Scope) :=
  match Assoc.get? long s.given with
  | some name => some (name, s)
  | none => (free? s.used (sanitize long)).map fun name =>
    (name, { given := (long, name) :: s.given })

end Scope

/-- The identifiers of each package. -/
abbrev Names := List (String × Scope)

/-- The identifier of a long name in a package. -/
def Names.ident (names : Names) (package long : String) : String × Names :=
  let package := upper package
  let (name, scope) := ((Assoc.get? package names).getD {}).ident long
  (name, Assoc.put package scope names)

namespace Names

@[inherit_doc Names.ident]
def ident? (names : Names) (package long : String) : Option (String × Names) :=
  let package := upper package
  (((Assoc.get? package names).getD {}).ident? long).map fun r =>
    (r.1, Assoc.put package r.2 names)

/-- The identifiers of calls one after the other, each for a package and a long name. -/
def idents? : Names → List (String × String) → Option (List String × Names)
  | names, [] => some ([], names)
  | names, (package, long) :: calls => do
    let (name, names) ← names.ident? package long
    let (more, names) ← idents? names calls
    return (name :: more, names)

end Names

end StoredCall
