import StoredCall.Text.Split
import StoredCall.Text.Quoted

/-!
# Paths into values

A path leads from the root of a request or response to a value, through fields and through every
element of a list. Its text joins the fields with dots and writes `[*]` for "every element".

* `Path.text` and `Path.parse` are the two directions of the text form.
* `Path.splitEach` (`split_each`) cuts at the first "every element".
-/

namespace StoredCall

open Text

/-- A step of a path. -/
inductive Step where
  | field (name : String)
  | each
  deriving DecidableEq, Repr

/-- The steps from the root of a value to one of its parts. -/
abbrev Path := List Step

/-- A text that is no path. -/
structure MalformedPath where
  text : String
  deriving DecidableEq, Repr

/-- What is said about a text that is no path. -/
def MalformedPath.message (e : MalformedPath) : String :=
  "malformed value path: " ++ quoted e.text

namespace Path

/-- The path one field further down. -/
def child (p : Path) (name : String) : Path :=
  p ++ [.field name]

/-- The path to every element of the list at `p`. -/
def elements (p : Path) : Path :=
  p ++ [.each]

/-- The text of the steps after the first. -/
def tailText : Path → String
  | [] => ""
  | .field name :: rest => "." ++ name ++ tailText rest
  | .each :: rest => "[*]" ++ tailText rest

/-- The text of a path. -/
def text : Path → String
  | [] => ""
  | .field name :: rest => name ++ tailText rest
  | .each :: rest => "[*]" ++ tailText rest

/-- Counts and drops the marks `[*]` that lead a reversed text. -/
def dropMarks : List Char → Nat × List Char
  | ']' :: '*' :: '[' :: rest =>
    let (n, cs) := dropMarks rest
    (n + 1, cs)
  | cs => (0, cs)

/-- The steps that one dotted part stands for: a field, unless nothing is left of it, and one
`each` for every mark at its end. A part with another bracket is refused. -/
def partSteps (part : List Char) : Option Path :=
  let (n, rest) := dropMarks part.reverse
  let name := rest.reverse
  if name.any (fun c => c == '[' || c == ']') then none
  else
    some ((if name.isEmpty then [] else [.field (String.ofList name)]) ++ List.replicate n .each)

/-- Reads the steps of a list of dotted parts. -/
def stepsOf? : List (List Char) → Option Path
  | [] => some []
  | part :: rest => do
    let steps ← partSteps part
    let more ← stepsOf? rest
    return steps ++ more

/-- Reads a path; empty parts between dots are passed over. -/
def parse (s : String) : Except MalformedPath Path :=
  match stepsOf? ((pieces '.' s.toList).filter fun part => !part.isEmpty) with
  | some p => .ok p
  | none => .error ⟨s⟩

/-- The steps before the first `each` and those after it. -/
def splitEach : Path → Option (Path × Path)
  | [] => none
  | .each :: rest => some ([], rest)
  | step :: rest => (splitEach rest).map fun (before, inner) => (step :: before, inner)

end Path

end StoredCall
