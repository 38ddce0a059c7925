import StoredCall.Proofs.Path.Text

/-!
# The text of a path is its normal form

Many texts are read as one path: dots may be doubled or stand at either end, and marks may have a
dot before them. The path has one text of its own, without such dots, which is read as it too.

* `Path.Spells`: the steps that the dotted parts of a text spell. `Path.parse_eq_ok_iff` says that a
  text is read as these and in no other way.
* `Path.Malformed`: a part keeps a bracket when all marks are taken off its end.
  `Path.parse_eq_error_iff` says that these texts are refused and no others.
* **`Path.parse_normalizes`**: a path that was read, and every path whose fields can stand in a
  text, comes back from its text.
-/

namespace StoredCall

open Text

namespace Path

/-! ## Reading the parts of a text -/

theorem partSteps_eq_none_iff {part : List Char} :
    partSteps part = none ↔ ∃ rest, Unmarked part rest ∧ ('[' ∈ rest ∨ ']' ∈ rest) := by
  constructor
  · intro h
    obtain ⟨rest, ⟨k, rfl⟩, hlast⟩ := exists_unmarked part
    refine ⟨rest, ⟨⟨k, rfl⟩, hlast⟩, ?_⟩
    rw [partSteps_of_unmarked hlast] at h
    by_contra hno
    rw [if_neg hno] at h
    cases h
  · rintro ⟨rest, ⟨⟨k, rfl⟩, hlast⟩, hbracket⟩
    rw [partSteps_of_unmarked hlast, if_pos hbracket]

/-- The steps that dotted parts spell, each part a field or nothing and marks after it. -/
inductive Spells : List (List Char) → Path → Prop
  | nil : Spells [] []
  | cons {name : List Char} {k : Nat} {parts : List (List Char)} {p : Path} (hopening : '[' ∉ name)
      (hclosing : ']' ∉ name) (h : Spells parts p) :
      Spells ((name ++ marks k) :: parts) (stepsOfPart name k ++ p)

theorem stepsOf?_eq_some_iff : ∀ {parts : List (List Char)} {p : Path},
    stepsOf? (parts.filter fun part => !part.isEmpty) = some p ↔ Spells parts p
  | [], p => by
    constructor
    · intro h
      rw [← Option.some.inj h]
      exact .nil
    · rintro ⟨⟩
      rfl
  | part :: parts, p => by
    rw [stepsOf?_filter_cons, Option.bind_eq_some_iff]
    constructor
    · rintro ⟨steps, hsteps, h⟩
      obtain ⟨more, hmore, rfl⟩ := Option.map_eq_some_iff.mp h
      obtain ⟨name, k, rfl, hopening, hclosing, rfl⟩ := partSteps_eq_some_iff.mp hsteps
      exact .cons hopening hclosing (stepsOf?_eq_some_iff.mp hmore)
    · intro h
      cases h with
      | cons hopening hclosing h =>
        refine ⟨_, partSteps_marked hopening hclosing _, ?_⟩
        rw [stepsOf?_eq_some_iff.mpr h, Option.map_some]

theorem stepsOf?_eq_none_iff : ∀ {parts : List (List Char)},
    stepsOf? (parts.filter fun part => !part.isEmpty) = none ↔
      ∃ part ∈ parts, partSteps part = none
  | [] => by simp [stepsOf?]
  | part :: parts => by
    rw [stepsOf?_filter_cons]
    cases hpart : partSteps part with
    | none => simp [hpart]
    | some steps => simp [hpart, stepsOf?_eq_none_iff]

/-- A text with a part that keeps a bracket when all marks are taken off its end. -/
def Malformed (s : String) : Prop :=
  ∃ part ∈ s.toList.splitOn '.', ∃ rest, Unmarked part rest ∧ ('[' ∈ rest ∨ ']' ∈ rest)

/-- **A text is read as the steps that its parts spell.** -/
theorem parse_eq_ok_iff {s : String} {p : Path} :
    parse s = .ok p ↔ Spells (s.toList.splitOn '.') p := by
  rw [← pieces_eq_splitOn, ← stepsOf?_eq_some_iff]
  unfold parse
  cases stepsOf? ((pieces '.' s.toList).filter fun part => !part.isEmpty) <;> simp

/-- **A text is refused exactly if it is malformed**, and the error names it. -/
theorem parse_eq_error_iff {s : String} {e : MalformedPath} :
    parse s = .error e ↔ e = ⟨s⟩ ∧ Malformed s := by
  have hmalformed : Malformed s ↔
      stepsOf? ((pieces '.' s.toList).filter fun part => !part.isEmpty) = none := by
    rw [stepsOf?_eq_none_iff, pieces_eq_splitOn]
    simp only [Malformed, partSteps_eq_none_iff]
  rw [hmalformed]
  unfold parse
  cases stepsOf? ((pieces '.' s.toList).filter fun part => !part.isEmpty) <;> simp [eq_comm]

/-! ## Normal form -/

/-- **The text of a path is its normal form.** Whatever text a path was read from, the path is read
from its own text too, and so is every path whose fields can stand in a text. A text is read as what
its parts spell, and refused exactly if a part keeps a bracket when all marks are taken off its
end. -/
theorem parse_normalizes :
    (∀ s p, parse s = .ok p → parse p.text = .ok p) ∧
    (∀ p : Path, p.Readable → parse p.text = .ok p) ∧
    (∀ s p, parse s = .ok p ↔ Spells (s.toList.splitOn '.') p) ∧
    ∀ s e, parse s = .error e ↔ e = ⟨s⟩ ∧ Malformed s := by
  refine ⟨fun s p h => ?_, fun p hp => parse_text hp, fun s p => parse_eq_ok_iff,
    fun s e => parse_eq_error_iff⟩
  exact parse_text (readable_of_parse h)

/-- Every element, the lines of each, and of the elements of their elements the quantity. -/
def nestedQuantity : Path := [.each, .field "lines", .each, .each, .field "qty"]

/-- A text with too many dots is read as a path, whose own text has none of them. A mark in front of
a name is no mark at the end of a part. -/
theorem nestedQuantity_parse_normalizes :
    parse ".[*]..lines[*].[*].qty." = .ok nestedQuantity ∧
    nestedQuantity.text = "[*].lines[*][*].qty" ∧
    parse "[*].lines[*][*].qty" = .ok nestedQuantity ∧
    parse "[*]lines.qty" = .error ⟨"[*]lines.qty"⟩ ∧ Malformed "[*]lines.qty" := by
  have hread : parse ".[*]..lines[*].[*].qty." = .ok nestedQuantity := by decide +kernel
  have htext : nestedQuantity.text = "[*].lines[*][*].qty" := by decide +kernel
  have herror : parse "[*]lines.qty" = .error ⟨"[*]lines.qty"⟩ := by decide +kernel
  obtain ⟨hagain, -, -, hrefused⟩ := parse_normalizes
  refine ⟨hread, htext, ?_, herror, ((hrefused _ _).mp herror).2⟩
  rw [← htext]
  exact hagain _ _ hread

end Path

end StoredCall
