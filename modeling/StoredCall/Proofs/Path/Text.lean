import StoredCall.Proofs.Path
import StoredCall.Proofs.Text.Split

/-!
# The text of a path can be read back

A path is written as its fields with dots between them and `[*]` for every element. The text is cut
at dots, marks are taken off the end of each part, and what is left of a part is a field. So a path
comes back as it was if its fields are not empty and hold neither dots nor brackets.

* `FieldName` is such a field.
* `Path.Unmarked` is what is left of a part; `Path.partSteps_of_unmarked` says how it is read.
* **`Path.parse_text`**: the text of a path with such fields is read as the path.
* `Path.readable_of_parse`: what is read has such fields, so no other path comes back
  (`Path.parse_text_iff`).
-/

namespace StoredCall

open Text

/-- A field that can stand in the text of a path. -/
structure FieldName (name : String) : Prop where
  nonempty : name ≠ ""
  dot : '.' ∉ name.toList
  opening : '[' ∉ name.toList
  closing : ']' ∉ name.toList

namespace Path

/-- A path all of whose fields can stand in its text. -/
def Readable (p : Path) : Prop := ∀ name, .field name ∈ p → FieldName name

/-! ## Cutting at dots -/

/-- The marks for a number of steps through every element. -/
def marks : Nat → List Char
  | 0 => []
  | k + 1 => marks k ++ ['[', '*', ']']

/-- The dotted parts of a text that goes on with the steps of a path. -/
def partsFrom (part : List Char) : Path → List (List Char)
  | [] => [part]
  | .each :: rest => partsFrom (part ++ ['[', '*', ']']) rest
  | .field name :: rest => part :: partsFrom name.toList rest

theorem pieces_tailText : ∀ {p : Path} {part : List Char}, '.' ∉ part → p.Readable →
    pieces '.' (part ++ p.tailText.toList) = partsFrom part p
  | [], part, hpart, _ => by
    rw [tailText, String.toList_empty, List.append_nil, pieces_eq_singleton hpart, partsFrom]
  | .each :: rest, part, hpart, hp => by
    have hrest : Readable rest := fun name hm => hp name (List.mem_cons_of_mem _ hm)
    have hmark : '.' ∉ part ++ ['[', '*', ']'] := by simpa using hpart
    rw [tailText, String.toList_append, ← List.append_assoc, partsFrom]
    exact pieces_tailText hmark hrest
  | .field name :: rest, part, hpart, hp => by
    have hrest : Readable rest := fun name hm => hp name (List.mem_cons_of_mem _ hm)
    have hname := hp name List.mem_cons_self
    rw [tailText, String.append_assoc, String.toList_append, String.toList_append, partsFrom]
    show pieces '.' (part ++ '.' :: (name.toList ++ (tailText rest).toList)) = _
    rw [pieces_append_sep hpart, pieces_tailText hname.dot hrest]

/-! ## Reading parts -/

/-- Marks are counted and dropped up to where no mark stands. -/
theorem dropMarks_marks {cs : List Char} (h : ¬ [']', '*', '['] <+: cs) : ∀ k : Nat,
    dropMarks ((marks k).reverse ++ cs) = (k, cs)
  | 0 => by
    rw [marks, List.reverse_nil, List.nil_append]
    unfold dropMarks
    split
    · exact absurd ⟨_, rfl⟩ h
    · rfl
  | k + 1 => by
    have hm : (marks (k + 1)).reverse = ']' :: '*' :: '[' :: (marks k).reverse := by
      simp [marks]
    rw [hm]
    show dropMarks (']' :: '*' :: '[' :: ((marks k).reverse ++ cs)) = _
    rw [dropMarks, dropMarks_marks h k]

/-- A reversed text is made up of the marks that lead it and a rest without one. -/
theorem exists_leading_marks (cs : List Char) :
    ∃ k rest, cs = (marks k).reverse ++ rest ∧ ¬ [']', '*', '['] <+: rest := by
  induction cs using dropMarks.induct with
  | case1 cs _ _ _ ih =>
    obtain ⟨k, rest, hcs, hno⟩ := ih
    refine ⟨k + 1, rest, ?_, hno⟩
    simp [hcs, marks]
  | case2 cs hno =>
    refine ⟨0, cs, rfl, ?_⟩
    rintro ⟨rest, hrest⟩
    exact hno rest hrest.symm

/-- `rest` is what is left of a part when all marks are taken off its end. -/
structure Unmarked (part rest : List Char) : Prop where
  marked : ∃ k, part = rest ++ marks k
  last : ¬ ['[', '*', ']'] <:+ rest

/-- Marks can be taken off until none is left. -/
theorem exists_unmarked (part : List Char) : ∃ rest, Unmarked part rest := by
  obtain ⟨k, rest, hpart, hno⟩ := exists_leading_marks part.reverse
  refine ⟨rest.reverse, ⟨k, ?_⟩, fun h => hno ?_⟩
  · rw [← List.reverse_reverse part, hpart, List.reverse_append, List.reverse_reverse]
  · exact List.reverse_suffix.mp h

/-- The steps of a part: a field, unless the part has no name, and as many steps through every
element as there are marks. -/
def stepsOfPart (name : List Char) (k : Nat) : Path :=
  (if name.isEmpty then [] else [.field (String.ofList name)]) ++ List.replicate k .each

/-- A part without brackets in front of its marks is a field and marks, any other is refused. -/
theorem partSteps_of_unmarked {rest : List Char} (hlast : ¬ ['[', '*', ']'] <:+ rest) (k : Nat) :
    partSteps (rest ++ marks k) =
      if '[' ∈ rest ∨ ']' ∈ rest then none else some (stepsOfPart rest k) := by
  have hrev : ¬ [']', '*', '['] <+: rest.reverse := fun h => hlast (List.reverse_prefix.mp h)
  have hany : rest.any (fun c => c == '[' || c == ']') = true ↔ '[' ∈ rest ∨ ']' ∈ rest := by
    simp only [List.any_eq_true, Bool.or_eq_true, beq_iff_eq, and_or_left, exists_or,
      exists_eq_right]
  unfold partSteps
  rw [List.reverse_append, dropMarks_marks hrev]
  simp only [List.reverse_reverse, hany]
  rfl

theorem partSteps_marked {name : List Char} (ho : '[' ∉ name) (hc : ']' ∉ name) (k : Nat) :
    partSteps (name ++ marks k) = some (stepsOfPart name k) := by
  have hlast : ¬ ['[', '*', ']'] <:+ name := fun h => ho (h.mem List.mem_cons_self)
  rw [partSteps_of_unmarked hlast, if_neg (not_or.mpr ⟨ho, hc⟩)]

theorem partSteps_eq_some_iff {part : List Char} {steps : Path} :
    partSteps part = some steps ↔
      ∃ name k, part = name ++ marks k ∧ '[' ∉ name ∧ ']' ∉ name ∧ steps = stepsOfPart name k := by
  constructor
  · intro h
    obtain ⟨rest, ⟨k, rfl⟩, hlast⟩ := exists_unmarked part
    rw [partSteps_of_unmarked hlast] at h
    split at h
    · cases h
    · rename_i hno
      rw [not_or] at hno
      exact ⟨rest, k, rfl, hno.1, hno.2, (Option.some.inj h).symm⟩
  · rintro ⟨name, k, rfl, hopening, hclosing, rfl⟩
    exact partSteps_marked hopening hclosing k

/-- An empty part stands for no steps, so it does not matter that it is passed over. -/
theorem stepsOf?_filter_cons (part : List Char) (rest : List (List Char)) :
    stepsOf? ((part :: rest).filter fun part => !part.isEmpty) =
      (partSteps part).bind fun steps =>
        (stepsOf? (rest.filter fun part => !part.isEmpty)).map (steps ++ ·) := by
  cases part with
  | nil =>
    have hnil : partSteps [] = some [] := rfl
    rw [List.filter_cons_of_neg (by simp), hnil, Option.bind_some]
    cases stepsOf? (rest.filter fun part => !part.isEmpty) <;> rfl
  | cons c part =>
    rw [List.filter_cons_of_pos (by simp), stepsOf?]
    cases partSteps (c :: part) with
    | none => rfl
    | some steps => cases stepsOf? (rest.filter fun part => !part.isEmpty) <;> rfl

/-- The parts of a text are read as the steps of the part before a path, and the path. -/
theorem stepsOf?_partsFrom : ∀ {p : Path} {name : List Char} (k : Nat), '[' ∉ name → ']' ∉ name →
    p.Readable → stepsOf? ((partsFrom (name ++ marks k) p).filter fun part => !part.isEmpty) =
      some (stepsOfPart name k ++ p)
  | [], name, k, ho, hc, _ => by
    rw [partsFrom, stepsOf?_filter_cons, partSteps_marked ho hc]
    rfl
  | .each :: rest, name, k, ho, hc, hp => by
    have hrest : Readable rest := fun name hm => hp name (List.mem_cons_of_mem _ hm)
    have ih := stepsOf?_partsFrom (k + 1) ho hc hrest
    rw [partsFrom, List.append_assoc]
    show stepsOf? ((partsFrom (name ++ marks (k + 1)) rest).filter _) = _
    rw [ih, stepsOfPart, stepsOfPart, List.replicate_succ']
    simp only [List.append_assoc, List.singleton_append]
  | .field other :: rest, name, k, ho, hc, hp => by
    have hrest : Readable rest := fun name hm => hp name (List.mem_cons_of_mem _ hm)
    have hother := hp other List.mem_cons_self
    have ih := stepsOf?_partsFrom 0 hother.opening hother.closing hrest
    have hne : other.toList.isEmpty = false := by
      simpa using hother.nonempty
    rw [marks, List.append_nil, stepsOfPart, hne, List.replicate_zero, List.append_nil] at ih
    rw [partsFrom, stepsOf?_filter_cons, partSteps_marked ho hc, Option.bind_some, ih]
    simp

/-! ## Round trip -/

/-- A text that is one part and the steps of a path is read as these. -/
theorem parse_of_part {s : String} {name : List Char} {k : Nat} {rest : Path}
    (hs : s.toList = name ++ marks k ++ rest.tailText.toList) (hd : '.' ∉ name ++ marks k)
    (ho : '[' ∉ name) (hc : ']' ∉ name) (hrest : rest.Readable) :
    parse s = .ok (stepsOfPart name k ++ rest) := by
  unfold parse
  rw [hs, pieces_tailText hd hrest, stepsOf?_partsFrom k ho hc hrest]

/-- **The text of a path is read as the path.** -/
theorem parse_text {p : Path} (hp : p.Readable) : parse p.text = .ok p := by
  cases p with
  | nil => rfl
  | cons step rest =>
    have hrest : Readable rest := fun name hm => hp name (List.mem_cons_of_mem _ hm)
    cases step with
    | each =>
      have htext : (text (.each :: rest)).toList = [] ++ marks 1 ++ (tailText rest).toList := by
        rw [text, String.toList_append]
        rfl
      exact parse_of_part htext (by decide) List.not_mem_nil List.not_mem_nil hrest
    | field name =>
      have hname := hp name List.mem_cons_self
      have hsteps : stepsOfPart name.toList 0 = [.field name] := by
        simp [stepsOfPart, hname.nonempty]
      have htext : (text (.field name :: rest)).toList =
          name.toList ++ marks 0 ++ (tailText rest).toList := by
        rw [text, String.toList_append, marks, List.append_nil]
      have hdot : '.' ∉ name.toList ++ marks 0 := by
        rw [marks, List.append_nil]
        exact hname.dot
      have hparse := parse_of_part htext hdot hname.opening hname.closing hrest
      rwa [hsteps] at hparse

/-! ## What is read -/

/-- A part without dots is read as steps that can be written. -/
theorem readable_partSteps {part : List Char} {steps : Path} (hd : '.' ∉ part)
    (h : partSteps part = some steps) : steps.Readable := by
  obtain ⟨name, k, rfl, hopening, hclosing, rfl⟩ := partSteps_eq_some_iff.mp h
  intro field hm
  rcases List.mem_append.mp hm with hm | hm
  · split at hm
    · cases hm
    · rename_i hne
      obtain rfl := Step.field.inj (List.mem_singleton.mp hm)
      refine ⟨fun he => hne ?_, ?_, ?_, ?_⟩
      · rw [String.ofList_eq_empty_iff.mp he]
        rfl
      · rw [String.toList_ofList]
        exact fun hdot => hd (List.mem_append_left _ hdot)
      · rwa [String.toList_ofList]
      · rwa [String.toList_ofList]
  · cases List.eq_of_mem_replicate hm

theorem readable_stepsOf? : ∀ {parts : List (List Char)} {p : Path}, (∀ part ∈ parts, '.' ∉ part) →
    stepsOf? parts = some p → p.Readable
  | [], p, _, h => by
    rw [← Option.some.inj h]
    exact fun _ hm => absurd hm List.not_mem_nil
  | part :: rest, p, hd, h => by
    rw [List.forall_mem_cons] at hd
    obtain ⟨steps, hsteps, h⟩ := Option.bind_eq_some_iff.mp h
    obtain ⟨more, hmore, h⟩ := Option.bind_eq_some_iff.mp h
    rw [← Option.some.inj h]
    intro name hm
    rcases List.mem_append.mp hm with hm | hm
    · exact readable_partSteps hd.1 hsteps name hm
    · exact readable_stepsOf? hd.2 hmore name hm

/-- **Whatever is read can be written.** -/
theorem readable_of_parse {s : String} {p : Path} (h : parse s = .ok p) : p.Readable := by
  unfold parse at h
  split at h
  · rename_i q hq
    rw [← Except.ok.inj h]
    exact readable_stepsOf? (fun part hm => notMem_of_mem_pieces (List.mem_of_mem_filter hm)) hq
  · cases h

/-- **A path comes back from its text exactly if its fields can stand in it.** -/
theorem parse_text_iff {p : Path} : parse p.text = .ok p ↔ p.Readable :=
  ⟨readable_of_parse, parse_text⟩

-- Marks in a field are read as steps, and a field without characters is passed over.
example : parse (text [.field "lines[*]"]) = .ok [.field "lines", .each] := by decide +kernel
example : parse (text [.field "lines", .field ""]) = .ok [.field "lines"] := by decide +kernel

/-- Paths with one text are one path. -/
theorem text_injective {p q : Path} (hp : p.Readable) (hq : q.Readable) (h : p.text = q.text) :
    p = q := by
  have hread := parse_text hp
  rw [h, parse_text hq] at hread
  exact (Except.ok.inj hread).symm

end Path

end StoredCall
