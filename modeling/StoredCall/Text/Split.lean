/-!
# Cutting a text

* `pieces sep cs` cuts at every `sep`; a text without `sep` is one piece (`pieces_eq_singleton`), so
  the list is never empty.
* `cutAt? pat cs` cuts at the first occurrence of a pattern, if there is one (`cutAt?_eq_none`).
* `lines` cuts at line feeds, drops one carriage return before each, and gives no last empty line.
* `dropEnd? pat cs` takes a pattern off the end.
-/

namespace StoredCall.Text

/-- The pieces of a text between the occurrences of `sep`. -/
def pieces (sep : Char) : List Char → List (List Char)
  | [] => [[]]
  | c :: cs =>
    if c = sep then [] :: pieces sep cs
    else
      match pieces sep cs with
      | [] => [[c]]
      | w :: ws => (c :: w) :: ws

theorem pieces_eq_singleton {sep : Char} : ∀ {a : List Char}, sep ∉ a → pieces sep a = [a]
  | [], _ => rfl
  | c :: a, h => by
    rw [List.mem_cons, not_or] at h
    rw [pieces, if_neg (Ne.symm h.1), pieces_eq_singleton h.2]

/-- The rest of a text after `pat`, if it starts with it. -/
def dropStart? : List Char → List Char → Option (List Char)
  | [], cs => some cs
  | _ :: _, [] => none
  | p :: ps, c :: cs => if p = c then dropStart? ps cs else none

/-- The part of a text before `pat`, if it ends with it. -/
def dropEnd? (pat cs : List Char) : Option (List Char) :=
  (dropStart? pat.reverse cs.reverse).map List.reverse

/-- What stands before and after the first occurrence of `pat`. -/
def cutAt? (pat : List Char) : List Char → Option (List Char × List Char)
  | [] => (dropStart? pat []).map fun rest => ([], rest)
  | c :: cs =>
    match dropStart? pat (c :: cs) with
    | some rest => some ([], rest)
    | none => (cutAt? pat cs).map fun (before, rest) => (c :: before, rest)

theorem cutAt?_eq_none {sep : Char} : ∀ {a : List Char}, sep ∉ a → cutAt? [sep] a = none
  | [], _ => rfl
  | c :: a, h => by
    rw [List.mem_cons, not_or] at h
    rw [cutAt?, dropStart?, if_neg h.1]
    simp only [cutAt?_eq_none h.2, Option.map_none]

/-- What stands before and after the first character of a class, which is dropped. -/
def cutWhere? (p : Char → Bool) : List Char → Option (List Char × List Char)
  | [] => none
  | c :: cs =>
    if p c then some ([], cs)
    else (cutWhere? p cs).map fun (before, rest) => (c :: before, rest)

/-- The lines of a text. A carriage return before a line feed belongs to the line's end, and a
text that ends in a line feed has no further line. -/
def lines (cs : List Char) : List (List Char) :=
  let ws := pieces '\n' cs
  let full := (ws.dropLast).map fun w => (dropEnd? ['\r'] w).getD w
  match ws.getLast? with
  | none => full
  | some last => if last.isEmpty then full else full ++ [last]

/-- The texts of a list with `sep` between them. -/
def join (sep : String) : List String → String
  | [] => ""
  | [s] => s
  | s :: rest => s ++ sep ++ join sep rest

end StoredCall.Text
