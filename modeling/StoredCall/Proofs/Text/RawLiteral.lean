import StoredCall.Proofs.Text.Reader
import StoredCall.Proofs.Text.Split

/-!
# Literals between hashes end where they should

A literal between hashes has no escapes. It ends at the first quote with at least as many hashes
after it as stand in front of the literal, and such a quote may stand in the text, or begin in the
text and take its hashes from what follows.

* `RawLiteral` is this rule, said of the occurrences of the end and not by a reader.
* `rawText_eq_some_iff`: the reader `rawText` finds what the rule says, in every source text.
* **`rawLiteral_rawString`**: the literal of a text is read as this text and ends at its own end,
  whatever stands after it.
-/

namespace StoredCall.Text

/-- A quote and as many hashes as a literal has in front. -/
def rawEnd (n : Nat) : List Char := '"' :: List.replicate n '#'

/-- A source text opens with a literal between `n` hashes. Its `text` goes up to the first quote
that is followed by `n` hashes or more, and `rest` begins after `n` of them. -/
structure RawLiteral (n : Nat) (source text rest : List Char) : Prop where
  shape : source = 'r' :: (List.replicate n '#' ++ '"' :: (text ++ (rawEnd n ++ rest)))
  first : ∀ front back, text ++ (rawEnd n ++ rest) = front ++ (rawEnd n ++ back) →
    text.length ≤ front.length

/-- What `rawText` reads opens with `r`, hashes and a quote. -/
theorem exists_of_run_rawText {source rest : List Char} {s : String}
    (h : rawText.run source = some (s, rest)) :
    ∃ n body, source = 'r' :: (List.replicate n '#' ++ '"' :: body) := by
  obtain ⟨⟨_, cs⟩, hexpect, hread⟩ := Option.bind_eq_some_iff.mp h
  obtain ⟨cs, hcs, he⟩ := Option.map_eq_some_iff.mp hexpect
  cases he
  obtain rfl : source = 'r' :: cs := dropStart?_eq_some_iff.mp hcs
  have hhashes : cs.takeWhile (· = '#') = List.replicate (cs.takeWhile (· = '#')).length '#' :=
    List.eq_replicate_iff.mpr ⟨rfl, fun c hc => by simpa using List.mem_takeWhile_imp hc⟩
  simp only at hread
  split at hread
  · rename_i body hbody
    refine ⟨(cs.takeWhile (· = '#')).length, body, ?_⟩
    rw [← hhashes, ← hbody, List.takeWhile_append_dropWhile]
  · cases hread

/-- **A reader follows the rule**: it finds a literal where there is one, and nothing else. -/
theorem rawText_eq_some_iff {source rest : List Char} {s : String} :
    rawText.run source = some (s, rest) ↔ ∃ n, RawLiteral n source s.toList rest := by
  constructor
  · intro h
    obtain ⟨n, body, rfl⟩ := exists_of_run_rawText h
    rw [run_rawText] at h
    obtain ⟨⟨text, _⟩, hcut, he⟩ := Option.map_eq_some_iff.mp h
    cases he
    obtain ⟨rfl, hfirst⟩ := cutAt?_eq_some_iff.mp hcut
    refine ⟨n, ?_, ?_⟩
    · rw [String.toList_ofList]
      rfl
    · rw [String.toList_ofList]
      exact hfirst
  · rintro ⟨n, hshape, hfirst⟩
    have hcut : cutAt? ('"' :: List.replicate n '#') (s.toList ++ (rawEnd n ++ rest)) =
        some (s.toList, rest) := cutAt?_eq_some_iff.mpr ⟨rfl, hfirst⟩
    simp only [hshape, run_rawText, hcut, Option.map_some, String.ofList_toList]

/-- **The literal of a text is read as the text**, and the reader stops right after it: by the rule
there is one way to read it, whatever quotes and hashes the text has and whatever stands after. -/
theorem rawLiteral_rawString (s : String) (after : List Char) :
    rawText.run ((rawString s).toList ++ after) = some (s, after) ∧
    ∀ text rest, (∃ n, RawLiteral n ((rawString s).toList ++ after) text rest) ↔
      text = s.toList ∧ rest = after := by
  refine ⟨reads_rawText s after, fun text rest => ?_⟩
  rw [← String.toList_ofList (l := text), ← rawText_eq_some_iff, reads_rawText s after]
  constructor
  · intro h
    obtain ⟨htext, hrest⟩ := Prod.mk.inj (Option.some.inj h)
    rw [htext]
    exact ⟨rfl, hrest.symm⟩
  · rintro ⟨htext, rfl⟩
    rw [String.toList_inj.mp htext]

-- The text has a quote with one hash, so two are needed.
example : rawString "p(\"#id\");" = "r##\"p(\"#id\");\"##" := by decide +kernel

end StoredCall.Text
