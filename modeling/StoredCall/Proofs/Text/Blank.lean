import Mathlib
import StoredCall.Text.Blank

/-!
# White space and capitals

* `Text.strip_strip`, `Text.strip_map_toUpper`: trimming is done once, and capitals do not matter to
  it; hence `Text.upper_trim_upper_trim`.
* `Text.strip_eq_self`: a text without white space is not trimmed.
-/

namespace StoredCall.Text

theorem isBlank_of_isAlpha {c : Char} (h : c.isAlpha = true) : isBlank c = false := by
  have hn : (65 ≤ c.toNat ∧ c.toNat ≤ 90) ∨ (97 ≤ c.toNat ∧ c.toNat ≤ 122) := by
    simpa [Char.isAlpha, Char.isUpper, Char.isLower, UInt32.le_iff_toNat_le] using h
  unfold isBlank
  simp
  omega

theorem isBlank_of_isDigit {c : Char} (h : c.isDigit = true) : isBlank c = false := by
  have hn : 48 ≤ c.toNat ∧ c.toNat ≤ 57 := by
    simpa [Char.isDigit, UInt32.le_iff_toNat_le] using h
  unfold isBlank
  simp
  omega

/-- What a document counts as space is white space. -/
theorem isSpace_of_isBlank {c : Char} (h : isBlank c = false) : isSpace c = false := by
  refine Bool.eq_false_iff.mpr fun hspace => ?_
  simp only [isSpace, Bool.or_eq_true, beq_iff_eq] at hspace
  rcases hspace with ((rfl | rfl) | rfl) | rfl <;> cases h

theorem isBlank_toUpper (c : Char) : isBlank c.toUpper = isBlank c := by
  by_cases h : c.isLower = true
  · have ha : c.isAlpha = true := by simp [Char.isAlpha, h]
    have hu : c.toUpper.isAlpha = true := by
      rw [Char.isAlpha, Char.isUpper_toUpper_eq_isAlpha, ha, Bool.true_or]
    rw [isBlank_of_isAlpha ha, isBlank_of_isAlpha hu]
  · rw [Char.toUpper_eq_of_not_isLower h]

/-- What was stripped at both ends stays as it is. -/
theorem strip_strip (p : Char → Bool) (cs : List Char) : strip p (strip p cs) = strip p cs := by
  have hstart : stripStart p (strip p cs) = strip p cs := by
    refine List.dropWhile_eq_self_iff.mpr fun hlt => ?_
    have hinit : strip p cs <+: stripStart p cs := List.rdropWhile_prefix p _
    rw [hinit.getElem hlt]
    exact List.dropWhile_eq_self_iff.mp (List.dropWhile_idempotent p cs) _
  calc strip p (strip p cs) = stripEnd p (strip p cs) := congrArg (stripEnd p) hstart
    _ = strip p cs := List.rdropWhile_idempotent p _

theorem strip_map_toUpper (cs : List Char) :
    strip isBlank (cs.map Char.toUpper) = (strip isBlank cs).map Char.toUpper := by
  have hcomp : isBlank ∘ Char.toUpper = isBlank := funext isBlank_toUpper
  unfold strip stripEnd stripStart
  rw [List.dropWhile_map, hcomp, ← List.map_reverse, List.dropWhile_map, hcomp, List.map_reverse]

/-- Trimming and capitals are made once. -/
theorem upper_trim_upper_trim (s : String) : upper (trim (upper (trim s))) = upper (trim s) := by
  unfold upper trim
  simp only [String.toList_ofList, strip_map_toUpper, strip_strip, List.map_map]
  congr 2
  exact funext Char.toUpper_toUpper_eq_toUpper

/-- There is nothing to strip from a text without characters of the class. -/
theorem strip_eq_self {p : Char → Bool} {cs : List Char} (h : ∀ c ∈ cs, p c = false) :
    strip p cs = cs := by
  have hstart : ∀ {ds : List Char}, (∀ c ∈ ds, p c = false) → ds.dropWhile p = ds := by
    intro ds hd
    refine List.dropWhile_eq_self_iff.mpr fun hlt => ?_
    simp [hd _ (List.getElem_mem hlt)]
  unfold strip stripEnd stripStart
  rw [hstart h, hstart fun c hc => h c (List.mem_reverse.mp hc), List.reverse_reverse]

end StoredCall.Text
