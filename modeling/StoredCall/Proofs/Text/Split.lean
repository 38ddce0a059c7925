import Mathlib
import StoredCall.Text.Split

/-!
# Cutting a text and putting it together

* `Text.pieces_append_sep`: the pieces of a text that is put together from pieces;
  `Text.intercalate_pieces` and `Text.notMem_of_mem_pieces` are the other way round.
* `Text.dropEnd?_eq_some_iff`: a pattern is taken off the end of exactly the texts that end in it.
* `Text.cutAt?_eq_some_iff`: a text is cut at the first occurrence of a pattern;
  `Text.cutAt?_append_sep` is the case of a single character.
-/

namespace StoredCall.Text

/-! ## Pieces -/

section Pieces

variable {sep : Char}

theorem pieces_append_sep : ∀ {a : List Char} (_ : sep ∉ a) (b : List Char),
    pieces sep (a ++ sep :: b) = a :: pieces sep b
  | [], _, b => by rw [List.nil_append, pieces, if_pos rfl]
  | c :: a, h, b => by
    rw [List.mem_cons, not_or] at h
    rw [List.cons_append, pieces, if_neg (Ne.symm h.1), pieces_append_sep h.2]

theorem pieces_ne_nil (sep : Char) : ∀ cs : List Char, pieces sep cs ≠ []
  | [] => by simp [pieces]
  | c :: cs => by
    rw [pieces]
    split
    · simp
    · split <;> simp

/-- A character that is not the separator belongs to the first piece. -/
theorem exists_pieces_cons {c : Char} (h : c ≠ sep) (cs : List Char) :
    ∃ w ws, pieces sep cs = w :: ws ∧ pieces sep (c :: cs) = (c :: w) :: ws := by
  obtain ⟨w, ws, hw⟩ := List.exists_cons_of_ne_nil (pieces_ne_nil sep cs)
  refine ⟨w, ws, hw, ?_⟩
  rw [pieces, if_neg h, hw]

/-- No piece holds the separator. -/
theorem notMem_of_mem_pieces : ∀ {cs w : List Char}, w ∈ pieces sep cs → sep ∉ w
  | [], w, h => by
    rw [List.mem_singleton.mp h]
    exact List.not_mem_nil
  | c :: cs, w, h => by
    by_cases hc : c = sep
    · rw [pieces, if_pos hc] at h
      rcases List.mem_cons.mp h with rfl | h
      · exact List.not_mem_nil
      · exact notMem_of_mem_pieces h
    · obtain ⟨v, ws, hv, hcons⟩ := exists_pieces_cons hc cs
      rw [hcons] at h
      rcases List.mem_cons.mp h with rfl | h
      · rw [List.mem_cons, not_or]
        exact ⟨Ne.symm hc, notMem_of_mem_pieces (hv ▸ List.mem_cons_self)⟩
      · exact notMem_of_mem_pieces (hv ▸ List.mem_cons_of_mem v h)

/-- The characters of a piece are those of the text. -/
theorem mem_of_mem_pieces : ∀ {cs w : List Char} {d : Char}, w ∈ pieces sep cs → d ∈ w → d ∈ cs
  | [], w, d, h, hd => by
    rw [List.mem_singleton.mp h] at hd
    exact hd
  | c :: cs, w, d, h, hd => by
    by_cases hc : c = sep
    · rw [pieces, if_pos hc] at h
      rcases List.mem_cons.mp h with rfl | h
      · cases hd
      · exact List.mem_cons_of_mem c (mem_of_mem_pieces h hd)
    · obtain ⟨v, ws, hv, hcons⟩ := exists_pieces_cons hc cs
      rw [hcons] at h
      rcases List.mem_cons.mp h with rfl | h
      · rcases List.mem_cons.mp hd with rfl | hd
        · exact List.mem_cons_self
        · exact List.mem_cons_of_mem c (mem_of_mem_pieces (hv ▸ List.mem_cons_self) hd)
      · exact List.mem_cons_of_mem c (mem_of_mem_pieces (hv ▸ List.mem_cons_of_mem v h) hd)

/-- The pieces make up the text. -/
theorem intercalate_pieces : ∀ cs : List Char, [sep].intercalate (pieces sep cs) = cs
  | [] => rfl
  | c :: cs => by
    have ih := intercalate_pieces cs
    by_cases hc : c = sep
    · obtain ⟨w, ws, hw⟩ := List.exists_cons_of_ne_nil (pieces_ne_nil sep cs)
      rw [hw] at ih
      rw [pieces, if_pos hc, hw, List.intercalate_cons_cons, ih, hc]
      rfl
    · obtain ⟨w, ws, hw, hcons⟩ := exists_pieces_cons hc cs
      rw [hw] at ih
      rw [hcons]
      cases ws with
      | nil =>
        rw [List.intercalate_singleton] at ih ⊢
        rw [ih]
      | cons v ws =>
        rw [List.intercalate_cons_cons] at ih ⊢
        rw [List.cons_append, List.cons_append, ih]

theorem pieces_eq_splitOn (sep : Char) (cs : List Char) : pieces sep cs = cs.splitOn sep := by
  have h := List.splitOn_intercalate sep (fun _ => notMem_of_mem_pieces) (pieces_ne_nil sep cs)
  rw [intercalate_pieces] at h
  exact h.symm

end Pieces

/-! ## Ends -/

theorem dropStart?_eq_some_iff : ∀ {pat cs rest : List Char},
    dropStart? pat cs = some rest ↔ cs = pat ++ rest
  | [], cs, rest => by simp [dropStart?]
  | _ :: _, [], rest => by simp [dropStart?]
  | p :: pat, c :: cs, rest => by
    rw [dropStart?, List.cons_append, List.cons.injEq]
    by_cases hpc : p = c
    · rw [if_pos hpc, dropStart?_eq_some_iff]
      simp [hpc]
    · rw [if_neg hpc]
      simp [Ne.symm hpc]

/-- A pattern is taken off the end of exactly the texts that end in it. -/
theorem dropEnd?_eq_some_iff {pat cs rest : List Char} :
    dropEnd? pat cs = some rest ↔ cs = rest ++ pat := by
  rw [dropEnd?, Option.map_eq_some_iff]
  constructor
  · rintro ⟨tser, h, rfl⟩
    rw [dropStart?_eq_some_iff] at h
    rw [← List.reverse_reverse cs, h, List.reverse_append, List.reverse_reverse]
  · rintro rfl
    refine ⟨rest.reverse, ?_, List.reverse_reverse rest⟩
    rw [dropStart?_eq_some_iff, List.reverse_append]

/-- Whether a text ends in a pattern is decided after a character that the pattern does not hold. -/
theorem dropEnd?_append_cons {pat : List Char} {c : Char} (hc : c ∉ pat) (a b : List Char) :
    dropEnd? pat (a ++ c :: b) = (dropEnd? pat b).map (a ++ c :: ·) := by
  ext rest
  rw [dropEnd?_eq_some_iff, Option.map_eq_some_iff]
  constructor
  · intro h
    rcases List.append_eq_append_iff.mp h with ⟨x, rfl, hb⟩ | ⟨x, -, hpat⟩
    · cases x with
      | nil =>
        rw [List.nil_append] at hb
        exact absurd (hb ▸ List.mem_cons_self) hc
      | cons d x =>
        rw [List.cons_append, List.cons.injEq] at hb
        obtain ⟨rfl, hb⟩ := hb
        exact ⟨x, dropEnd?_eq_some_iff.mpr hb, rfl⟩
    · exact absurd (hpat ▸ List.mem_append_right x List.mem_cons_self) hc
  · rintro ⟨base, hbase, rfl⟩
    rw [dropEnd?_eq_some_iff.mp hbase, List.append_assoc, List.cons_append]

/-! ## The first occurrence of a pattern -/

/-- **A text is cut at the first occurrence of a pattern.** -/
theorem cutAt?_eq_some_iff {pat : List Char} : ∀ {cs before rest : List Char},
    cutAt? pat cs = some (before, rest) ↔ cs = before ++ (pat ++ rest) ∧
      ∀ front back, cs = front ++ (pat ++ back) → before.length ≤ front.length
  | [], before, rest => by
    rw [cutAt?, Option.map_eq_some_iff]
    constructor
    · rintro ⟨tail, htail, h⟩
      obtain ⟨rfl, rfl⟩ := Prod.mk.inj h
      rw [dropStart?_eq_some_iff] at htail
      exact ⟨htail, fun _ _ _ => Nat.zero_le _⟩
    · rintro ⟨h, -⟩
      obtain ⟨rfl, hrest⟩ := List.append_eq_nil_iff.mp h.symm
      exact ⟨rest, dropStart?_eq_some_iff.mpr hrest.symm, rfl⟩
  | c :: cs, before, rest => by
    rw [cutAt?]
    cases hstart : dropStart? pat (c :: cs) with
    | some tail =>
      -- The pattern stands in front, so nothing can stand before it.
      have htail := dropStart?_eq_some_iff.mp hstart
      simp only [Option.some.injEq, Prod.mk.injEq]
      constructor
      · rintro ⟨rfl, rfl⟩
        exact ⟨htail, fun _ _ _ => Nat.zero_le _⟩
      · rintro ⟨h, hfirst⟩
        obtain rfl := List.length_eq_zero_iff.mp (Nat.le_zero.mp (hfirst [] tail htail))
        rw [htail] at h
        exact ⟨rfl, List.append_cancel_left h⟩
    | none =>
      have hno : ∀ tail, c :: cs ≠ pat ++ tail := by
        intro tail h
        rw [dropStart?_eq_some_iff.mpr h] at hstart
        cases hstart
      simp only [Option.map_eq_some_iff, Prod.exists, Prod.mk.injEq]
      constructor
      · rintro ⟨before, rest, h, rfl, rfl⟩
        obtain ⟨rfl, hfirst⟩ := cutAt?_eq_some_iff.mp h
        refine ⟨rfl, fun front back hfront => ?_⟩
        cases front with
        | nil => exact absurd hfront (hno back)
        | cons d front => exact Nat.succ_le_succ (hfirst front back (List.cons.inj hfront).2)
      · rintro ⟨h, hfirst⟩
        cases before with
        | nil => exact absurd h (hno rest)
        | cons d before =>
          obtain ⟨rfl, hcs⟩ := List.cons.inj h
          refine ⟨before, rest, cutAt?_eq_some_iff.mpr ⟨hcs, fun front back hfront => ?_⟩, rfl, rfl⟩
          have hle := hfirst (c :: front) back (by rw [hfront, List.cons_append])
          exact Nat.le_of_succ_le_succ hle

theorem cutAt?_append_sep {sep : Char} : ∀ {a : List Char} (_ : sep ∉ a) (b : List Char),
    cutAt? [sep] (a ++ sep :: b) = some (a, b)
  | [], _, b => by rw [List.nil_append, cutAt?, dropStart?, if_pos rfl, dropStart?]
  | c :: a, h, b => by
    rw [List.mem_cons, not_or] at h
    rw [List.cons_append, cutAt?, dropStart?, if_neg h.1]
    simp only [cutAt?_append_sep h.2 b, Option.map_some]

end StoredCall.Text
