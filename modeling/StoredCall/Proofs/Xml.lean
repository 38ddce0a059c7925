import StoredCall.Xml
import Mathlib

/-!
# Markup that is read back

A text that was put together from tags and escaped texts is cut into just these pieces.

* `Xml.isName` are the names that elements may have.
* `Xml.unescape?_escape`: references stand for the characters they were written for.
* `Xml.Scans cs ps`: the text `cs` is cut into the pieces `ps`, whatever stands after it.
* `Xml.scans_opening`: an opening or empty tag is one piece. `Xml.scans_text` needs a tag after the
  text, since a text goes up to the next one.
-/

namespace StoredCall.Xml

open Text

/-! ## Names -/

/-- Whether a code point is in one of the given ranges. -/
def inRanges (ranges : List (Nat × Nat)) (c : Char) : Bool :=
  ranges.any fun r => r.1 ≤ c.toNat && c.toNat ≤ r.2

/-- Characters that a name begins with. -/
def isNameStart (c : Char) : Bool :=
  inRanges [(0x3A, 0x3A), (0x41, 0x5A), (0x5F, 0x5F), (0x61, 0x7A), (0xC0, 0xD6), (0xD8, 0xF6),
    (0xF8, 0x2FF), (0x370, 0x37D), (0x37F, 0x1FFF), (0x200C, 0x200D), (0x2070, 0x218F),
    (0x2C00, 0x2FEF), (0x3001, 0xD7FF), (0xF900, 0xFDCF), (0xFDF0, 0xFFFD), (0x10000, 0xEFFFF)] c

/-- Characters that a name goes on with. -/
def isNameChar (c : Char) : Bool :=
  isNameStart c
    || inRanges [(0x2D, 0x2E), (0x30, 0x39), (0xB7, 0xB7), (0x300, 0x36F), (0x203F, 0x2040)] c

/-- The names of elements. -/
def isName (s : String) : Bool :=
  match s.toList with
  | [] => false
  | c :: cs => isNameStart c && cs.all isNameChar

/-- Characters that mean something inside a tag. -/
def delimiters : List Char := [' ', '\t', '\n', '\r', '<', '>', '/', '"', '\'', '=', '!', '?']

theorem notMem_delimiters {c : Char} (h : isNameChar c = true) : c ∉ delimiters := by
  intro hc
  have hnone : delimiters.all (fun d => !isNameChar d) = true := by decide
  have hc := List.all_eq_true.mp hnone c hc
  rw [h] at hc
  cases hc

theorem isSpace_of_isNameChar {c : Char} (h : isNameChar c = true) : isSpace c = false := by
  have hc := notMem_delimiters h
  simp only [delimiters, List.mem_cons, not_or] at hc
  simp [isSpace, hc]

/-- A name consists of characters that mean nothing inside a tag. -/
theorem exists_of_isName {s : String} (h : isName s = true) :
    ∃ c cs, s.toList = c :: cs ∧ ∀ d ∈ c :: cs, isNameChar d = true := by
  unfold isName at h
  split at h
  · cases h
  · rename_i c cs hs
    rw [Bool.and_eq_true, List.all_eq_true] at h
    refine ⟨c, cs, hs, List.forall_mem_cons.mpr ⟨?_, h.2⟩⟩
    rw [isNameChar, h.1, Bool.true_or]

/-! ## References -/

/-- A character stands for itself, or for a reference that has neither blanks nor brackets. -/
theorem escapeChar_cases (c : Char) :
    (escapeChar c = [c] ∧ c ≠ '<' ∧ c ≠ '&') ∨
      ∃ name, escapeChar c = '&' :: (name ++ [';']) ∧ (∀ d ∈ name, d ∉ ['<', '&', ';']) ∧
        reference? name = some c := by
  unfold escapeChar
  split
  · exact .inr ⟨['l', 't'], by simp, by simp, rfl⟩
  · exact .inr ⟨['g', 't'], by simp, by simp, rfl⟩
  · exact .inr ⟨['a', 'm', 'p'], by simp, by simp, rfl⟩
  · exact .inr ⟨['a', 'p', 'o', 's'], by simp, by simp, rfl⟩
  · exact .inr ⟨['q', 'u', 'o', 't'], by simp, by simp, rfl⟩
  · rename_i hlt _ hamp _ _
    exact .inl ⟨rfl, hlt, hamp⟩

/-- A name of a reference is gathered up to its end. -/
theorem unescapeFrom_name {name : List Char} (h : ∀ d ∈ name, d ∉ ['<', '&', ';'])
    (pending cs : List Char) :
    unescapeFrom (some pending) (name ++ ';' :: cs) =
      unescapeFrom (some (name.reverse ++ pending)) (';' :: cs) := by
  induction name generalizing pending with
  | nil => rfl
  | cons d name ih =>
    rw [List.forall_mem_cons] at h
    have hd := h.1
    simp only [List.mem_cons, not_or] at hd
    rw [List.cons_append, unescapeFrom, if_neg hd.2.1, if_neg hd.2.2.1, ih h.2]
    simp

theorem unescapeFrom_escapeChar (c : Char) (cs : List Char) :
    unescapeFrom none (escapeChar c ++ cs) = (unescapeFrom none cs).map (c :: ·) := by
  rcases escapeChar_cases c with ⟨heq, -, hamp⟩ | ⟨name, heq, hname, href⟩
  · rw [heq, List.singleton_append, unescapeFrom, if_neg hamp]
  · have hend : unescapeFrom (some name.reverse) (';' :: cs) =
        (unescapeFrom none cs).map (c :: ·) := by
      rw [unescapeFrom, if_neg (by decide), if_pos rfl, List.reverse_reverse, href]
    rw [heq, List.cons_append, unescapeFrom, if_pos rfl, List.append_assoc,
      List.singleton_append, unescapeFrom_name hname, List.append_nil, hend]

/-- **References stand for what they were written for.** -/
theorem unescape?_escape (cs : List Char) : unescape? (escape cs) = some cs := by
  unfold unescape? escape
  induction cs with
  | nil => rfl
  | cons c cs ih => rw [List.flatMap_cons, unescapeFrom_escapeChar, ih, Option.map_some]

/-- A text without white space at its ends, and with something between them. -/
structure Trimmed (cs : List Char) : Prop where
  ne_nil : cs ≠ []
  head : ∀ c ∈ cs.head?, isSpace c = false
  last : ∀ c ∈ cs.getLast?, isSpace c = false

theorem trimmed_iff {cs : List Char} : Trimmed cs ↔
    cs ≠ [] ∧ cs.head?.all (fun c => !isSpace c) = true ∧
      cs.getLast?.all (fun c => !isSpace c) = true := by
  simp only [Option.all_eq_true, Bool.not_eq_true']
  exact ⟨fun h => ⟨h.ne_nil, h.head, h.last⟩, fun h => ⟨h.1, h.2.1, h.2.2⟩⟩

instance (cs : List Char) : Decidable (Trimmed cs) := decidable_of_iff _ trimmed_iff.symm

theorem Trimmed.escape {cs : List Char} (h : Trimmed cs) : Trimmed (escape cs) := by
  have hhead : ∀ c, isSpace c = false → ∃ d ds, escapeChar c = d :: ds ∧ isSpace d = false := by
    intro c hc
    rcases escapeChar_cases c with ⟨heq, -, -⟩ | ⟨name, heq, -, -⟩
    · exact ⟨c, [], heq, hc⟩
    · exact ⟨'&', _, heq, by decide⟩
  have hlast : ∀ c, isSpace c = false → ∃ ds d, escapeChar c = ds ++ [d] ∧ isSpace d = false := by
    intro c hc
    rcases escapeChar_cases c with ⟨heq, -, -⟩ | ⟨name, heq, -, -⟩
    · exact ⟨[], c, heq, hc⟩
    · exact ⟨'&' :: name, ';', heq, by decide⟩
  constructor
  case ne_nil =>
    obtain ⟨c, rest, rfl⟩ := List.exists_cons_of_ne_nil h.ne_nil
    obtain ⟨d, ds, heq, -⟩ := hhead c (h.head c rfl)
    simp [Xml.escape, heq]
  case head =>
    obtain ⟨c, rest, rfl⟩ := List.exists_cons_of_ne_nil h.ne_nil
    obtain ⟨d, ds, heq, hd⟩ := hhead c (h.head c rfl)
    simpa [Xml.escape, heq] using hd
  case last =>
    obtain ⟨rest, c, rfl⟩ := (List.eq_nil_or_concat' cs).resolve_left h.ne_nil
    obtain ⟨ds, d, heq, hd⟩ := hlast c (h.last c (by simp))
    have hesc : Xml.escape (rest ++ [c]) = Xml.escape rest ++ ds ++ [d] := by
      simp [Xml.escape, heq]
    rw [hesc]
    simpa using hd

theorem lt_notMem_escape (cs : List Char) : '<' ∉ escape cs := by
  intro h
  obtain ⟨c, -, hc⟩ := List.mem_flatMap.mp h
  rcases escapeChar_cases c with ⟨heq, hlt, -⟩ | ⟨name, heq, hname, -⟩
  · rw [heq, List.mem_singleton] at hc
    exact hlt hc.symm
  · rw [heq] at hc
    simp only [List.mem_cons, List.mem_append, List.not_mem_nil, or_false] at hc
    rcases hc with hc | hc | hc
    · exact absurd hc (by decide)
    · exact hname _ hc List.mem_cons_self
    · exact absurd hc (by decide)

/-! ## Pieces -/

/-- A text is cut into pieces, whatever stands after it. Each piece takes one step. -/
structure Scans (cs : List Char) (ps : List Piece) : Prop where
  scan : ∀ fuel rest, scanFrom (ps.length + fuel) (cs ++ rest) = ps ++ scanFrom fuel rest
  length_le : ps.length ≤ cs.length

theorem Scans.nil : Scans [] [] := ⟨fun fuel rest => by simp, le_rfl⟩

theorem Scans.append {cs ds : List Char} {ps qs : List Piece} (h : Scans cs ps)
    (h' : Scans ds qs) : Scans (cs ++ ds) (ps ++ qs) where
  scan fuel rest := by
    rw [List.length_append, Nat.add_assoc, List.append_assoc, h.scan, h'.scan, List.append_assoc]
  length_le := by
    rw [List.length_append, List.length_append]
    exact Nat.add_le_add h.length_le h'.length_le

/-- A text that does not begin with a byte order mark is cut into its pieces. -/
theorem Scans.scan_eq {cs : List Char} {ps : List Piece} (h : Scans cs ps)
    (hhead : cs.head? = some '<') : Xml.scan cs = ps := by
  obtain ⟨n, hn⟩ := Nat.exists_eq_add_of_le h.length_le
  have hscan := h.scan (n + 1) []
  rw [List.append_nil, ← Nat.add_assoc, ← hn] at hscan
  obtain ⟨rest, rfl⟩ := List.head?_eq_some_iff.mp hhead
  calc Xml.scan ('<' :: rest) = scanFrom (('<' :: rest).length + 1) ('<' :: rest) := rfl
    _ = ps := by simpa [scanFrom] using hscan

/-- What follows a bracket is one piece. -/
theorem scans_markup {cs : List Char} {p : Piece}
    (h : ∀ rest, markup (cs ++ rest) = some (some p, rest)) : Scans ('<' :: cs) [p] where
  scan fuel rest := by
    have hspace : isSpace '<' = false := by decide
    rw [List.length_singleton, Nat.add_comm, scanFrom, List.cons_append,
      List.dropWhile_cons_of_neg (by simp [hspace])]
    simp only [h, Option.toList_some]
  length_le := by simp

/-- A text that is trimmed and escaped is one piece, which ends at the next tag. -/
theorem scans_text {cs ds : List Char} (h : Trimmed cs) {ps : List Piece}
    (hds : Scans ('<' :: ds) ps) : Scans (escape cs ++ '<' :: ds) (.text (escape cs) :: ps) := by
  have hall : ∀ c ∈ escape cs, decide (c ≠ '<') = true := by
    intro c hc
    refine decide_eq_true fun hlt => ?_
    exact lt_notMem_escape cs (hlt ▸ hc)
  have htake : ∀ rest, (escape cs ++ '<' :: rest).takeWhile (· ≠ '<') = escape cs := fun rest => by
    rw [List.takeWhile_append_of_pos hall, List.takeWhile_cons_of_neg (by decide), List.append_nil]
  have hdrop : ∀ rest, (escape cs ++ '<' :: rest).dropWhile (· ≠ '<') = '<' :: rest :=
    fun rest => by
      rw [List.dropWhile_append_of_pos hall, List.dropWhile_cons_of_neg (by decide)]
  have hstrip : stripEnd isSpace (escape cs) = escape cs := by
    refine List.rdropWhile_eq_self_iff.mpr fun hne => ?_
    rw [h.escape.last _ (List.getLast?_eq_some_getLast hne)]
    exact Bool.false_ne_true
  obtain ⟨c, rest, hesc⟩ := List.exists_cons_of_ne_nil h.escape.ne_nil
  have hc : isSpace c = false := h.escape.head c (by rw [hesc]; rfl)
  have hlt : c ≠ '<' := fun hlt => lt_notMem_escape cs (by rw [hesc, hlt]; exact List.mem_cons_self)
  constructor
  case scan =>
    intro fuel rest'
    have hstep : scanFrom (ps.length + fuel + 1) (escape cs ++ '<' :: (ds ++ rest')) =
        .text (stripEnd isSpace ((escape cs ++ '<' :: (ds ++ rest')).takeWhile (· ≠ '<'))) ::
          scanFrom (ps.length + fuel)
            ((escape cs ++ '<' :: (ds ++ rest')).dropWhile (· ≠ '<')) := by
      rw [hesc, List.cons_append, scanFrom, List.dropWhile_cons_of_neg (by simp [hc])]
      split
      · rename_i h0
        cases h0
      · rename_i h0
        exact absurd (List.cons.inj h0).1 hlt
      · rfl
    rw [List.length_cons, Nat.add_right_comm, List.append_assoc, List.cons_append, hstep, htake,
      hdrop, hstrip, ← List.cons_append, hds.scan, List.cons_append]
  case length_le =>
    have := hds.length_le
    simp [hesc] at this ⊢
    omega

/-! ## Tags -/

section Tags

variable {name : String}

/-- The inside of a tag goes on past characters that mean nothing in it. -/
theorem tagInside_append {cs : List Char} (h : ∀ c ∈ cs, c ∉ ['>', '"', '\'']) (rest : List Char) :
    tagInside none (cs ++ rest) = (tagInside none rest).map fun x => (cs ++ x.1, x.2) := by
  induction cs with
  | nil => simp
  | cons c cs ih =>
    rw [List.forall_mem_cons] at h
    have hc := h.1
    simp only [List.mem_cons, List.not_mem_nil, or_false, not_or] at hc
    rw [List.cons_append, tagInside, if_neg hc.1, if_neg (by simp [hc.2]), ih h.2,
      Option.map_map]
    rfl

theorem not_quote_of_isName (h : isName name = true) :
    ∀ c ∈ name.toList, c ∉ ['>', '"', '\''] := by
  obtain ⟨c, cs, hname, hchars⟩ := exists_of_isName h
  intro d hd hquote
  have hsub : ['>', '"', '\''] ⊆ delimiters := by decide
  exact notMem_delimiters (hchars d (hname ▸ hd)) (hsub hquote)

/-- What begins with a name is an opening or empty tag. -/
theorem markup_of_isName (h : isName name = true) (cs : List Char) :
    markup (name.toList ++ cs) =
      (tagInside none (name.toList ++ cs)).map fun x => (some (openingPiece x.1), x.2) := by
  obtain ⟨c, rest, hname, hchars⟩ := exists_of_isName h
  have hc := notMem_delimiters (hchars c List.mem_cons_self)
  rw [hname, List.cons_append]
  unfold markup
  split <;> simp_all [delimiters]

/-- **An opening or empty tag** that begins with a name is one piece. -/
theorem scans_opening (h : isName name = true) (cs : List Char)
    (hcs : ∀ rest, tagInside none (cs ++ '>' :: rest) = some (cs, rest)) :
    Scans ('<' :: (name.toList ++ cs ++ ['>'])) [openingPiece (name.toList ++ cs)] := by
  refine scans_markup fun rest => ?_
  rw [List.append_assoc, List.append_assoc, List.singleton_append, markup_of_isName h,
    tagInside_append (not_quote_of_isName h), hcs, Option.map_some, Option.map_some]

theorem takeWhile_isName (h : isName name = true) (cs : List Char) :
    (name.toList ++ cs).takeWhile (fun c => !isSpace c) =
      name.toList ++ cs.takeWhile fun c => !isSpace c := by
  obtain ⟨c, rest, hname, hchars⟩ := exists_of_isName h
  refine List.takeWhile_append_of_pos fun d hd => ?_
  rw [isSpace_of_isNameChar (hchars d (hname ▸ hd)), Bool.not_false]

theorem dropEnd?_append_singleton (c : Char) (cs : List Char) :
    dropEnd? [c] (cs ++ [c]) = some cs := by
  simp [dropEnd?, dropStart?]

theorem dropEnd?_eq_none {c d : Char} (h : d ≠ c) (cs : List Char) :
    dropEnd? [c] (cs ++ [d]) = none := by
  simp [dropEnd?, dropStart?, h.symm]

/-- What ends in a slash is an empty tag. -/
theorem openingPiece_slash (cs : List Char) :
    openingPiece (cs ++ ['/']) = .empty (nameAndAttributes cs).1 (nameAndAttributes cs).2 := by
  simp only [openingPiece, dropEnd?_append_singleton]

/-- A name does not end like an empty tag. -/
theorem dropEnd?_of_isName (h : isName name = true) : dropEnd? ['/'] name.toList = none := by
  obtain ⟨c, cs, hname, hchars⟩ := exists_of_isName h
  obtain ⟨init, last, hlast⟩ :=
    (List.eq_nil_or_concat' (c :: cs)).resolve_left (List.cons_ne_nil c cs)
  rw [hname, hlast]
  refine dropEnd?_eq_none ?_ init
  rintro rfl
  refine notMem_delimiters (hchars '/' ?_) (by decide)
  rw [hlast]
  exact List.mem_append_right _ List.mem_cons_self

theorem nameAndAttributes_of_isName (h : isName name = true) :
    nameAndAttributes name.toList = (name, []) := by
  have htake := takeWhile_isName h []
  rw [List.append_nil, List.takeWhile_nil, List.append_nil] at htake
  have hnone : ∀ fuel, attributesFrom fuel [] [] = [] := fun fuel => by cases fuel <;> rfl
  simp only [nameAndAttributes, htake, List.drop_length, hnone, String.ofList_toList]

end Tags

end StoredCall.Xml
