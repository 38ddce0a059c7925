import StoredCall.Json.Reader
import StoredCall.Proofs.Text.Reader
import Mathlib

/-!
# Reading back what was written as JSON

A value whose numbers are integers of a word is read back from its text as it is. Reading goes by
the first character of what is left, so each lemma says what may stand after the text it reads: a
number ends where no digit, point or exponent follows, and after a value stands nothing, a comma or
a closing bracket.

* `string?_stringChars`: every text comes back from between its quotes, escapes and all.
* `number?_toString`: so does every integer between the least signed and the greatest unsigned word.
* `container?_bracket`: parts with commas between them, if each part is read.
* `Exact depth j`: the values that are read within a depth of containers.
* `parse?_compact`: such a value is read from its text.
-/

namespace StoredCall.Json

open Number

/-! ## Strings -/

theorem hexValue?_hexDigit (n : Nat) : hexValue? (hexDigit n) = some (n % 16) := by
  have hdigit : ∀ d < 16, hexValue? (Nat.digitChar d) = some d := by decide
  exact hdigit _ (Nat.mod_lt n (by decide))

/-- The escape of a character by its number, which has two digits. -/
theorem unit?_hexDigit {c : Char} (h : c.toNat < 0x20) :
    unit? '0' '0' (hexDigit (c.toNat / 16)) (hexDigit c.toNat) = some c.toNat := by
  have hzero : hexValue? '0' = some 0 := rfl
  have hvalue : ((0 * 16 + 0) * 16 + c.toNat / 16 % 16) * 16 + c.toNat % 16 = c.toNat := by omega
  simp only [unit?, hexValue?_hexDigit, hzero, Option.bind_eq_bind, Option.bind_some,
    Option.pure_def, hvalue]

theorem ofUnit_toNat {c : Char} (h : c.toNat < 0x20) : Piece.ofUnit c.toNat = .char c := by
  have hhalf : (isHighUnit c.toNat || isLowUnit c.toNat) = false := by
    simp only [isHighUnit, isLowUnit, Bool.or_eq_false_iff, Bool.and_eq_false_imp,
      decide_eq_true_eq, decide_eq_false_iff_not]
    omega
  rw [Piece.ofUnit, hhalf, Char.ofNat_toNat]
  rfl

/-- A character as it stands between quotes is read as itself. -/
theorem stringBody?_escapeChar (c : Char) {cs rest : List Char} {ps : List Piece}
    (h : stringBody? cs = some (ps, rest)) :
    stringBody? (escapeChar c ++ cs) = some (.char c :: ps, rest) := by
  unfold escapeChar
  split_ifs with hquote hback hbell hform hfeed hreturn htab hlow
  · simp [stringBody?, shortEscape?, h, hquote]
  · simp [stringBody?, shortEscape?, h, hback]
  · simp [stringBody?, shortEscape?, h, hbell]
  · simp [stringBody?, shortEscape?, h, hform]
  · simp [stringBody?, shortEscape?, h, hfeed]
  · simp [stringBody?, shortEscape?, h, hreturn]
  · simp [stringBody?, shortEscape?, h, htab]
  · simp [stringBody?, h, unit?_hexDigit hlow, ofUnit_toNat hlow]
  · simp [stringBody?, h, hback, hlow]

theorem stringBody?_flatMap (text rest : List Char) :
    stringBody? (text.flatMap escapeChar ++ '"' :: rest) = some (text.map .char, rest) := by
  induction text with
  | nil => rfl
  | cons c text ih =>
    rw [List.flatMap_cons, List.append_assoc, stringBody?_escapeChar c ih, List.map_cons]

theorem joinPieces?_map_char (text : List Char) : joinPieces? (text.map .char) = some text := by
  induction text with
  | nil => rfl
  | cons c text ih => rw [List.map_cons, joinPieces?, ih, Option.map_some]

/-- **A text between quotes is read back**, whatever stands after it. -/
theorem string?_stringChars (s : String) (rest : List Char) :
    string? (stringChars s ++ rest) = some (some s, rest) := by
  have htext : stringChars s ++ rest = '"' :: (s.toList.flatMap escapeChar ++ '"' :: rest) := by
    simp [stringChars]
  rw [htext, string?, stringBody?_flatMap]
  simp only [Option.map_some, joinPieces?_map_char, String.ofList_toList]

/-! ## Numbers -/

/-- What may stand after a value: nothing, a comma or a closing bracket. -/
def Follows (cs : List Char) : Prop := ∀ c ∈ cs.head?, c ∈ [',', ']', '\x7d']

theorem follows_nil : Follows [] := fun _ h => nomatch h

theorem follows_cons {c : Char} {cs : List Char} : Follows (c :: cs) ↔ c ∈ [',', ']', '\x7d'] := by
  simp [Follows]

theorem takeWhile_isDigit {ds rest : List Char} (hds : ∀ c ∈ ds, c.isDigit = true)
    (hrest : Follows rest) :
    (ds ++ rest).takeWhile Char.isDigit = ds ∧ (ds ++ rest).dropWhile Char.isDigit = rest := by
  rw [List.takeWhile_append_of_pos hds, List.dropWhile_append_of_pos hds]
  cases rest with
  | nil => simp
  | cons c rest =>
    have hc : c.isDigit = false := by
      rcases List.mem_cons.mp (follows_cons.mp hrest) with rfl | hc
      · rfl
      · simp only [List.mem_cons, List.not_mem_nil, or_false] at hc
        rcases hc with rfl | rfl <;> rfl
    rw [List.takeWhile_cons_of_neg (by simp [hc]), List.dropWhile_cons_of_neg (by simp [hc]),
      List.append_nil]
    exact ⟨rfl, rfl⟩

theorem isDigit_toDigits (n : Nat) : ∀ c ∈ Nat.toDigits 10 n, c.isDigit = true :=
  fun _ => Nat.isDigit_of_mem_toDigits (by decide) (by decide)

/-- A number begins with zero only if it is zero. -/
theorem toDigits_zero_cons {n : Nat} {ds : List Char} (h : Nat.toDigits 10 n = '0' :: ds) :
    ds = [] := by
  induction n using Nat.strongRecOn generalizing ds with
  | ind n ih =>
    rw [Nat.toDigits_eq_if (by decide)] at h
    split at h
    · exact (List.cons_eq_cons.mp h).2.symm
    · next hge =>
      obtain ⟨c, front, hfront⟩ := List.exists_cons_of_ne_nil (Nat.toDigits_ne_nil (n := n / 10)
        (b := 10))
      rw [hfront, List.cons_append] at h
      obtain ⟨rfl, -⟩ := List.cons_eq_cons.mp h
      have hempty := ih (n / 10) (by omega) hfront
      subst hempty
      have hvalue := Nat.ofDigitChars_ten_toDigits (n := n / 10)
      rw [hfront] at hvalue
      simp [Nat.ofDigitChars] at hvalue
      omega

theorem le_foldl_digits (n : Nat) (ds : List Char) :
    n ≤ ds.foldl (fun n c => 10 * n + digitValue c) n := by
  induction ds generalizing n with
  | nil => exact le_rfl
  | cons c ds ih =>
    have hstep : n ≤ 10 * n + digitValue c := by omega
    exact le_trans hstep (ih _)

/-- Digits of a number that fits the word all fit. -/
theorem gather_eq {n : Nat} {ds : List Char}
    (h : ds.foldl (fun n c => 10 * n + digitValue c) n ≤ wordMax) :
    gather n ds = (ds.foldl (fun n c => 10 * n + digitValue c) n, 0) := by
  induction ds generalizing n with
  | nil => rfl
  | cons c ds ih =>
    rw [List.foldl_cons] at h ⊢
    rw [gather, if_pos (le_trans (le_foldl_digits _ ds) h), ih h]

theorem gather_toDigits {n : Nat} (h : n ≤ wordMax) : gather 0 (Nat.toDigits 10 n) = (n, 0) := by
  have hvalue : (Nat.toDigits 10 n).foldl (fun n c => 10 * n + digitValue c) 0 = n :=
    Nat.ofDigitChars_eq_foldl.symm.trans Nat.ofDigitChars_ten_toDigits
  rw [gather_eq (by rw [hvalue]; exact h), hvalue]

theorem wholePart?_toDigits (n : Nat) {rest : List Char} (hrest : Follows rest) :
    wholePart? (Nat.toDigits 10 n ++ rest) = some (Nat.toDigits 10 n, rest) := by
  obtain ⟨htake, hdrop⟩ := takeWhile_isDigit (isDigit_toDigits n) hrest
  rw [wholePart?, htake, hdrop]
  split
  · next h => exact absurd h Nat.toDigits_ne_nil
  · next h => exact absurd (toDigits_zero_cons h) (List.cons_ne_nil _ _)
  · rfl

theorem fractionPart?_follows {rest : List Char} (h : Follows rest) :
    fractionPart? rest = some (none, rest) := by
  unfold fractionPart?
  split
  · exact absurd (follows_cons.mp h) (by decide)
  · rfl

theorem exponentPart?_follows {rest : List Char} (h : Follows rest) :
    exponentPart? rest = some (none, rest) := by
  cases rest with
  | nil => rfl
  | cons c rest =>
    have hmark : (c == 'e' || c == 'E') = false := by
      have hc := follows_cons.mp h
      simp only [List.mem_cons, List.not_mem_nil, or_false] at hc
      rcases hc with rfl | rfl | rfl <;> rfl
    rw [exponentPart?, hmark]
    rfl

theorem numberOf?_toDigits (negative : Bool) {n : Nat} (h : n ≤ wordMax) :
    numberOf? negative (Nat.toDigits 10 n) none none = integerOf? negative n := by
  simp [numberOf?, gather_toDigits h]

theorem integerOf?_neg {n : Nat} (hpos : 0 < n) (h : n ≤ pow2 63) :
    integerOf? true n = some (.int (-(n : Int))) := by
  have hfits : (decide (0 < n) && decide (n ≤ pow2 63)) = true := by
    rw [decide_eq_true hpos, decide_eq_true h]
    rfl
  rw [integerOf?, if_neg (by decide), if_pos hfits]

/-- The integers that are read exactly: those of a signed and of an unsigned word. -/
def FitsWord (i : Int) : Prop := -(pow2 63 : Int) ≤ i ∧ i ≤ (wordMax : Int)

theorem pow2_le_wordMax : pow2 63 ≤ wordMax := by decide

/-- The number after a sign that was read. -/
theorem number?_minus (n : Nat) {rest : List Char} (hrest : Follows rest) (hn : n ≤ wordMax) :
    number? ('-' :: (Nat.toDigits 10 n ++ rest)) = some (integerOf? true n, rest) := by
  unfold number?
  simp only [wholePart?_toDigits n hrest, fractionPart?_follows hrest, exponentPart?_follows hrest,
    numberOf?_toDigits _ hn, Option.bind_eq_bind, Option.bind_some, Option.pure_def]

theorem number?_plain (n : Nat) {rest : List Char} (hrest : Follows rest) (hn : n ≤ wordMax) :
    number? (Nat.toDigits 10 n ++ rest) = some (integerOf? false n, rest) := by
  have hplain : ∀ cs, Nat.toDigits 10 n ++ rest ≠ '-' :: cs := by
    intro cs hcs
    obtain ⟨c, ds, hds⟩ := List.exists_cons_of_ne_nil (Nat.toDigits_ne_nil (n := n) (b := 10))
    have hdigit := isDigit_toDigits n c (by simp [hds])
    rw [hds, List.cons_append] at hcs
    rw [(List.cons_eq_cons.mp hcs).1] at hdigit
    exact absurd hdigit (by decide)
  unfold number?
  split
  next hsign =>
    split at hsign
    · next hcs => exact absurd hcs (hplain _)
    · cases hsign
      simp only [wholePart?_toDigits n hrest, fractionPart?_follows hrest,
        exponentPart?_follows hrest, numberOf?_toDigits _ hn, Option.bind_eq_bind,
        Option.bind_some, Option.pure_def]

theorem toList_toString_negSucc (n : Nat) :
    (toString (Int.negSucc n)).toList = '-' :: Nat.toDigits 10 (n + 1) := by
  have htext : toString (Int.negSucc n) = "-" ++ toString (n + 1) := rfl
  rw [htext, String.toList_append, Text.toList_toString]
  rfl

/-- **An integer of a word is read back**, whatever may stand after it. -/
theorem number?_toString {i : Int} (h : FitsWord i) {rest : List Char} (hrest : Follows rest) :
    number? ((toString i).toList ++ rest) = some (some (.int i), rest) := by
  cases i with
  | ofNat n =>
    have htext : (toString (Int.ofNat n)).toList = Nat.toDigits 10 n := Text.toList_toString n
    have hplus : integerOf? false n = some (.int (Int.ofNat n)) := rfl
    rw [htext, number?_plain n hrest (Int.ofNat_le.mp h.2), hplus]
  | negSucc n =>
    have hn : n + 1 ≤ pow2 63 := by
      have hlow : -(pow2 63 : Int) ≤ -((n + 1 : Nat) : Int) := h.1
      exact Int.ofNat_le.mp (neg_le_neg_iff.mp hlow)
    rw [toList_toString_negSucc, List.cons_append,
      number?_minus (n + 1) hrest (le_trans hn pow2_le_wordMax),
      integerOf?_neg (Nat.succ_pos n) hn]
    rfl

/-! ## Parts with commas between them -/

theorem skip_cons {c : Char} (h : Text.isSpace c = false) (cs : List Char) :
    skip (c :: cs) = c :: cs :=
  List.dropWhile_cons_of_neg (by simp [h])

theorem not_isSpace_of_follows {c : Char} {cs : List Char} (h : Follows (c :: cs)) :
    Text.isSpace c = false := by
  have hc := follows_cons.mp h
  simp only [List.mem_cons, List.not_mem_nil, or_false] at hc
  rcases hc with rfl | rfl | rfl <;> rfl

/-- What a part begins with: neither white space nor a closing bracket. -/
def Opens (c : Char) : Prop := Text.isSpace c = false ∧ c ∉ [']', '\x7d']

instance (c : Char) : Decidable (Opens c) := inferInstanceAs (Decidable (_ ∧ _))

section Parts

variable {α β : Type} {close : Char} {part : List Char → Option (α × List Char)}
  {text : β → List Char} {made : β → α} {xs : List β}

theorem parts?_intercalate (hclose : close ∈ [']', '\x7d'])
    (h : ∀ x ∈ xs, ∀ rest, Follows rest → part (text x ++ rest) = some (made x, rest))
    (hne : xs ≠ []) {fuel : Nat} (hfuel : xs.length ≤ fuel) (rest : List Char) :
    parts? close part fuel (List.intercalate [','] (xs.map text) ++ close :: rest) =
      some (xs.map made, rest) := by
  induction xs generalizing fuel with
  | nil => exact absurd rfl hne
  | cons x xs ih =>
    obtain ⟨fuel, rfl⟩ : ∃ n, fuel = n + 1 := ⟨fuel - 1, by simp at hfuel; omega⟩
    have hx := h x List.mem_cons_self
    cases xs with
    | nil =>
      have hfollows : Follows (close :: rest) := follows_cons.mpr (List.mem_cons_of_mem _ hclose)
      have hcomma : close ≠ ',' := by
        rintro rfl
        exact absurd hclose (by decide)
      simp [parts?, hx _ hfollows, skip_cons (not_isSpace_of_follows hfollows), hcomma]
    | cons y ys =>
      have hrest := ih (fun z hz => h z (List.mem_cons_of_mem x hz)) (List.cons_ne_nil y ys)
        (by simpa using hfuel)
      have hcomma : ∀ cs, Follows (',' :: cs) := fun _ => follows_cons.mpr (by decide)
      rw [List.map_cons, List.map_cons, List.intercalate_cons_cons, ← List.map_cons,
        List.append_assoc, List.append_assoc, List.singleton_append, parts?, hx _ (hcomma _)]
      simp only [skip_cons (not_isSpace_of_follows (hcomma [])), if_true, hrest, Option.map_some]
      rfl

theorem length_le_intercalate (parts : List (List Char)) :
    parts.length ≤ (List.intercalate [','] parts).length + 1 := by
  induction parts with
  | nil => exact Nat.zero_le _
  | cons p parts ih =>
    cases parts with
    | nil => simp
    | cons q parts =>
      rw [List.intercalate_cons_cons]
      simp only [List.length_append, List.length_cons, List.length_nil] at ih ⊢
      omega

/-- The inside of a container is read, if each part is read up to the comma or the bracket after
it. -/
theorem container?_intercalate (hclose : close ∈ [']', '\x7d'])
    (hopens : ∀ x ∈ xs, ∃ c cs, text x = c :: cs ∧ Opens c)
    (h : ∀ x ∈ xs, ∀ rest, Follows rest → part (text x ++ rest) = some (made x, rest))
    (rest : List Char) :
    container? close part (List.intercalate [','] (xs.map text) ++ close :: rest) =
      some (xs.map made, rest) := by
  cases xs with
  | nil =>
    have hfollows : Follows (close :: rest) := follows_cons.mpr (List.mem_cons_of_mem _ hclose)
    simp [container?, skip_cons (not_isSpace_of_follows hfollows)]
  | cons x xs =>
    obtain ⟨c, cs, hx, hspace, hbracket⟩ := hopens x List.mem_cons_self
    obtain ⟨tail, htail⟩ : ∃ tail, List.intercalate [','] ((x :: xs).map text) ++ close :: rest =
        c :: tail := by
      rw [List.map_cons, hx]
      cases xs with
      | nil => exact ⟨cs ++ close :: rest, by simp⟩
      | cons y ys => exact ⟨_, by rw [List.map_cons, List.intercalate_cons_cons]; rfl⟩
    have hne : c ≠ close := fun heq => hbracket (heq ▸ hclose)
    have hfuel : (x :: xs).length ≤
        (List.intercalate [','] ((x :: xs).map text) ++ close :: rest).length := by
      have hlen := length_le_intercalate ((x :: xs).map text)
      simp only [List.length_append, List.length_cons, List.length_map] at hlen ⊢
      omega
    have hparts := parts?_intercalate hclose h (List.cons_ne_nil x xs) hfuel rest
    rw [htail] at hparts ⊢
    rw [container?, skip_cons hspace]
    simp only [if_neg hne, hparts]

end Parts

/-! ## Values -/

/-- Values whose numbers are integers of a word, with at most `depth` arrays and objects inside
each other. -/
inductive Exact : (depth : Nat) → Json → Prop where
  | null {depth : Nat} : Exact depth null
  | bool {depth : Nat} {b : Bool} : Exact depth (bool b)
  | int {depth : Nat} {i : Int} (h : FitsWord i) : Exact depth (number (.int i))
  | string {depth : Nat} {s : String} : Exact depth (string s)
  | array {depth : Nat} {items : List Json} (h : ∀ j ∈ items, Exact depth j) :
      Exact (depth + 1) (array items)
  | object {depth : Nat} {fields : List (String × Json)} (h : ∀ f ∈ fields, Exact depth f.2) :
      Exact (depth + 1) (object fields)

/-- The text of a value is read as `w`, which stands for the value. -/
structure ReadAs (depth : Nat) (j : Json) (w : Written) : Prop where
  read : ∀ rest, Follows rest → value? depth (j.chars ++ rest) = some (w, rest)
  json : w.json? = some j

theorem itemChars_eq (items : List Json) : itemChars items = items.map chars := by
  induction items with
  | nil => rfl
  | cons j items ih => rw [itemChars, ih, List.map_cons]

theorem fieldChars_eq (fields : List (String × Json)) :
    fieldChars fields = fields.map fun f => stringChars f.1 ++ ':' :: chars f.2 := by
  induction fields with
  | nil => rfl
  | cons f fields ih => rw [fieldChars, ih, List.map_cons]

theorem items?_map {items : List Json} {made : Json → Written}
    (h : ∀ j ∈ items, (made j).json? = some j) : Written.items? (items.map made) = some items := by
  induction items with
  | nil => rfl
  | cons j items ih =>
    have hj := h j List.mem_cons_self
    have hitems := ih fun k hk => h k (List.mem_cons_of_mem j hk)
    simp only [List.map_cons, Written.items?, hj, hitems]

theorem fields?_map {fields : List (String × Json)} {made : String × Json → Written}
    (h : ∀ f ∈ fields, (made f).json? = some f.2) :
    Written.fields? (fields.map fun f => (some f.1, made f)) = some fields := by
  induction fields with
  | nil => rfl
  | cons f fields ih =>
    have hf := h f List.mem_cons_self
    have hfields := ih fun g hg => h g (List.mem_cons_of_mem f hg)
    simp only [List.map_cons, Written.fields?, hf, hfields]

theorem digit_or_minus (i : Int) :
    ∃ c cs, (toString i).toList = c :: cs ∧ (c.isDigit = true ∨ c = '-') := by
  cases i with
  | ofNat n =>
    obtain ⟨c, cs, hcs⟩ := List.exists_cons_of_ne_nil (Nat.toDigits_ne_nil (n := n) (b := 10))
    exact ⟨c, cs, (Text.toList_toString n).trans hcs, .inl (isDigit_toDigits n c (by simp [hcs]))⟩
  | negSucc n => exact ⟨'-', _, toList_toString_negSucc n, .inr rfl⟩

/-- No character that a number begins with begins anything else. -/
theorem number_start {c : Char} (h : c.isDigit = true ∨ c = '-') :
    Text.isSpace c = false ∧ c ∉ ['"', 'n', 't', 'f', '[', ']', '\x7b', '\x7d'] := by
  rcases h with h | rfl
  · have hrange : 48 ≤ c.toNat ∧ c.toNat ≤ 57 := by
      simpa [Char.isDigit, UInt32.le_iff_toNat_le] using h
    have hne : ∀ d : Char, ¬ (48 ≤ d.toNat ∧ d.toNat ≤ 57) → c ≠ d := by
      rintro d hd rfl
      exact hd hrange
    refine ⟨?_, ?_⟩
    · simp [Text.isSpace, hne ' ' (by decide), hne '\t' (by decide), hne '\n' (by decide),
        hne '\r' (by decide)]
    · simp only [List.mem_cons, List.not_mem_nil, or_false, not_or]
      exact ⟨hne _ (by decide), hne _ (by decide), hne _ (by decide), hne _ (by decide),
        hne _ (by decide), hne _ (by decide), hne _ (by decide), hne _ (by decide)⟩
  · decide

/-- The text of a value begins as a part of a container does. -/
theorem Exact.opens {depth : Nat} {j : Json} (h : Exact depth j) :
    ∃ c cs, j.chars = c :: cs ∧ Opens c := by
  cases h with
  | null => exact ⟨'n', _, rfl, by decide⟩
  | @bool _ b => cases b with
    | false => exact ⟨'f', _, rfl, by decide⟩
    | true => exact ⟨'t', _, rfl, by decide⟩
  | @int _ i =>
    obtain ⟨c, cs, hcs, hc⟩ := digit_or_minus i
    obtain ⟨hspace, hnot⟩ := number_start hc
    exact ⟨c, cs, hcs, hspace, fun hmem => hnot (by simp at hmem ⊢; tauto)⟩
  | string => exact ⟨'"', _, rfl, by decide⟩
  | array => exact ⟨'[', _, rfl, by decide⟩
  | object => exact ⟨'\x7b', _, rfl, by decide⟩

/-- A value that begins with no opening bracket is read alone. -/
theorem value?_leaf (depth : Nat) {c : Char} (hspace : Text.isSpace c = false)
    (hc : c ∉ ['[', '\x7b']) (cs : List Char) : value? depth (c :: cs) = leaf? (c :: cs) := by
  cases depth with
  | zero => rw [value?, skip_cons hspace]
  | succ depth =>
    rw [value?, skip_cons hspace]
    split
    · next h =>
      rw [(List.cons_eq_cons.mp h).1] at hc
      exact absurd hc (by decide)
    · next h =>
      rw [(List.cons_eq_cons.mp h).1] at hc
      exact absurd hc (by decide)
    · rfl

theorem leaf?_number {c : Char} (hc : c.isDigit = true ∨ c = '-') {cs : List Char}
    {n : Option Num} {rest : List Char} (h : number? (c :: cs) = some (n, rest)) :
    leaf? (c :: cs) = some (.number n, rest) := by
  obtain ⟨-, hnot⟩ := number_start hc
  unfold leaf?
  split
  · next h => rw [(List.cons_eq_cons.mp h).1] at hnot; exact absurd hnot (by decide)
  · next h => rw [(List.cons_eq_cons.mp h).1] at hnot; exact absurd hnot (by decide)
  · next h => rw [(List.cons_eq_cons.mp h).1] at hnot; exact absurd hnot (by decide)
  · next h => rw [(List.cons_eq_cons.mp h).1] at hnot; exact absurd hnot (by decide)
  · rw [h, Option.map_some]

theorem readAs_leaf (depth : Nat) {j : Json} {w : Written} {c : Char} {word : List Char}
    (hchars : j.chars = c :: word) (hspace : Text.isSpace c = false) (hc : c ∉ ['[', '\x7b'])
    (hleaf : ∀ rest, Follows rest → leaf? (c :: word ++ rest) = some (w, rest))
    (hjson : w.json? = some j) : ReadAs depth j w := by
  refine ⟨fun rest hrest => ?_, hjson⟩
  rw [hchars, List.cons_append, value?_leaf depth hspace hc, ← List.cons_append]
  exact hleaf rest hrest

theorem readAs_int (depth : Nat) {i : Int} (h : FitsWord i) :
    ReadAs depth (number (.int i)) (.number (some (.int i))) := by
  obtain ⟨c, cs, hcs, hc⟩ := digit_or_minus i
  obtain ⟨hspace, hnot⟩ := number_start hc
  refine readAs_leaf depth hcs hspace (fun hmem => hnot (by simp at hmem ⊢; tauto)) ?_ rfl
  intro rest hrest
  have hnumber := number?_toString h hrest
  rw [hcs] at hnumber
  exact leaf?_number hc hnumber

theorem readAs_string (depth : Nat) (s : String) : ReadAs depth (string s) (.string (some s)) := by
  refine readAs_leaf depth rfl (by decide) (by decide) (fun rest _ => ?_) rfl
  have hstring := string?_stringChars s rest
  rw [stringChars, List.cons_append] at hstring
  rw [List.cons_append, leaf?, hstring, Option.map_some]

theorem field?_fieldChars {depth : Nat} {f : String × Json} {w : Written}
    (h : ReadAs depth f.2 w) (rest : List Char) (hrest : Follows rest) :
    field? (value? depth) ((stringChars f.1 ++ ':' :: chars f.2) ++ rest) =
      some ((some f.1, w), rest) := by
  have hquote : skip ((stringChars f.1 ++ ':' :: chars f.2) ++ rest) =
      stringChars f.1 ++ (':' :: (chars f.2 ++ rest)) := by
    rw [List.append_assoc, List.cons_append]
    exact skip_cons (by decide) _
  rw [field?, hquote, string?_stringChars]
  simp only [Option.bind_eq_bind, Option.bind_some,
    skip_cons (by decide : Text.isSpace ':' = false), h.read rest hrest, Option.pure_def]

theorem readAs_array {depth : Nat} {items : List Json} {made : Json → Written}
    (hopens : ∀ j ∈ items, ∃ c cs, j.chars = c :: cs ∧ Opens c)
    (h : ∀ j ∈ items, ReadAs depth j (made j)) :
    ReadAs (depth + 1) (array items) (.array (items.map made)) := by
  refine ⟨fun rest _ => ?_, ?_⟩
  · have hclose : ']' ∈ [']', '\x7d'] := by decide
    have hinside := container?_intercalate hclose hopens (fun j hj => (h j hj).read) rest
    rw [chars, bracket, itemChars_eq, List.cons_append, List.append_assoc, List.singleton_append,
      value?, skip_cons (by decide)]
    simp only [hinside, Option.map_some]
  · rw [Written.json?, items?_map fun j hj => (h j hj).json, Option.map_some]

theorem readAs_object {depth : Nat} {fields : List (String × Json)}
    {made : String × Json → Written} (h : ∀ f ∈ fields, ReadAs depth f.2 (made f)) :
    ReadAs (depth + 1) (object fields) (.object (fields.map fun f => (some f.1, made f))) := by
  refine ⟨fun rest _ => ?_, ?_⟩
  · have hopens : ∀ f ∈ fields, ∃ c cs, stringChars f.1 ++ ':' :: chars f.2 = c :: cs ∧ Opens c :=
      fun f _ => ⟨'"', _, rfl, by decide⟩
    have hclose : '\x7d' ∈ [']', '\x7d'] := by decide
    have hinside :=
      container?_intercalate hclose hopens (fun f hf => field?_fieldChars (h f hf)) rest
    rw [chars, bracket, fieldChars_eq, List.cons_append, List.append_assoc, List.singleton_append,
      value?, skip_cons (by decide)]
    simp only [hinside, Option.map_some]
  · rw [Written.json?, fields?_map fun f hf => (h f hf).json, Option.map_some]

/-- **Each value is read from its text**, whatever may stand after it. -/
theorem Exact.readAs {depth : Nat} {j : Json} (h : Exact depth j) : ∃ w, ReadAs depth j w := by
  induction h with
  | null => exact ⟨.null, readAs_leaf _ rfl (by decide) (by decide) (fun _ _ => rfl) rfl⟩
  | @bool _ b => cases b with
    | false =>
      exact ⟨.bool false, readAs_leaf _ rfl (by decide) (by decide) (fun _ _ => rfl) rfl⟩
    | true => exact ⟨.bool true, readAs_leaf _ rfl (by decide) (by decide) (fun _ _ => rfl) rfl⟩
  | int h => exact ⟨_, readAs_int _ h⟩
  | string => exact ⟨_, readAs_string _ _⟩
  | array hitems ih =>
    choose! made hmade using ih
    exact ⟨_, readAs_array (fun j hj => (hitems j hj).opens) hmade⟩
  | object hfields ih =>
    choose! made hmade using ih
    exact ⟨_, readAs_object hmade⟩

/-- **A value comes back from its text**, with the order of its fields and all else kept. -/
theorem parse?_compact {j : Json} (h : Exact maxDepth j) : parse? j.compact = some j := by
  obtain ⟨w, hread, hjson⟩ := h.readAs
  have hwhole := hread [] follows_nil
  rw [List.append_nil] at hwhole
  rw [parse?, Written.parseWithin?, compact, String.toList_ofList, hwhole]
  exact hjson

end StoredCall.Json
