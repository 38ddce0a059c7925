import StoredCall.Number.Digits
import StoredCall.Stub.Glue
import StoredCall.Text.Split
import Mathlib

/-!
# Reading source text back

Generated source is text; what it says is what a reader finds in it. A reader takes characters off
the front of a text and leaves the rest.

* `Reads r text a`: the reader `r` takes exactly `text` and finds `a`, whatever stands after it.
* `oneOf` tells statements by how they start; `upTo` reads them up to a closing text, `untilEnd` up
  to the end.
* `span` reads characters of one class; `word`, `number` and `named` read what consists of letters,
  digits and colons.
* `reads_quotedText`: what is written between quotes with escapes is read back.
* `reads_rawText`: so is a text between hashes, whatever quotes and hashes it has itself.

Readers take line ends as they stand. A tool that turns a carriage return with a line feed into a
line feed alone, and refuses a carriage return elsewhere in a text between hashes, reads the same
where there is no carriage return.
-/

namespace StoredCall.Text

open Number

variable {α β : Type}

/-- Takes something off the front of a text, if it stands there. -/
abbrev Take (α : Type) := StateT (List Char) Option α

/-- A text is read as `a`, whatever stands after it. -/
def Reads (r : Take α) (text : List Char) (a : α) : Prop :=
  ∀ rest, r.run (text ++ rest) = some (a, rest)

namespace Reads

theorem pure (a : α) : Reads (Pure.pure a) [] a := fun _ => rfl

/-- One reader after the other reads one text after the other. -/
theorem bind {r : Take α} {f : α → Take β} {s t : List Char} {a : α} {b : β} (hr : Reads r s a)
    (hf : Reads (f a) t b) : Reads (r >>= f) (s ++ t) b := by
  intro rest
  rw [StateT.run_bind, List.append_assoc, hr]
  exact hf rest

/-- A reader that ends with what was read last. -/
theorem bind_pure {r : Take α} {s : List Char} {a : α} (hr : Reads r s a) (f : α → β) :
    Reads (r >>= fun x => Pure.pure (f x)) s (f a) := by
  have h : Reads (r >>= fun x => Pure.pure (f x)) (s ++ []) (f a) := hr.bind (Reads.pure (f a))
  rwa [List.append_nil] at h

end Reads

/-! ## Fixed texts -/

/-- Joined texts, character by character. -/
theorem toList_join (items : List α) (text : α → String) :
    (String.join (items.map text)).toList = items.flatMap fun a => (text a).toList := by
  induction items with
  | nil => rfl
  | cons a items ih =>
    rw [List.map_cons, String.join_cons, String.toList_append, ih, List.flatMap_cons]

theorem dropStart?_append (p cs : List Char) : dropStart? p (p ++ cs) = some cs := by
  induction p with
  | nil => rfl
  | cons c p ih => rw [List.cons_append, dropStart?, if_pos rfl, ih]

/-- Neither of two texts is the start of the other. -/
def Parts (s t : List Char) : Prop := s.isPrefixOf t = false ∧ t.isPrefixOf s = false

instance (s t : List Char) : Decidable (Parts s t) := inferInstanceAs (Decidable (_ ∧ _))

theorem Parts.ne_nil {s t : List Char} (h : Parts s t) : t ≠ [] := by
  rintro rfl
  simp [Parts] at h

theorem dropStart?_of_parts {s t : List Char} (h : Parts s t) (cs : List Char) :
    dropStart? s (t ++ cs) = none := by
  induction s generalizing t with
  | nil => simp [Parts] at h
  | cons c s ih =>
    cases t with
    | nil => simp [Parts] at h
    | cons d t =>
      rw [List.cons_append, dropStart?]
      by_cases hcd : c = d
      · rw [if_pos hcd]
        exact ih (by simpa [Parts, List.isPrefixOf, hcd] using h)
      · rw [if_neg hcd]

/-- Takes a fixed text. -/
def expect (s : String) : Take Unit := fun cs => (dropStart? s.toList cs).map fun rest => ((), rest)

theorem reads_expect (s : String) : Reads (expect s) s.toList () := by
  intro rest
  show (dropStart? s.toList (s.toList ++ rest)).map _ = _
  rw [dropStart?_append, Option.map_some]

/-! ## Statements -/

/-- Statements: how each starts, and how the rest of it is read. -/
abbrev Forms (α : Type) := List (String × Take α)

/-- Reads by the first form that a text starts with. -/
def oneOf : Forms α → Take α
  | [] => fun _ => none
  | (start, r) :: forms => fun cs =>
    match dropStart? start.toList cs with
    | some rest => r.run rest
    | none => (oneOf forms).run cs

/-- No text of a list is the start of another one. -/
def Told (starts : List String) : Prop := starts.Pairwise fun s t => Parts s.toList t.toList

instance (starts : List String) : Decidable (Told starts) :=
  inferInstanceAs (Decidable (List.Pairwise _ _))

/-- A text has the form of number `i` and is read as `a`. -/
def Formed (forms : Forms α) (i : Nat) (text : List Char) (a : α) : Prop :=
  ∃ start r rest, forms[i]? = some (start, r) ∧ text = start.toList ++ rest ∧ Reads r rest a

theorem Formed.reads {forms : Forms α} (htold : Told (forms.map Prod.fst)) {i : Nat}
    {text : List Char} {a : α} (h : Formed forms i text a) : Reads (oneOf forms) text a := by
  obtain ⟨start, r, text, hi, rfl, hr⟩ := h
  have hmem : (start, r) ∈ forms := List.mem_of_getElem? hi
  clear hi
  intro rest
  induction forms with
  | nil => cases hmem
  | cons form forms ih =>
    obtain ⟨hfirst, hforms⟩ := List.pairwise_cons.mp htold
    show (match dropStart? form.1.toList _ with
      | some rest => form.2.run rest
      | none => (oneOf forms).run _) = _
    rw [List.append_assoc]
    rcases List.mem_cons.mp hmem with rfl | hmem
    · rw [dropStart?_append]
      exact hr rest
    · rw [dropStart?_of_parts (hfirst start (List.mem_map_of_mem (f := Prod.fst) hmem))]
      have hrest := ih hforms hmem
      rwa [List.append_assoc] at hrest

/-- Reads statements, fewer than `fuel`, up to a closing text. -/
def upToWithin (close : String) (forms : Forms α) : (fuel : Nat) → Take (List α)
  | 0 => fun _ => none
  | fuel + 1 => fun cs =>
    match dropStart? close.toList cs with
    | some rest => some ([], rest)
    | none => (do
        let a ← oneOf forms
        let more ← upToWithin close forms fuel
        return a :: more : Take (List α)).run cs

/-- Reads statements up to a closing text, which is taken as well. A statement has at least one
character. -/
def upTo (close : String) (forms : Forms α) : Take (List α) := fun cs =>
  (upToWithin close forms (cs.length + 1)).run cs

/-- Reads statements, at most `fuel`, up to the end of a text. -/
def untilEnd (forms : Forms α) : (fuel : Nat) → List Char → Option (List α)
  | _, [] => some []
  | 0, _ => none
  | fuel + 1, cs => do
    let (a, rest) ← (oneOf forms).run cs
    return a :: (← untilEnd forms fuel rest)

section UpTo

variable {close : String} {forms : Forms α} {text : α → List Char} {items : List α}

theorem Formed.ne_nil {i : Nat} {cs : List Char} {a : α} (h : Formed forms i cs a)
    (hstarts : ∀ start ∈ forms.map Prod.fst, start.toList ≠ []) : cs ≠ [] := by
  obtain ⟨start, r, tail, hi, rfl, -⟩ := h
  have hstart := hstarts start (List.mem_map_of_mem (f := Prod.fst) (List.mem_of_getElem? hi))
  exact fun h => hstart (List.append_eq_nil_iff.mp h).1

/-- There are no more statements than characters. -/
theorem length_le_length_flatMap (h : ∀ a ∈ items, text a ≠ []) :
    items.length ≤ (items.flatMap text).length := by
  rw [List.length_flatMap]
  have := List.length_le_sum_of_one_le (items.map fun a => (text a).length) (by
    intro n hn
    obtain ⟨a, ha, rfl⟩ := List.mem_map.mp hn
    exact List.length_pos_iff.mpr (h a ha))
  simpa using this

theorem reads_upToWithin (htold : Told (close :: forms.map Prod.fst))
    (h : ∀ a ∈ items, ∃ i, Formed forms i (text a) a) {fuel : Nat} (hfuel : items.length < fuel) :
    Reads (upToWithin close forms fuel) (items.flatMap text ++ close.toList) items := by
  obtain ⟨hclose, hforms⟩ := List.pairwise_cons.mp htold
  induction items generalizing fuel with
  | nil =>
    obtain ⟨fuel, rfl⟩ : ∃ n, fuel = n + 1 := ⟨fuel - 1, by simp at hfuel; omega⟩
    intro rest
    show (match dropStart? close.toList (close.toList ++ rest) with
      | some rest => some ([], rest)
      | none => _) = _
    rw [dropStart?_append]
  | cons a items ih =>
    obtain ⟨fuel, rfl⟩ : ∃ n, fuel = n + 1 := ⟨fuel - 1, by simp at hfuel; omega⟩
    obtain ⟨i, ha⟩ := h a List.mem_cons_self
    have hmore : Reads (upToWithin close forms fuel) (items.flatMap text ++ close.toList) items :=
      ih (fun b hb => h b (List.mem_cons_of_mem a hb)) (by simpa using hfuel)
    have hall : Reads (do
        let a ← oneOf forms
        let more ← upToWithin close forms fuel
        return a :: more : Take (List α)) (text a ++ (items.flatMap text ++ close.toList))
          (a :: items) :=
      (ha.reads hforms).bind (hmore.bind_pure (a :: ·))
    obtain ⟨start, r, tail, hi, htext, -⟩ := ha
    have hnot := dropStart?_of_parts (hclose start (List.mem_map_of_mem (f := Prod.fst)
      (List.mem_of_getElem? hi)))
    intro rest
    show (match dropStart? close.toList _ with
      | some rest => some ([], rest)
      | none => _) = _
    have hsplit : (a :: items).flatMap text ++ close.toList ++ rest =
        start.toList ++ (tail ++ (items.flatMap text ++ (close.toList ++ rest))) := by
      rw [List.flatMap_cons, htext]
      simp only [List.append_assoc]
    rw [hsplit, hnot, ← hsplit, List.flatMap_cons, List.append_assoc (text a)]
    exact hall rest

/-- **Statements are read one after the other**, if none starts like another one or like the closing
text. -/
theorem reads_upTo (htold : Told (close :: forms.map Prod.fst))
    (h : ∀ a ∈ items, ∃ i, Formed forms i (text a) a) :
    Reads (upTo close forms) (items.flatMap text ++ close.toList) items := by
  intro rest
  have hlen := length_le_length_flatMap fun a ha => by
    obtain ⟨i, hform⟩ := h a ha
    exact hform.ne_nil fun start hstart => ((List.pairwise_cons.mp htold).1 start hstart).ne_nil
  refine reads_upToWithin htold h ?_ rest
  simp only [List.length_append]
  omega

/-- Statements are read up to the end of a text. -/
theorem untilEnd_flatMap (htold : Told (forms.map Prod.fst))
    (h : ∀ a ∈ items, ∃ i, Formed forms i (text a) a) (hne : ∀ a ∈ items, text a ≠ []) {fuel : Nat}
    (hfuel : items.length ≤ fuel) : untilEnd forms fuel (items.flatMap text) = some items := by
  induction items generalizing fuel with
  | nil => cases fuel <;> rfl
  | cons a items ih =>
    obtain ⟨fuel, rfl⟩ : ∃ n, fuel = n + 1 := ⟨fuel - 1, by simp at hfuel; omega⟩
    obtain ⟨i, ha⟩ := h a List.mem_cons_self
    have hmore := ih (fun b hb => h b (List.mem_cons_of_mem a hb))
      (fun b hb => hne b (List.mem_cons_of_mem a hb)) (by simpa using hfuel)
    have hread := ha.reads htold (items.flatMap text)
    rw [List.flatMap_cons, untilEnd, hread]
    · simp [hmore]
    · simp [hne a List.mem_cons_self]

end UpTo

/-! ## Words and numbers -/

/-- A text that starts with a character outside of a class. -/
def Stops (p : Char → Bool) (cs : List Char) : Prop := (cs.head?.any fun c => !p c) = true

instance (p : Char → Bool) (cs : List Char) : Decidable (Stops p cs) :=
  inferInstanceAs (Decidable (_ = true))

/-- Takes the characters of a class; `next` goes on from there. -/
def span (p : Char → Bool) (next : List Char → Take α) : Take α := fun cs =>
  (next (cs.takeWhile p)).run (cs.dropWhile p)

theorem reads_span {p : Char → Bool} {next : List Char → Take α} {w t : List Char} {a : α}
    (hw : w.all p = true) (ht : Stops p t) (h : Reads (next w) t a) :
    Reads (span p next) (w ++ t) a := by
  intro rest
  have hw := List.all_eq_true.mp hw
  cases t with
  | nil => simp [Stops] at ht
  | cons c cs =>
    have hstop : ¬ p c = true := by simpa [Stops] using ht
    show (next ((w ++ c :: cs ++ rest).takeWhile p)).run ((w ++ c :: cs ++ rest).dropWhile p) = _
    rw [List.append_assoc, List.takeWhile_append_of_pos hw, List.dropWhile_append_of_pos hw,
      List.cons_append, List.takeWhile_cons_of_neg hstop, List.dropWhile_cons_of_neg hstop,
      List.append_nil]
    exact h rest

/-- Takes the characters of a class and the text right after them. -/
def spanTo (p : Char → Bool) (close : String) : Take String := span p fun w => do
  expect close
  return String.ofList w

theorem reads_spanTo {p : Char → Bool} {s : String} (hs : s.toList.all p = true) {close : String}
    (hc : Stops p close.toList) : Reads (spanTo p close) (s.toList ++ close.toList) s := by
  refine reads_span hs hc ?_
  rw [String.ofList_toList]
  exact (reads_expect close).bind_pure fun _ => s

/-- A character of a word: a letter, a digit, an underscore or a colon. -/
def isWordChar (c : Char) : Bool := c.isAlphanum || c == '_' || c == ':'

/-- A text that consists of word characters. -/
def IsWord (cs : List Char) : Prop := cs.all isWordChar = true

instance (cs : List Char) : Decidable (IsWord cs) := inferInstanceAs (Decidable (_ = true))

/-- A text that starts with a character that is in no word. -/
abbrev EndsWord (cs : List Char) : Prop := Stops isWordChar cs

/-- Takes a word and the text right after it. -/
def word (close : String) : Take (List Char) := span isWordChar fun w => do
  expect close
  return w

theorem reads_word {w : List Char} (hw : IsWord w) {close : String} (hc : EndsWord close.toList) :
    Reads (word close) (w ++ close.toList) w :=
  reads_span hw hc ((reads_expect close).bind_pure fun _ => w)

/-- Takes a word that means something. -/
def meaning (close : String) (f : List Char → Option α) : Take α := do
  match f (← word close) with
  | some a => return a
  | none => failure

theorem reads_meaning {w : List Char} (hw : IsWord w) {close : String}
    (hc : EndsWord close.toList) {f : List Char → Option α} {a : α} (hf : f w = some a) :
    Reads (meaning close f) (w ++ close.toList) a := by
  have hlast : Reads (match f w with
      | some a => (return a : Take α)
      | none => failure) [] a := by
    rw [hf]
    exact Reads.pure a
  have h := (reads_word hw hc).bind (f := fun w => match f w with
      | some a => (return a : Take α)
      | none => failure) hlast
  rwa [List.append_nil] at h

/-- Takes a number. -/
def number (close : String) : Take Nat := meaning close readNat?

theorem toList_toString (n : Nat) : (toString n).toList = Nat.toDigits 10 n := by
  rw [Nat.toString_eq_repr, Nat.toList_repr]

theorem readNat?_toDigits (n : Nat) : readNat? (Nat.toDigits 10 n) = some n := by
  have hall : (Nat.toDigits 10 n).all Char.isDigit = true :=
    List.all_eq_true.mpr fun c => Nat.isDigit_of_mem_toDigits (by decide) (by decide)
  have hvalue : natOf (Nat.toDigits 10 n) = n :=
    Nat.ofDigitChars_eq_foldl.symm.trans Nat.ofDigitChars_ten_toDigits
  rw [readNat?, hall, hvalue]
  simp [Nat.toDigits_ne_nil]

theorem readNat?_toString (n : Nat) : readNat? (toString n).toList = some n := by
  rw [toList_toString, readNat?_toDigits]

theorem isWord_toString (n : Nat) : IsWord (toString n).toList := by
  rw [toList_toString]
  refine List.all_eq_true.mpr fun c h => ?_
  have hdigit : c.isDigit = true := Nat.isDigit_of_mem_toDigits (by decide) (by decide) h
  simp [isWordChar, Char.isAlphanum, hdigit]

theorem reads_number (n : Nat) {close : String} (hc : EndsWord close.toList) :
    Reads (number close) ((toString n).toList ++ close.toList) n :=
  reads_meaning (isWord_toString n) hc (readNat?_toString n)

/-- Takes the name of one of the listed things. -/
def named (table : List α) (name : α → String) (close : String) : Take α :=
  meaning close fun w => table.find? fun a => (name a).toList = w

theorem reads_named {table : List α} {name : α → String} {a : α} (ha : a ∈ table)
    (hinj : ∀ b ∈ table, name b = name a → b = a) (hw : IsWord (name a).toList) {close : String}
    (hc : EndsWord close.toList) :
    Reads (named table name close) ((name a).toList ++ close.toList) a := by
  refine reads_meaning hw hc ?_
  cases h : table.find? fun b => decide ((name b).toList = (name a).toList) with
  | none => simpa using List.find?_eq_none.mp h a ha
  | some b =>
    have hname : (name b).toList = (name a).toList := by simpa using List.find?_some h
    rw [hinj b (List.mem_of_find?_eq_some h) (String.toList_inj.mp hname)]

/-! ## Texts between quotes -/

/-- Where a reader is inside a text between quotes. -/
inductive QuoteState where
  | plain
  /-- After a backslash. -/
  | escaped
  /-- After a backslash and `u`. -/
  | numbered
  /-- Inside braces, after digits that make up a number. -/
  | digits (n : Nat)

/-- The character that an escape of one letter stands for. -/
def unescape? : Char → Option Char
  | '"' => some '"'
  | '\\' => some '\\'
  | 'n' => some '\n'
  | 'r' => some '\r'
  | 't' => some '\t'
  | '0' => some '\x00'
  | _ => none

/-- The number that a hexadecimal digit stands for. -/
def hexValue? (c : Char) : Option Nat :=
  if c.isDigit then some (c.toNat - '0'.toNat)
  else if 'a' ≤ c ∧ c ≤ 'f' then some (c.toNat - 'a'.toNat + 10)
  else none

/-- Reads up to the closing quote. -/
def unquote : QuoteState → List Char → Option (List Char × List Char)
  | _, [] => none
  | .plain, c :: cs =>
    if c = '"' then some ([], cs)
    else if c = '\\' then unquote .escaped cs
    else (unquote .plain cs).map fun (text, rest) => (c :: text, rest)
  | .escaped, c :: cs =>
    if c = 'u' then unquote .numbered cs
    else do
      let d ← unescape? c
      let (text, rest) ← unquote .plain cs
      return (d :: text, rest)
  | .numbered, c :: cs => if c = '\x7b' then unquote (.digits 0) cs else none
  | .digits n, c :: cs =>
    if c = '\x7d' then (unquote .plain cs).map fun (text, rest) => (Char.ofNat n :: text, rest)
    else do
      let d ← hexValue? c
      unquote (.digits (16 * n + d)) cs

theorem hexValue?_digitChar : ∀ d < 16, hexValue? (Nat.digitChar d) = some d := by decide

theorem digitChar_ne_brace : ∀ d < 16, Nat.digitChar d ≠ '\x7d' := by decide

/-- The digits of a number are read as this number. -/
theorem unquote_toDigits (n : Nat) (cs : List Char) :
    unquote (.digits 0) (Nat.toDigits 16 n ++ cs) = unquote (.digits n) cs := by
  have hdigit : ∀ (m d : Nat) (cs : List Char), d < 16 →
      unquote (.digits m) (Nat.digitChar d :: cs) = unquote (.digits (16 * m + d)) cs := by
    intro m d cs hd
    rw [unquote, if_neg (digitChar_ne_brace d hd), hexValue?_digitChar d hd]
    rfl
  induction n using Nat.strongRecOn generalizing cs with
  | ind n ih =>
    rw [Nat.toDigits_eq_if (by decide)]
    split
    · next hlt =>
      rw [List.singleton_append, hdigit 0 n cs hlt]
      simp
    · next hge =>
      rw [List.append_assoc, ih (n / 16) (by omega), List.singleton_append,
        hdigit _ _ _ (by omega)]
      congr 2
      omega

/-- A character as it is written is read as itself. -/
theorem unquote_quoteChar (c : Char) (cs : List Char) :
    unquote .plain (quoteChar c ++ cs) =
      (unquote .plain cs).map fun (text, rest) => (c :: text, rest) := by
  have hshort : ∀ d, unescape? d = some c → d ≠ 'u' → unquote .plain ('\\' :: d :: cs) =
      (unquote .plain cs).map fun (text, rest) => (c :: text, rest) := by
    intro d hd hu
    rw [unquote, if_neg (by decide), if_pos rfl, unquote, if_neg hu, hd]
    cases unquote .plain cs <;> rfl
  unfold quoteChar
  split_ifs with hquote hback hfeed hreturn htab hnull hshape
  · exact hshort '"' (by rw [hquote]; rfl) (by decide)
  · exact hshort '\\' (by rw [hback]; rfl) (by decide)
  · exact hshort 'n' (by rw [hfeed]; rfl) (by decide)
  · exact hshort 'r' (by rw [hreturn]; rfl) (by decide)
  · exact hshort 't' (by rw [htab]; rfl) (by decide)
  · exact hshort '0' (by rw [hnull]; rfl) (by decide)
  · have hopen : unquote .plain (numberEscape c ++ cs) =
        unquote (.digits 0) (Nat.toDigits 16 c.toNat ++ '\x7d' :: cs) := by
      simp [numberEscape, unquote]
    rw [hopen, unquote_toDigits, unquote, if_pos rfl, Char.ofNat_toNat]
  · rw [List.singleton_append, unquote, if_neg hquote, if_neg hback]

theorem unquote_flatMap (text rest : List Char) :
    unquote .plain (text.flatMap quoteChar ++ '"' :: rest) = some (text, rest) := by
  induction text with
  | nil => rw [List.flatMap_nil, List.nil_append, unquote, if_pos rfl]
  | cons c text ih =>
    rw [List.flatMap_cons, List.append_assoc, unquote_quoteChar, ih, Option.map_some]

/-- Takes a text between quotes. -/
def quotedText : Take String := do
  expect "\""
  fun cs => (unquote .plain cs).map fun (text, rest) => (String.ofList text, rest)

/-- **A text between quotes is read back.** -/
theorem reads_quotedText (s : String) : Reads quotedText (quoted s).toList s := by
  have htext : (quoted s).toList = "\"".toList ++ (s.toList.flatMap quoteChar ++ ['"']) := by
    simp [quoted]
  rw [htext]
  refine (reads_expect "\"").bind fun rest => ?_
  show (unquote .plain _).map _ = _
  rw [List.append_assoc, List.singleton_append, unquote_flatMap]
  simp only [Option.map_some, String.ofList_toList]

/-! ## Texts between hashes -/

/-- Takes a text between hashes: it ends at the first quote with as many hashes as there are in
front of it. -/
def rawText : Take String := do
  expect "r"
  fun cs =>
    let hashes := cs.takeWhile (· = '#')
    match cs.dropWhile (· = '#') with
    | '"' :: cs => (cutAt? ('"' :: hashes) cs).map fun (text, rest) => (String.ofList text, rest)
    | _ => none

/-- A run of hashes ends before a quote or inside the text. -/
theorem dropStart?_hashes {n k : Nat} {s rest : List Char} (hn : 0 < n)
    (h : longestRun (some k) s < n + k) :
    dropStart? (List.replicate n '#') (s ++ '"' :: rest) = none := by
  induction s generalizing n k with
  | nil =>
    obtain ⟨n, rfl⟩ : ∃ m, n = m + 1 := ⟨n - 1, by omega⟩
    rw [List.replicate_succ, List.nil_append, dropStart?, if_neg (by decide)]
  | cons c s ih =>
    obtain ⟨n, rfl⟩ : ∃ m, n = m + 1 := ⟨n - 1, by omega⟩
    rw [List.replicate_succ, List.cons_append, dropStart?]
    by_cases hc : '#' = c
    · subst hc
      have hrun : longestRun (some k) ('#' :: s) =
          max (k + 1) (longestRun (some (k + 1)) s) := rfl
      rw [if_pos rfl]
      exact ih (k := k + 1) (by omega) (by omega)
    · rw [if_neg hc]

/-- The longest run of a text is at least that of what follows its first character. -/
theorem longestRun_tail (run : Option Nat) (c : Char) (s : List Char) :
    ∃ next, (c = '"' → next = some 0) ∧ longestRun next s ≤ longestRun run (c :: s) := by
  by_cases hquote : c = '"'
  · subst hquote
    exact ⟨some 0, fun _ => rfl, le_rfl⟩
  · by_cases hhash : c = '#'
    · subst hhash
      cases run with
      | none => exact ⟨none, fun h => absurd h hquote, le_rfl⟩
      | some n => exact ⟨some (n + 1), fun h => absurd h hquote, le_max_right _ _⟩
    · exact ⟨none, fun h => absurd h hquote, by simp [longestRun, hquote, hhash]⟩

/-- A text is cut at the quote after it, if its own quotes are followed by too few hashes. -/
theorem cutAt?_hashes {n : Nat} {run : Option Nat} {s : List Char} (h : longestRun run s < n)
    (rest : List Char) :
    cutAt? ('"' :: List.replicate n '#') (s ++ ('"' :: List.replicate n '#' ++ rest)) =
      some (s, rest) := by
  induction s generalizing run with
  | nil =>
    rw [List.nil_append, List.cons_append, cutAt?, ← List.cons_append, dropStart?_append]
  | cons c s ih =>
    obtain ⟨next, hnext, hle⟩ := longestRun_tail run c s
    have hmiss : dropStart? ('"' :: List.replicate n '#')
        (c :: (s ++ ('"' :: List.replicate n '#' ++ rest))) = none := by
      rw [dropStart?]
      by_cases hc : '"' = c
      · rw [if_pos hc, List.cons_append]
        rw [hnext hc.symm] at hle
        exact dropStart?_hashes (k := 0) (by omega) (by omega)
      · rw [if_neg hc]
    rw [List.cons_append, cutAt?, hmiss, ih (lt_of_le_of_lt hle h), Option.map_some]

/-- After the hashes and the quote in front, a text is read up to the quote that ends it. -/
theorem run_rawText (n : Nat) (body : List Char) :
    rawText.run ('r' :: (List.replicate n '#' ++ '"' :: body)) =
      (cutAt? ('"' :: List.replicate n '#') body).map fun (text, rest) =>
        (String.ofList text, rest) := by
  have hash : ∀ c ∈ List.replicate n '#', decide (c = '#') = true := by simp
  have htake : (List.replicate n '#' ++ '"' :: body).takeWhile (· = '#') =
      List.replicate n '#' := by
    rw [List.takeWhile_append_of_pos hash, List.takeWhile_cons_of_neg (by decide), List.append_nil]
  have hdrop : (List.replicate n '#' ++ '"' :: body).dropWhile (· = '#') = '"' :: body := by
    rw [List.dropWhile_append_of_pos hash, List.dropWhile_cons_of_neg (by decide)]
  show (match (List.replicate n '#' ++ '"' :: body).dropWhile _ with
    | '"' :: cs => (cutAt? ('"' :: _) cs).map _
    | _ => none) = _
  simp only [hdrop, htake]

/-- A literal opens with `r`, as many hashes as it ends with, and a quote. -/
theorem toList_rawString (s : String) :
    (rawString s).toList = 'r' :: (List.replicate (longestRun none s.toList + 1) '#' ++
      '"' :: (s.toList ++ '"' :: List.replicate (longestRun none s.toList + 1) '#')) := by
  simp [rawString]

/-- **A text between hashes is read back**, whatever quotes and hashes it has itself. -/
theorem reads_rawText (s : String) : Reads rawText (rawString s).toList s := by
  intro rest
  have hcut := cutAt?_hashes (lt_add_one (longestRun none s.toList)) rest
  rw [toList_rawString]
  simp only [List.append_assoc, List.cons_append] at hcut ⊢
  simp only [run_rawText, hcut, Option.map_some, String.ofList_toList]

end StoredCall.Text
