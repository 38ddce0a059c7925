import StoredCall.Proofs.Text.Distinct
import StoredCall.Stub.Block

/-!
# Placeholders in the text of a block

A block is written from a tree, and a placeholder as a colon and a number. A reader of the text
finds the placeholders as colons that digits follow; the colons of assignments and of names would
mislead it. `colonNumbers` is such a reader.

* `Block.names` lists the names that a block is written with.
* `Block.marksIn_text`: where no name holds a colon, the text shows the placeholders of the
  tree, in order, and nothing else.
* `Carries` says which variable a block assigns to or from a placeholder. Placeholders that occur
  once are carried by at most one variable (`Carries.unique`).
-/

namespace StoredCall

open Text

/-! ## The names in a block -/

/-- The names in an expression. -/
def Expr.names : Expr → List String
  | .placeholder _ => []
  | .var name => [name]
  | .field record name => record.names ++ [name]
  | .item table index | .next table index => table.names ++ index.names
  | .first e | .last e | .count e | .succ e => e.names
  | .construct typeName => [typeName]

mutual

/-- The names in a statement. -/
def Stmt.names : Stmt → List String
  | .assign target value => target.names ++ value.names
  | .delete table | .extend table | .exitWhenFull table _ => table.names
  | .whileSet index body => index.names ++ namesAll body
  | .ifSet value body => value.names ++ namesAll body
  | .call none name params => name :: params.flatMap fun p => p.1 :: p.2.names
  | .call (some result) name params =>
    result.names ++ name :: params.flatMap fun p => p.1 :: p.2.names
  | .handled body exceptions => namesAll body ++ exceptions

/-- The names in statements. -/
def namesAll : List Stmt → List String
  | [] => []
  | s :: rest => s.names ++ namesAll rest

end

/-- The names in a declaration: what is declared, and of what type. -/
def Decl.names : Decl → List String
  | .var name typeName => [name, typeName]
  | .arrayType name elem => [name, elem]

/-- The names in a block. -/
def Block.names (b : Block) : List String :=
  b.decls.flatMap Decl.names ++ namesAll b.body

theorem namesAll_append : ∀ a b : List Stmt, namesAll (a ++ b) = namesAll a ++ namesAll b
  | [], _ => rfl
  | s :: a, b => by
    show s.names ++ namesAll (a ++ b) = (s.names ++ namesAll a) ++ namesAll b
    rw [namesAll_append a b, List.append_assoc]

theorem placeholdersAll_append : ∀ a b : List Stmt,
    placeholdersAll (a ++ b) = placeholdersAll a ++ placeholdersAll b
  | [], _ => by simp [placeholdersAll]
  | s :: a, b => by
    simp only [List.cons_append, placeholdersAll]
    rw [placeholdersAll_append a b, List.append_assoc]

/-! ## Reading placeholders -/

/-- A name without a colon. -/
def ColonFree (s : String) : Prop := ':' ∉ s.toList

instance : DecidablePred ColonFree := fun s => inferInstanceAs (Decidable (':' ∉ s.toList))

/-- The numbers that follow colons, as written from left to right. -/
def colonNumbers : List Char → List (List Char)
  | [] => []
  | c :: cs =>
    if c = ':' ∧ cs.takeWhile Char.isDigit ≠ [] then
      cs.takeWhile Char.isDigit :: colonNumbers cs
    else colonNumbers cs

/-- The numbers that follow colons in a text. -/
def marksIn (s : String) : List (List Char) := colonNumbers s.toList

/-- The digits of a placeholder. -/
def digitsOf (position : Nat) : List Char := (toString position).toList

/-- A text that does not go on with a digit. -/
def NoDigitAhead (s : String) : Prop := ∀ c ∈ s.toList.head?, c.isDigit = false

theorem takeWhile_isDigit_append {a b : List Char} (h : ∀ c ∈ b.head?, c.isDigit = false) :
    (a ++ b).takeWhile Char.isDigit = a.takeWhile Char.isDigit := by
  have hb : b.takeWhile Char.isDigit = [] := by
    rw [← List.head?_eq_none_iff, List.head?_takeWhile, Option.filter_eq_none_iff]
    simpa using h
  rw [List.takeWhile_append, hb, List.append_nil]
  split
  · next hlength => exact ((List.takeWhile_prefix _).eq_of_length hlength).symm
  · rfl

theorem colonNumbers_append {b : List Char} (h : ∀ c ∈ b.head?, c.isDigit = false) :
    ∀ a : List Char, colonNumbers (a ++ b) = colonNumbers a ++ colonNumbers b
  | [] => rfl
  | c :: a => by
    rw [List.cons_append, colonNumbers, colonNumbers, takeWhile_isDigit_append h,
      colonNumbers_append h a]
    split
    · rw [List.cons_append]
    · rfl

theorem colonNumbers_append_of_notMem {b : List Char} : ∀ {a : List Char}, ':' ∉ a →
    colonNumbers (a ++ b) = colonNumbers b
  | [], _ => rfl
  | c :: a, h => by
    rw [List.mem_cons, not_or] at h
    rw [List.cons_append, colonNumbers, if_neg fun hc => h.1 hc.1.symm,
      colonNumbers_append_of_notMem h.2]

/-- **What follows a text without adding a digit to it is read on its own.** -/
theorem marksIn_append (a : String) {b : String} (h : NoDigitAhead b) :
    marksIn (a ++ b) = marksIn a ++ marksIn b := by
  unfold marksIn
  rw [String.toList_append]
  exact colonNumbers_append h _

/-- A text without a colon changes nothing for what follows. -/
theorem marksIn_append_of_colonFree {a : String} (h : ColonFree a) (b : String) :
    marksIn (a ++ b) = marksIn b := by
  unfold marksIn
  rw [String.toList_append]
  exact colonNumbers_append_of_notMem h

theorem marksIn_of_colonFree {a : String} (h : ColonFree a) : marksIn a = [] := by
  have := marksIn_append_of_colonFree h ""
  rwa [String.append_empty] at this

theorem isDigit_of_mem_digitsOf {n : Nat} {c : Char} (h : c ∈ digitsOf n) : c.isDigit = true := by
  unfold digitsOf at h
  rw [Nat.toString_eq_repr, Nat.toList_repr] at h
  exact Nat.isDigit_of_mem_toDigits (by decide) (by decide) h

theorem colonFree_toString (n : Nat) : ColonFree (toString n) := by
  intro h
  exact absurd (isDigit_of_mem_digitsOf h) (by decide)

theorem marksIn_placeholder (position : Nat) :
    marksIn (":" ++ toString position) = [digitsOf position] := by
  have hne : digitsOf position ≠ [] := by
    unfold digitsOf
    rw [Nat.toString_eq_repr, Nat.toList_repr]
    exact Nat.toDigits_ne_nil
  have hfree : ':' ∉ digitsOf position := colonFree_toString position
  have htake : (digitsOf position).takeWhile Char.isDigit = digitsOf position :=
    List.takeWhile_eq_self_iff.mpr fun _ => isDigit_of_mem_digitsOf
  unfold marksIn
  rw [String.toList_append]
  show colonNumbers (':' :: digitsOf position) = _
  rw [colonNumbers, htake, if_pos ⟨rfl, hne⟩]
  have := colonNumbers_append_of_notMem (b := []) hfree
  rw [List.append_nil] at this
  rw [this]
  rfl

/-! ## Texts without colons -/

theorem colonFree_append {a b : String} : ColonFree (a ++ b) ↔ ColonFree a ∧ ColonFree b := by
  unfold ColonFree
  rw [String.toList_append, List.mem_append, not_or]

theorem noDigitAhead_append {a : String} {c : Char} (ha : a.toList.head? = some c)
    (hc : c.isDigit = false) (b : String) : NoDigitAhead (a ++ b) := by
  intro d hd
  rw [String.toList_append, List.head?_append, ha] at hd
  cases hd
  exact hc

theorem marksIn_assign (s : String) : marksIn (" := " ++ s) = marksIn s := by
  unfold marksIn
  rw [String.toList_append]
  show colonNumbers (' ' :: ':' :: '=' :: ' ' :: s.toList) = _
  simp [colonNumbers]

theorem colonFree_blockName {name : String} (h : ColonFree name) : ColonFree (blockName name) := by
  unfold blockName
  split
  · exact h
  · rw [colonFree_append, colonFree_append]
    exact ⟨⟨by decide, h⟩, by decide⟩

/-! ## Expressions and statements -/

/-- A fixed text that ends an expression. -/
theorem marksIn_append_fixed (a : String) {b : String} {c : Char} (hb : b.toList.head? = some c)
    (hc : c.isDigit = false) (hfree : ColonFree b) : marksIn (a ++ b) = marksIn a := by
  have hn := noDigitAhead_append hb hc ""
  rw [String.append_empty] at hn
  rw [marksIn_append a hn, marksIn_of_colonFree hfree, List.append_nil]

/-- An index or an argument in brackets. -/
theorem marksIn_bracketed (a b : String) {mark : String} {c : Char}
    (hm : mark.toList.head? = some c) (hc : c.isDigit = false) (hfree : ColonFree mark) :
    marksIn (a ++ mark ++ b ++ ")") = marksIn a ++ marksIn b := by
  rw [marksIn_append_fixed (b := ")") _ rfl rfl (by decide), String.append_assoc,
    marksIn_append a (noDigitAhead_append hm hc b), marksIn_append_of_colonFree hfree]

/-- **The text of an expression shows its placeholders.** -/
theorem Expr.marksIn_text : ∀ {e : Expr}, (∀ n ∈ e.names, ColonFree n) →
    marksIn e.text = e.placeholders.map digitsOf
  | .placeholder position, _ => marksIn_placeholder position
  | .var name, h => marksIn_of_colonFree (h name List.mem_cons_self)
  | .field record name, h => by
    have hr : ∀ n ∈ record.names, ColonFree n := fun n hn => h n (List.mem_append_left _ hn)
    have hn : ColonFree (blockName name) :=
      colonFree_blockName (h name (List.mem_append_right _ List.mem_cons_self))
    have hfree : ColonFree ("." ++ blockName name) :=
      colonFree_append.mpr ⟨by decide, hn⟩
    rw [Expr.text, String.append_assoc, marksIn_append _ (noDigitAhead_append rfl rfl _),
      marksIn_of_colonFree hfree, List.append_nil, Expr.marksIn_text hr]
    rfl
  | .item table index, h => by
    have ht := Expr.marksIn_text fun n hn => h n (List.mem_append_left _ hn)
    have hi := Expr.marksIn_text fun n hn => h n (List.mem_append_right _ hn)
    rw [Expr.text, marksIn_bracketed _ _ rfl rfl (by decide), ht, hi,
      Expr.placeholders, List.map_append]
  | .next table index, h => by
    have ht := Expr.marksIn_text fun n hn => h n (List.mem_append_left _ hn)
    have hi := Expr.marksIn_text fun n hn => h n (List.mem_append_right _ hn)
    rw [Expr.text, marksIn_bracketed _ _ rfl rfl (by decide), ht, hi,
      Expr.placeholders, List.map_append]
  | .first table, h => by
    rw [Expr.text, marksIn_append_fixed _ rfl rfl (by decide)]
    exact Expr.marksIn_text (e := table) h
  | .last table, h => by
    rw [Expr.text, marksIn_append_fixed _ rfl rfl (by decide)]
    exact Expr.marksIn_text (e := table) h
  | .count table, h => by
    rw [Expr.text, marksIn_append_fixed _ rfl rfl (by decide)]
    exact Expr.marksIn_text (e := table) h
  | .succ e, h => by
    rw [Expr.text, marksIn_append_fixed _ rfl rfl (by decide)]
    exact Expr.marksIn_text (e := e) h
  | .construct typeName, h => by
    rw [Expr.text, marksIn_append_fixed _ rfl rfl (by decide)]
    exact marksIn_of_colonFree (h typeName List.mem_cons_self)

/-- The marks of lines. -/
def lineMarks (lines : List String) : List (List Char) := lines.flatMap marksIn

theorem lineMarks_append (a b : List String) : lineMarks (a ++ b) = lineMarks a ++ lineMarks b :=
  List.flatMap_append

theorem lineMarks_indented (lines : List String) :
    lineMarks (indented lines) = lineMarks lines := by
  unfold lineMarks indented
  rw [List.flatMap_map]
  refine List.flatMap_congr fun line _ => ?_
  exact marksIn_append_of_colonFree (by decide) line

/-- Lines of a fixed wording between which others stand. -/
theorem lineMarks_framed {head foot : String} {body : List String} (hf : ColonFree foot) :
    lineMarks (head :: indented body ++ [foot]) = marksIn head ++ lineMarks body := by
  rw [List.cons_append, show ∀ l, lineMarks (head :: l) = marksIn head ++ lineMarks l from
    fun _ => rfl, lineMarks_append, lineMarks_indented]
  show _ ++ (_ ++ (marksIn foot ++ [])) = _
  rw [marksIn_of_colonFree hf, List.append_nil, List.append_nil]

theorem lineMarks_singleton (line : String) : lineMarks [line] = marksIn line :=
  List.append_nil _

/-- An assignment. -/
theorem marksIn_assignment (a b : String) :
    marksIn (a ++ " := " ++ b ++ ";") = marksIn a ++ marksIn b := by
  rw [marksIn_append_fixed (b := ";") _ rfl rfl (by decide), String.append_assoc,
    marksIn_append a (noDigitAhead_append rfl rfl b), marksIn_assign]

/-- An expression between fixed words. -/
theorem marksIn_worded {a c : String} (e : Expr) (ha : ColonFree a) (hc : ColonFree c) {d : Char}
    (hd : c.toList.head? = some d) (hdigit : d.isDigit = false)
    (he : ∀ n ∈ e.names, ColonFree n) :
    marksIn (a ++ e.text ++ c) = e.placeholders.map digitsOf := by
  rw [marksIn_append_fixed _ hd hdigit hc, marksIn_append_of_colonFree ha, Expr.marksIn_text he]

theorem marksIn_join : ∀ texts : List String, marksIn (join ", " texts) = texts.flatMap marksIn
  | [] => rfl
  | [s] => (List.append_nil _).symm
  | s :: t :: rest => by
    rw [join, String.append_assoc, marksIn_append s (noDigitAhead_append rfl rfl _),
      marksIn_append_of_colonFree (by decide), marksIn_join (t :: rest)]
    · rfl
    · simp

theorem marksIn_callText {name : String} {params : List (String × Expr)} (hname : ColonFree name)
    (h : ∀ n ∈ params.flatMap fun p => p.1 :: p.2.names, ColonFree n) :
    marksIn (callText name params) = (params.flatMap fun p => p.2.placeholders).map digitsOf := by
  have hparam : ∀ p ∈ params,
      marksIn (blockName p.1 ++ " => " ++ p.2.text) = p.2.placeholders.map digitsOf := by
    intro p hp
    have hin : ∀ n ∈ p.1 :: p.2.names, ColonFree n := fun n hn =>
      h n (List.mem_flatMap.mpr ⟨p, hp, hn⟩)
    rw [marksIn_append_of_colonFree,
      Expr.marksIn_text fun n hn => hin n (List.mem_cons_of_mem _ hn)]
    exact colonFree_append.mpr
      ⟨colonFree_blockName (hin _ List.mem_cons_self), by decide⟩
  unfold callText
  split
  · rename_i he
    rw [List.isEmpty_iff.mp he, marksIn_of_colonFree hname]
    rfl
  · rw [marksIn_bracketed _ _ rfl rfl (by decide), marksIn_of_colonFree hname,
      List.nil_append, marksIn_join, List.flatMap_map, List.map_flatMap]
    exact List.flatMap_congr hparam

theorem lineMarks_exceptions {exceptions : List String} (h : ∀ e ∈ exceptions, ColonFree e) :
    lineMarks (exceptions.map fun e => "WHEN " ++ e ++ " THEN NULL;") = [] := by
  refine List.flatMap_eq_nil_iff.mpr fun line hl => ?_
  obtain ⟨e, he, rfl⟩ := List.mem_map.mp hl
  refine marksIn_of_colonFree ?_
  rw [colonFree_append, colonFree_append]
  exact ⟨⟨by decide, h e he⟩, by decide⟩

mutual

/-- **The lines of a statement show its placeholders.** -/
theorem Stmt.lineMarks_lines : ∀ {s : Stmt}, (∀ n ∈ s.names, ColonFree n) →
    lineMarks s.lines = s.placeholders.map digitsOf
  | .assign target value, h => by
    have ht := Expr.marksIn_text fun n hn => h n (List.mem_append_left _ hn)
    have hv := Expr.marksIn_text fun n hn => h n (List.mem_append_right _ hn)
    rw [Stmt.lines, lineMarks_singleton, marksIn_assignment, ht, hv, Stmt.placeholders,
      List.map_append]
  | .delete table, h => by
    rw [Stmt.lines, lineMarks_singleton, marksIn_append_fixed _ rfl rfl (by decide)]
    exact Expr.marksIn_text (e := table) h
  | .extend table, h => by
    rw [Stmt.lines, lineMarks_singleton, marksIn_append_fixed _ rfl rfl (by decide)]
    exact Expr.marksIn_text (e := table) h
  | .exitWhenFull table limit, h => by
    have hlimit : ColonFree (" >= " ++ (toString limit ++ ";")) := by
      rw [colonFree_append, colonFree_append]
      exact ⟨by decide, colonFree_toString limit, by decide⟩
    rw [Stmt.lines, lineMarks_singleton, String.append_assoc, String.append_assoc]
    have hhead : (" >= " ++ (toString limit ++ ";")).toList.head? = some ' ' := by
      rw [String.toList_append, List.head?_append]
      rfl
    exact marksIn_worded (.count table) (by decide) hlimit hhead rfl h
  | .whileSet index body, h => by
    have hb := lineMarks_linesAll fun n hn => h n (List.mem_append_right _ hn)
    rw [Stmt.lines, lineMarks_framed (by decide), hb,
      marksIn_worded index (by decide) (by decide) rfl rfl
        fun n hn => h n (List.mem_append_left _ hn), Stmt.placeholders, List.map_append]
  | .ifSet value body, h => by
    have hb := lineMarks_linesAll fun n hn => h n (List.mem_append_right _ hn)
    rw [Stmt.lines, lineMarks_framed (by decide), hb,
      marksIn_worded value (by decide) (by decide) rfl rfl
        fun n hn => h n (List.mem_append_left _ hn), Stmt.placeholders, List.map_append]
  | .call none name params, h => by
    rw [Stmt.lines, lineMarks_singleton, marksIn_append_fixed _ rfl rfl (by decide),
      marksIn_callText (h name List.mem_cons_self) fun n hn => h n (List.mem_cons_of_mem _ hn)]
    rfl
  | .call (some result) name params, h => by
    have hr := Expr.marksIn_text fun n hn => h n (List.mem_append_left _ hn)
    have hin : ∀ n ∈ name :: params.flatMap fun p => p.1 :: p.2.names, ColonFree n :=
      fun n hn => h n (List.mem_append_right _ hn)
    rw [Stmt.lines, lineMarks_singleton, marksIn_assignment, hr,
      marksIn_callText (hin name List.mem_cons_self) fun n hn => hin n (List.mem_cons_of_mem _ hn),
      Stmt.placeholders, List.map_append]
  | .handled body exceptions, h => by
    have hb := lineMarks_linesAll fun n hn => h n (List.mem_append_left _ hn)
    have he := lineMarks_exceptions fun e he => h e (List.mem_append_right _ he)
    rw [Stmt.lines, List.append_assoc, lineMarks_append,
      lineMarks_framed (by decide), he]
    show marksIn "BEGIN" ++ lineMarks (indented (linesAll body)) ++ (marksIn "EXCEPTION" ++ []) = _
    rw [lineMarks_indented, hb, marksIn_of_colonFree (a := "BEGIN") (by decide),
      marksIn_of_colonFree (a := "EXCEPTION") (by decide), List.append_nil,
      List.nil_append, List.append_nil, Stmt.placeholders]

/-- The lines of statements show their placeholders. -/
theorem lineMarks_linesAll : ∀ {ss : List Stmt}, (∀ n ∈ namesAll ss, ColonFree n) →
    lineMarks (linesAll ss) = (placeholdersAll ss).map digitsOf
  | [], _ => rfl
  | s :: rest, h => by
    rw [linesAll, lineMarks_append,
      Stmt.lineMarks_lines fun n hn => h n (List.mem_append_left _ hn),
      lineMarks_linesAll fun n hn => h n (List.mem_append_right _ hn), placeholdersAll,
      List.map_append]

end

/-! ## Blocks -/

theorem marksIn_lines : ∀ lines : List String,
    marksIn (String.join (lines.map (· ++ "\n"))) = lineMarks lines
  | [] => rfl
  | line :: rest => by
    rw [List.map_cons, String.join_cons, String.append_assoc,
      marksIn_append line (noDigitAhead_append rfl rfl _),
      marksIn_append_of_colonFree (by decide), marksIn_lines rest]
    rfl

theorem Decl.colonFree_text {d : Decl} (h : ∀ n ∈ d.names, ColonFree n) : ColonFree d.text := by
  cases d with
  | var name typeName =>
    simp only [Decl.text, colonFree_append]
    exact ⟨⟨⟨h name (by simp [Decl.names]), by decide⟩,
      h typeName (by simp [Decl.names])⟩, by decide⟩
  | arrayType name elem =>
    simp only [Decl.text, colonFree_append]
    exact ⟨⟨⟨⟨by decide, h name (by simp [Decl.names])⟩,
      by decide⟩, h elem (by simp [Decl.names])⟩, by decide⟩

theorem lineMarks_decls {decls : List Decl} (h : ∀ n ∈ decls.flatMap Decl.names, ColonFree n) :
    lineMarks (decls.map Decl.text) = [] := by
  refine List.flatMap_eq_nil_iff.mpr fun line hl => ?_
  obtain ⟨d, hd, rfl⟩ := List.mem_map.mp hl
  exact marksIn_of_colonFree
    (Decl.colonFree_text fun n hn => h n (List.mem_flatMap.mpr ⟨d, hd, hn⟩))

/-- **The text of a block shows the placeholders of its tree**, in order and nothing else, where no
name of the block holds a colon. -/
theorem Block.marksIn_text {b : Block} (h : ∀ n ∈ b.names, ColonFree n) :
    marksIn b.text = b.placeholders.map digitsOf := by
  have hd := lineMarks_decls fun n hn => h n (List.mem_append_left _ hn)
  have hs := lineMarks_linesAll fun n hn => h n (List.mem_append_right _ hn)
  have hdecl : lineMarks (if b.decls.isEmpty then []
      else "DECLARE" :: indented (b.decls.map Decl.text)) = [] := by
    split
    · rfl
    · show marksIn "DECLARE" ++ lineMarks (indented _) = []
      rw [lineMarks_indented, hd, marksIn_of_colonFree (by decide)]
      rfl
  unfold Block.text Block.lines
  rw [marksIn_lines, List.append_assoc, lineMarks_append, hdecl, List.nil_append,
    lineMarks_framed (by decide), hs,
    marksIn_of_colonFree (by decide)]
  rfl

/-! ## Variables and placeholders -/

/-- A variable is assigned to or from a placeholder by one of the statements. -/
def Carries (stmts : List Stmt) (position : Nat) (name : String) : Prop :=
  .assign (.var name) (.placeholder position) ∈ stmts ∨
    .assign (.placeholder position) (.var name) ∈ stmts

theorem Carries.append_left {a : List Stmt} {position : Nat} {name : String}
    (h : Carries a position name) (b : List Stmt) : Carries (a ++ b) position name :=
  h.imp (List.mem_append_left b) (List.mem_append_left b)

theorem Carries.append_right {b : List Stmt} {position : Nat} {name : String} (a : List Stmt)
    (h : Carries b position name) : Carries (a ++ b) position name :=
  h.imp (List.mem_append_right a) (List.mem_append_right a)

theorem Carries.cons {s : Stmt} {rest : List Stmt} {position : Nat} {name : String}
    (h : Carries (s :: rest) position name) :
    (s = .assign (.var name) (.placeholder position) ∨
      s = .assign (.placeholder position) (.var name)) ∨ Carries rest position name := by
  rcases h with h | h
  · rcases List.mem_cons.mp h with rfl | h
    · exact Or.inl (Or.inl rfl)
    · exact Or.inr (Or.inl h)
  · rcases List.mem_cons.mp h with rfl | h
    · exact Or.inl (Or.inr rfl)
    · exact Or.inr (Or.inr h)

theorem Carries.mem_placeholders : ∀ {stmts : List Stmt} {position : Nat} {name : String},
    Carries stmts position name → position ∈ placeholdersAll stmts
  | [], _, _, h => by rcases h with h | h <;> exact absurd h List.not_mem_nil
  | s :: rest, position, name, h => by
    rw [placeholdersAll, List.mem_append]
    rcases h.cons with (rfl | rfl) | h
    · left; simp [Stmt.placeholders, Expr.placeholders]
    · left; simp [Stmt.placeholders, Expr.placeholders]
    · exact Or.inr h.mem_placeholders

/-- **A placeholder that occurs once is carried by at most one variable.** -/
theorem Carries.unique : ∀ {stmts : List Stmt} {position : Nat} {x y : String},
    (placeholdersAll stmts).Nodup → Carries stmts position x → Carries stmts position y → x = y
  | [], _, _, _, _, h, _ => by rcases h with h | h <;> exact absurd h List.not_mem_nil
  | s :: rest, position, x, y, hn, hx, hy => by
    rw [placeholdersAll, List.nodup_append] at hn
    obtain ⟨-, hrest, hdis⟩ := hn
    rcases hx.cons with hsx | hx
    · have hs : position ∈ s.placeholders := by
        rcases hsx with rfl | rfl <;> simp [Stmt.placeholders, Expr.placeholders]
      rcases hy.cons with hsy | hy
      · rcases hsx with rfl | rfl <;> rcases hsy with h | h <;> simp_all
      · exact absurd rfl (hdis _ hs _ hy.mem_placeholders)
    · rcases hy.cons with hsy | hy
      · have hs : position ∈ s.placeholders := by
          rcases hsy with rfl | rfl <;> simp [Stmt.placeholders, Expr.placeholders]
        exact absurd rfl (hdis _ hs _ hx.mem_placeholders)
      · exact Carries.unique hrest hx hy

end StoredCall
