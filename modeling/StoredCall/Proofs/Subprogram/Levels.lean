import StoredCall.Proofs.Subprogram.Rows

/-!
# Rows that make trees

The rows of a subprogram are accepted exactly if their levels are those of trees in preorder: a row
is no deeper than the row before it, or one level below it if that can have parts. Besides, a table
has one element, there is one return value, and every direction can be read. All other rows are
refused as inconsistent.

While rows are read, the open composites are those rows at ever deeper levels after which no row has
come back up. A composite that is open has parts as soon as any row has followed it.

* `WellLevelled` is the condition on rows, and `Admissible` what it asks of one more row:
  `wellLevelled_concat`.
* `Draft.Tracks`: what is open in a draft is read off the rows so far.
* `Draft.tracks_add`, `Draft.error_of_not_admissible`: one more row is taken exactly if it is
  admissible.
* **`Subprogram.allOfRows_iff_wellLevelled`**: rows are accepted exactly if they are well-levelled.
-/

namespace StoredCall

open Text

/-! ## Well-levelled rows -/

/-- The texts for directions, in upper case. -/
def Direction.spellings : List String := ["", "IN", "OUT", "IN/OUT", "IN OUT", "INOUT"]

theorem Direction.exists_parse_iff {s : String} :
    (∃ direction, Direction.parse s = .ok direction) ↔ upper (trim s) ∈ Direction.spellings := by
  unfold Direction.parse
  split <;> simp_all [Direction.spellings]

namespace ArgRow

/-- The form of the argument of a row. -/
def form (r : ArgRow) : Flavor := Flavor.ofDataType r.dataType

/-- A row may come right before another: this is at the top, or no deeper, or one level below a
record or table. -/
def Precedes (prev r : ArgRow) : Prop :=
  r.level = 0 ∨ r.level ≤ prev.level ∨
    prev.form ≠ .simple ∧ r.level.toNat = prev.level.toNat + 1

/-- The rows of the parts of a row, among those after it: the rows one level below it, up to the
first row that is not below it. -/
def partRows (t : ArgRow) (after : List ArgRow) : List ArgRow :=
  (after.takeWhile fun s => t.level < s.level).filter fun s =>
    s.level.toNat = t.level.toNat + 1

end ArgRow

/-- Rows are those of trees, in preorder. -/
structure WellLevelled (rows : List ArgRow) : Prop where
  directions : ∀ r ∈ rows, upper (trim r.inOut) ∈ Direction.spellings
  first : ∀ r ∈ rows.head?, r.level = 0
  levels : rows.IsChain ArgRow.Precedes
  /-- A table has no second element. -/
  elements : ∀ t after, t :: after <:+ rows → t.form = .table → (t.partRows after).length ≤ 1
  /-- There is no second return value. -/
  returns : rows.countP ArgRow.isReturn ≤ 1

instance (prev r : ArgRow) : Decidable (prev.Precedes r) :=
  inferInstanceAs (Decidable (r.level = 0 ∨ r.level ≤ prev.level ∨
    prev.form ≠ .simple ∧ r.level.toNat = prev.level.toNat + 1))

theorem wellLevelled_iff {rows : List ArgRow} : WellLevelled rows ↔
    (∀ r ∈ rows, upper (trim r.inOut) ∈ Direction.spellings) ∧ (∀ r ∈ rows.head?, r.level = 0) ∧
      rows.IsChain ArgRow.Precedes ∧
      (∀ l ∈ rows.tails, ∀ t ∈ l.head?, t.form = .table → (t.partRows l.tail).length ≤ 1) ∧
      rows.countP ArgRow.isReturn ≤ 1 := by
  constructor
  · refine fun h => ⟨h.directions, h.first, h.levels, fun l hl t ht => ?_, h.returns⟩
    obtain ⟨after, rfl⟩ := List.head?_eq_some_iff.mp ht
    exact h.elements t after ((List.mem_tails _ _).mp hl)
  · rintro ⟨hdirections, hfirst, hlevels, helements, hreturns⟩
    exact ⟨hdirections, hfirst, hlevels, fun t after hs =>
      helements (t :: after) ((List.mem_tails _ _).mpr hs) t rfl, hreturns⟩

instance (rows : List ArgRow) : Decidable (WellLevelled rows) :=
  decidable_of_iff _ wellLevelled_iff.symm

/-! ## One more row -/

/-- How deep a row after others may be. -/
def depthAfter (rows : List ArgRow) : Nat :=
  match rows.getLast? with
  | none => 0
  | some prev => prev.level.toNat + if prev.form = .simple then 0 else 1

/-- All rows after a row are below it. -/
structure Encloses (rows : List ArgRow) (t : ArgRow) (after : List ArgRow) : Prop where
  suffix : t :: after <:+ rows
  below : ∀ s ∈ after, t.level < s.level

/-- What rows that are well-levelled ask of one more row. -/
structure Admissible (rows : List ArgRow) (r : ArgRow) : Prop where
  direction : upper (trim r.inOut) ∈ Direction.spellings
  level : r.level.toNat ≤ depthAfter rows
  /-- A table that the row is a part of has no part yet. -/
  element : ∀ t after, Encloses rows t after → t.form = .table →
    r.level.toNat = t.level.toNat + 1 → after = []
  /-- There is no return value yet, if the row is one. -/
  single : r.isReturn = true → ∀ s ∈ rows, s.isReturn = false

theorem wellLevelled_nil : WellLevelled [] := by decide

section Rows

variable {rows : List ArgRow} {r t t' : ArgRow} {after after' : List ArgRow}

/-- At each level, one row at most has all later rows below it. -/
theorem Encloses.unique (h : Encloses rows t after) (h' : Encloses rows t' after')
    (hl : t.level = t'.level) : t = t' ∧ after = after' := by
  -- Of two such rows at one level, the later would be below the earlier.
  have key : ∀ {u u' : ArgRow} {bs bs' : List ArgRow}, u.level = u'.level →
      (∀ s ∈ bs', u'.level < s.level) → u :: bs <:+ u' :: bs' → u = u' ∧ bs = bs' := by
    intro u u' bs bs' hu hbelow hsuffix
    rcases List.suffix_cons_iff.mp hsuffix with heq | hinner
    · exact List.cons.inj heq
    · have hlt := hbelow u (hinner.subset List.mem_cons_self)
      rw [hu] at hlt
      exact absurd hlt (UInt8.lt_irrefl _)
  rcases List.suffix_or_suffix_of_suffix h.suffix h'.suffix with hs | hs
  · exact key hl h'.below hs
  · obtain ⟨rfl, rfl⟩ := key hl.symm h.below hs
    exact ⟨rfl, rfl⟩

theorem Encloses.concat (h : Encloses rows t after) (hr : t.level < r.level) :
    Encloses (rows ++ [r]) t (after ++ [r]) := by
  refine ⟨?_, ?_⟩
  · obtain ⟨before, hbefore⟩ := h.suffix
    exact ⟨before, by rw [← hbefore, List.append_assoc, List.cons_append]⟩
  · rw [List.forall_mem_append, List.forall_mem_singleton]
    exact ⟨h.below, hr⟩

theorem encloses_last (rows : List ArgRow) (r : ArgRow) : Encloses (rows ++ [r]) r [] :=
  ⟨List.suffix_append rows [r], fun _ hs => absurd hs List.not_mem_nil⟩

/-- The rows of parts are the rows one level down, if all rows that follow are below. -/
theorem partRows_of_below (h : ∀ s ∈ after, t.level < s.level) :
    t.partRows after = after.filter fun s => s.level.toNat = t.level.toNat + 1 := by
  have htake : after.takeWhile (fun s => t.level < s.level) = after :=
    List.takeWhile_eq_self_iff.mpr fun s hs => decide_eq_true (h s hs)
  rw [ArgRow.partRows, htake]

/-- Once a row has come back up, later rows are no parts. -/
theorem partRows_append_of_not_below (h : ¬ ∀ s ∈ after, t.level < s.level)
    (more : List ArgRow) : t.partRows (after ++ more) = t.partRows after := by
  have hstop : (after.takeWhile fun s => t.level < s.level).length ≠ after.length := by
    intro hlen
    have heq : after.takeWhile (fun s => t.level < s.level) = after :=
      (List.takeWhile_prefix _).eq_of_length hlen
    exact h fun s hs => of_decide_eq_true (List.takeWhile_eq_self_iff.mp heq s hs)
  rw [ArgRow.partRows, List.takeWhile_append, if_neg hstop, ArgRow.partRows]

/-- Until then, a row one level down is that of one more part. -/
theorem partRows_concat_of_below (h : ∀ s ∈ after, t.level < s.level) (r : ArgRow) :
    t.partRows (after ++ [r]) =
      t.partRows after ++ if r.level.toNat = t.level.toNat + 1 then [r] else [] := by
  by_cases hr : t.level < r.level
  · have hall : ∀ s ∈ after ++ [r], t.level < s.level := by
      rw [List.forall_mem_append, List.forall_mem_singleton]
      exact ⟨h, hr⟩
    rw [partRows_of_below hall, partRows_of_below h, List.filter_append, List.filter_cons,
      List.filter_nil]
    simp only [decide_eq_true_eq]
  · have hne : r.level.toNat ≠ t.level.toNat + 1 := by
      rw [UInt8.lt_iff_toNat_lt] at hr
      omega
    rw [if_neg hne, List.append_nil, ArgRow.partRows,
      List.takeWhile_append_of_pos fun s hs => decide_eq_true (h s hs), List.takeWhile_cons,
      if_neg (by simpa using hr), List.append_nil, partRows_of_below h]

/-- The first row below another is that of a part. -/
theorem partRows_ne_nil (hlevels : rows.IsChain ArgRow.Precedes) (h : Encloses rows t after)
    (hne : after ≠ []) : t.partRows after ≠ [] := by
  obtain ⟨s, rest, rfl⟩ := List.exists_cons_of_ne_nil hne
  have hlt : t.level < s.level := h.below s List.mem_cons_self
  obtain ⟨before, hbefore⟩ := h.suffix
  rw [← hbefore] at hlevels
  have hprec : ArgRow.Precedes t s :=
    (List.isChain_cons_cons.mp (List.isChain_split.mp hlevels).2).1
  have hlevel : s.level.toNat = t.level.toNat + 1 := by
    rw [UInt8.lt_iff_toNat_lt] at hlt
    rcases hprec with hzero | hle | hdown
    · rw [hzero] at hlt
      exact absurd hlt (Nat.not_lt_zero _)
    · rw [UInt8.le_iff_toNat_le] at hle
      omega
    · exact hdown.2
  rw [partRows_of_below h.below]
  exact List.ne_nil_of_mem (List.mem_filter.mpr ⟨List.mem_cons_self, decide_eq_true hlevel⟩)

theorem precedes_iff {prev r : ArgRow} : prev.Precedes r ↔
    r.level.toNat ≤ prev.level.toNat + if prev.form = .simple then 0 else 1 := by
  have hzero : r.level = 0 ↔ r.level.toNat = 0 := UInt8.toNat_inj.symm
  unfold ArgRow.Precedes
  rw [hzero, UInt8.le_iff_toNat_le]
  split
  · simp only [*, ne_eq, not_true_eq_false, false_and, or_false]
    omega
  · simp only [*, ne_eq, not_false_eq_true, true_and]
    omega

/-- The levels of rows and of one more row. -/
theorem levels_concat_iff :
    ((∀ s ∈ (rows ++ [r]).head?, s.level = 0) ∧ (rows ++ [r]).IsChain ArgRow.Precedes) ↔
      ((∀ s ∈ rows.head?, s.level = 0) ∧ rows.IsChain ArgRow.Precedes) ∧
        r.level.toNat ≤ depthAfter rows := by
  rcases List.eq_nil_or_concat' rows with rfl | ⟨before, prev, rfl⟩
  · have hzero : r.level = 0 ↔ r.level.toNat ≤ 0 := by
      rw [Nat.le_zero]
      exact UInt8.toNat_inj.symm
    simp [depthAfter, hzero]
  · have hhead : (before ++ [prev] ++ [r]).head? = (before ++ [prev]).head? := by
      cases before <;> rfl
    rw [hhead, List.isChain_append, depthAfter, List.getLast?_concat]
    simp only [List.isChain_singleton, List.head?_cons, Option.mem_some_iff, forall_eq', true_and,
      precedes_iff]
    exact and_assoc.symm

/-- The elements of tables among rows and one more row. -/
theorem elements_concat_iff (hlevels : rows.IsChain ArgRow.Precedes) :
    (∀ t after, t :: after <:+ rows ++ [r] → t.form = .table → (t.partRows after).length ≤ 1) ↔
      (∀ t after, t :: after <:+ rows → t.form = .table → (t.partRows after).length ≤ 1) ∧
        ∀ t after, Encloses rows t after → t.form = .table →
          r.level.toNat = t.level.toNat + 1 → after = [] := by
  have hextend : ∀ {t after}, t :: after <:+ rows → t :: (after ++ [r]) <:+ rows ++ [r] := by
    rintro t after ⟨before, hbefore⟩
    exact ⟨before, by rw [← hbefore, List.append_assoc, List.cons_append]⟩
  constructor
  · intro h
    refine ⟨fun t after hs ht => ?_, fun t after he ht hr => ?_⟩
    · have hall := h t _ (hextend hs) ht
      by_cases hbelow : ∀ s ∈ after, t.level < s.level
      · rw [partRows_concat_of_below hbelow, List.length_append] at hall
        omega
      · rwa [partRows_append_of_not_below hbelow] at hall
    · -- A row after the table is that of a part, and so is the new one.
      by_contra hne
      have hall := h t _ (hextend he.suffix) ht
      rw [partRows_concat_of_below he.below, if_pos hr, List.length_append, List.length_singleton]
        at hall
      have hpos := List.length_pos_of_ne_nil (partRows_ne_nil hlevels he hne)
      omega
  · rintro ⟨hold, hnew⟩ t after hs ht
    rcases List.suffix_concat_iff.mp hs with hnil | ⟨_ | ⟨t₀, rest⟩, heq, hsuffix⟩
    · cases hnil
    · obtain ⟨-, rfl⟩ := List.cons.inj heq
      exact Nat.zero_le 1
    · rw [List.cons_append] at heq
      obtain ⟨rfl, rfl⟩ := List.cons.inj heq
      by_cases hbelow : ∀ s ∈ rest, t.level < s.level
      · rw [partRows_concat_of_below hbelow]
        by_cases hr : r.level.toNat = t.level.toNat + 1
        · obtain rfl := hnew t rest ⟨hsuffix, hbelow⟩ ht hr
          rw [if_pos hr]
          exact Nat.le_refl 1
        · rw [if_neg hr, List.append_nil]
          exact hold t rest hsuffix ht
      · rw [partRows_append_of_not_below hbelow]
        exact hold t rest hsuffix ht

/-- The return values among rows and one more row. -/
theorem returns_concat_iff : (rows ++ [r]).countP ArgRow.isReturn ≤ 1 ↔
    rows.countP ArgRow.isReturn ≤ 1 ∧ (r.isReturn = true → ∀ s ∈ rows, s.isReturn = false) := by
  have hnone : (∀ s ∈ rows, s.isReturn = false) ↔ rows.countP ArgRow.isReturn = 0 := by
    simp [List.countP_eq_zero]
  rw [List.countP_append, List.countP_singleton, hnone]
  cases r.isReturn
  · simp
  · simp only [if_true, true_imp_iff]
    omega

/-- **Rows and one more row are well-levelled** exactly if that row is admissible after them. -/
theorem wellLevelled_concat :
    WellLevelled (rows ++ [r]) ↔ WellLevelled rows ∧ Admissible rows r := by
  constructor
  · rintro ⟨hdirections, hfirst, hlevels, helements, hreturns⟩
    rw [List.forall_mem_append, List.forall_mem_singleton] at hdirections
    obtain ⟨⟨hfirst₀, hlevels₀⟩, hlevel⟩ := levels_concat_iff.mp ⟨hfirst, hlevels⟩
    obtain ⟨helements₀, helement⟩ := (elements_concat_iff hlevels₀).mp helements
    obtain ⟨hreturns₀, hsingle⟩ := returns_concat_iff.mp hreturns
    exact ⟨⟨hdirections.1, hfirst₀, hlevels₀, helements₀, hreturns₀⟩,
      ⟨hdirections.2, hlevel, helement, hsingle⟩⟩
  · rintro ⟨h, hr⟩
    obtain ⟨hfirst, hlevels⟩ := levels_concat_iff.mpr ⟨⟨h.first, h.levels⟩, hr.level⟩
    refine ⟨?_, hfirst, hlevels, (elements_concat_iff h.levels).mpr ⟨h.elements, hr.element⟩,
      returns_concat_iff.mpr ⟨h.returns, hr.single⟩⟩
    rw [List.forall_mem_append, List.forall_mem_singleton]
    exact ⟨h.directions, hr.direction⟩

end Rows

/-! ## What is open -/

namespace Draft

variable {d : Draft} {a : Argument} {rows : List ArgRow} {r : ArgRow} {label : String}

/-- The open composites, the innermost first, each with whether it has a part: those around another
have that one. -/
def spine (d : Draft) : List (Argument × Bool) :=
  match d.opened with
  | [] => []
  | f :: rest => (f.head, !f.parts.isEmpty) :: rest.map fun g => (g.head, true)

/-- Whether there is a return value, finished or open. -/
def hasReturn (d : Draft) : Bool := d.returns.isSome || d.inReturn

theorem map_fst_spine (d : Draft) : d.spine.map Prod.fst = d.heads := by
  obtain ⟨args, returns, _ | ⟨f, rest⟩⟩ := d
  · rfl
  · simp [spine, heads]

/-- Placing an argument gives the innermost composite a part. -/
theorem spine_place (d : Draft) (a : Argument) :
    (d.place a).spine = d.heads.map fun b => (b, true) := by
  obtain ⟨args, returns, _ | ⟨f, rest⟩⟩ := d
  · simp only [place]
    split <;> rfl
  · simp [place, spine, heads]

theorem spine_push (d : Draft) (a : Argument) :
    (d.push { head := a }).spine = (a, false) :: d.heads.map fun b => (b, true) := by
  simp [push, spine, heads]

theorem takes_or_hasReturn (d : Draft) (a : Argument) :
    (d.hasReturn || d.takes a) = (d.returns.isSome || d.takes a) := by
  obtain ⟨args, returns, _ | ⟨f, rest⟩⟩ := d
  · simp [hasReturn, inReturn, heads]
  · simp [hasReturn, takes]

/-- An argument that comes next may be the return value, or a part of it. -/
theorem hasReturn_place (d : Draft) (a : Argument) :
    (d.place a).hasReturn = (d.hasReturn || d.takes a) := by
  rw [takes_or_hasReturn, hasReturn, inReturn_place]
  obtain ⟨args, returns, _ | ⟨f, rest⟩⟩ := d
  · by_cases ha : a.name = "" <;> simp [place, takes, inReturn, heads, ha]
  · rfl

theorem hasReturn_push (d : Draft) (a : Argument) :
    (d.push { head := a }).hasReturn = (d.hasReturn || d.takes a) := by
  rw [takes_or_hasReturn, hasReturn, inReturn_push]
  rfl

/-- Closing composites leaves those around them as they are, as far as rows can tell. -/
theorem closeMany_spine (d : Draft) (n : Nat) : (closeMany n d).spine = d.spine.drop n ∧
    (closeMany n d).hasReturn = d.hasReturn := by
  induction n generalizing d with
  | zero => exact ⟨rfl, rfl⟩
  | succ n ih =>
    obtain ⟨hspine, hreturn⟩ := ih d.close
    obtain ⟨args, returns, _ | ⟨f, rest⟩⟩ := d
    · exact ⟨hspine.trans (by simp [close, spine]), hreturn⟩
    · have hclose : close ⟨args, returns, f :: rest⟩ = place ⟨args, returns, rest⟩ f.close := rfl
      refine ⟨?_, ?_⟩
      · rw [closeMany, hspine, hclose, spine_place]
        simp [spine, heads, Function.comp_def]
      · rw [closeMany, hreturn, hclose, hasReturn_place, takes_or_hasReturn]
        have hin := inReturn_push ⟨args, returns, rest⟩ f
        rw [hasReturn]
        exact congrArg (returns.isSome || ·) hin.symm

/-- What is open in a draft is read off the rows so far. -/
structure Tracks (rows : List ArgRow) (d : Draft) : Prop where
  tidy : d.Tidy
  depth : d.opened.length = depthAfter rows
  /-- An open composite stands for the row at its level after which all rows are below, and has a
  part if there are any. -/
  spine : ∀ a used outer, (a, used) :: outer <:+ d.spine → ∃ t after, Encloses rows t after ∧
    t.level.toNat = outer.length ∧ a.flavor = t.form ∧ (used = true ↔ after ≠ [])
  returned : d.hasReturn = true ↔ ∃ s ∈ rows, s.isReturn = true

theorem tracks_nil : Tracks [] {} where
  tidy := ⟨by simp, by simp, by simp⟩
  depth := rfl
  spine a used outer h := by
    have hnil : (a, used) :: outer <:+ ([] : List (Argument × Bool)) := h
    simp at hnil
  returned := by simp [hasReturn, inReturn, heads]

/-! ## Taking rows -/

theorem length_closeTo (hlevel : r.level.toNat ≤ d.opened.length) (ht : d.Tidy) :
    (d.closeTo r.level.toNat).opened.length = r.level.toNat := by
  rw [length_opened, (closeTo_spec ht r.level.toNat).2.1, List.length_drop, ← length_opened]
  omega

/-- Where something is open, only a second element of a table is not admitted. -/
theorem admits_iff_of_opened {f : Frame} {rest : List Frame} (h : d.opened = f :: rest) :
    d.admits label a = .ok () ↔ (f.head.flavor = .table → f.parts = []) := by
  obtain ⟨args, returns, opened⟩ := d
  subst h
  obtain ⟨⟨name, position, direction, shape⟩, parts⟩ := f
  rcases shape with _ | _ | _ <;> rcases parts with _ | ⟨part, parts⟩ <;>
    simp [admits, Argument.flavor, Shape.flavor]

theorem admits_iff_of_nil (h : d.opened = []) :
    d.admits label a = .ok () ↔ ¬ (a.name = "" ∧ d.returns.isSome = true) := by
  rw [admits, h]
  by_cases hc : a.name = "" ∧ d.returns.isSome = true <;> simp [hc]

theorem inconsistent_of_not_admits (h : d.admits label a ≠ .ok ()) :
    ∃ reason, d.admits label a = .error (.inconsistent reason) := by
  unfold admits at h ⊢
  split
  · split
    · exact ⟨_, rfl⟩
    · simp_all
  · split
    · exact ⟨_, rfl⟩
    · simp_all

/-- At the top, a row is admitted exactly if it is no second return value. -/
theorem Tracks.admits_iff_of_nil (h : Tracks rows d) (hzero : r.level = 0)
    (hname : a.name = r.argument) (hopened : (d.closeTo r.level.toNat).opened = []) :
    (d.closeTo r.level.toNat).admits label a = .ok () ↔
      (r.isReturn = true → ∀ s ∈ rows, s.isReturn = false) := by
  have hreturn : (d.closeTo r.level.toNat).hasReturn = d.hasReturn := (closeMany_spine d _).2
  have hinner : (d.closeTo r.level.toNat).inReturn = false := by simp [inReturn, heads, hopened]
  have hsome : (d.closeTo r.level.toNat).returns.isSome = d.hasReturn := by
    rw [← hreturn, hasReturn, hinner, Bool.or_false]
  have hreturned : r.isReturn = true ↔ a.name = "" := by simp [ArgRow.isReturn, hzero, hname]
  rw [Draft.admits_iff_of_nil hopened, hsome, h.returned, hreturned]
  simp only [not_and, not_exists, Bool.not_eq_true]

/-- Inside a composite, a row is admitted exactly if it is no second element. -/
theorem Tracks.admits_iff_of_opened {f : Frame} {rest : List Frame} (h : Tracks rows d)
    (hlevel : r.level.toNat = rest.length + 1)
    (hopened : (d.closeTo r.level.toNat).opened = f :: rest) :
    (d.closeTo r.level.toNat).admits label a = .ok () ↔
      ∀ t after, Encloses rows t after → t.form = .table →
        r.level.toNat = t.level.toNat + 1 → after = [] := by
  have hspine : (d.closeTo r.level.toNat).spine = d.spine.drop _ := (closeMany_spine d _).1
  have htop : (d.closeTo r.level.toNat).spine =
      (f.head, !f.parts.isEmpty) :: rest.map fun g => (g.head, true) := by
    rw [Draft.spine, hopened]
  obtain ⟨t, after, henc, hlev, hform, hused⟩ := h.spine f.head (!f.parts.isEmpty) _
    (htop ▸ hspine ▸ List.drop_suffix _ _)
  rw [List.length_map] at hlev
  have hparts : f.parts = [] ↔ after = [] := by
    rw [← not_iff_not, ← ne_eq after, ← hused]
    simp
  rw [Draft.admits_iff_of_opened hopened, hform, hparts]
  constructor
  · intro hfree t' after' henc' ht' hr
    have hsame : t.level = t'.level := UInt8.toNat_inj.mp (by omega)
    obtain ⟨rfl, rfl⟩ := henc.unique henc' hsame
    exact hfree ht'
  · exact fun hall ht => hall t after henc ht (by omega)

/-- After what ends before a row is closed, the row is admitted exactly if it is no second element
and no second return value. -/
theorem Tracks.admits_iff (h : Tracks rows d) (hlevel : r.level.toNat ≤ d.opened.length)
    (hname : a.name = r.argument) : (d.closeTo r.level.toNat).admits label a = .ok () ↔
      (∀ t after, Encloses rows t after → t.form = .table →
        r.level.toNat = t.level.toNat + 1 → after = []) ∧
      (r.isReturn = true → ∀ s ∈ rows, s.isReturn = false) := by
  have hlength := length_closeTo hlevel h.tidy
  cases hopened : (d.closeTo r.level.toNat).opened with
  | nil =>
    rw [hopened, List.length_nil] at hlength
    rw [h.admits_iff_of_nil (UInt8.toNat_inj.mp hlength.symm) hname hopened]
    exact (and_iff_right fun t after _ _ hr => by omega).symm
  | cons f rest =>
    rw [hopened, List.length_cons] at hlength
    rw [h.admits_iff_of_opened hlength.symm hopened]
    refine (and_iff_left fun hreturn => ?_).symm
    rw [ArgRow.level_of_isReturn hreturn] at hlength
    exact absurd hlength (Nat.succ_ne_zero _)

/-- A row that is not too deep: its argument is made, admitted and put where it belongs. -/
theorem add_eq (hp : r.isPlaceholder = false) (hlevel : r.level.toNat ≤ d.opened.length) :
    d.add label r = r.toArgument >>= fun a =>
      (d.closeTo r.level.toNat).admits label a >>= fun _ =>
        .ok (if a.flavor = .simple then (d.closeTo r.level.toNat).place a
          else (d.closeTo r.level.toNat).push { head := a }) := by
  unfold add
  rw [hp, if_neg (by simp), if_neg (Nat.not_lt.mpr hlevel)]
  refine bind_congr fun a => bind_congr fun _ => ?_
  split <;> rfl

theorem toArgument_of_direction {direction : Direction}
    (h : Direction.parse r.inOut = .ok direction) : r.toArgument =
      .ok { name := r.argument, position := r.position, direction, shape := r.shape } := by
  simp only [ArgRow.toArgument, ArgRow.direction, h]
  rfl

/-- The composites that stay open when a row comes enclose that row as well. -/
theorem Tracks.encloses_concat (h : Tracks rows d) (hlevel : r.level.toNat ≤ d.opened.length)
    {b : Argument} {used : Bool} {outer : List (Argument × Bool)} (hsuffix : (b, used) :: outer <:+
      ((d.closeTo r.level.toNat).heads.map fun b => (b, true))) :
    ∃ t after, Encloses (rows ++ [r]) t after ∧ t.level.toNat = outer.length ∧
      b.flavor = t.form ∧ (used = true ↔ after ≠ []) := by
  obtain ⟨l, hl, heq⟩ := List.suffix_map_iff.mp hsuffix
  obtain ⟨b', inner, rfl⟩ : ∃ b' inner, l = b' :: inner :=
    List.exists_cons_of_ne_nil fun hnil => by simp [hnil] at heq
  rw [List.map_cons, List.cons.injEq, Prod.mk.injEq] at heq
  obtain ⟨⟨rfl, rfl⟩, rfl⟩ := heq
  have hheads : (d.closeTo r.level.toNat).heads <:+ d.heads := by
    rw [(closeTo_spec h.tidy r.level.toNat).2.1]
    exact List.drop_suffix _ _
  obtain ⟨l', hl', heq'⟩ := List.suffix_map_iff.mp (map_fst_spine d ▸ hl.trans hheads)
  obtain ⟨⟨b', used⟩, outer, rfl⟩ : ∃ x outer, l' = x :: outer :=
    List.exists_cons_of_ne_nil fun hnil => by simp [hnil] at heq'
  rw [List.map_cons, List.cons.injEq] at heq'
  obtain ⟨rfl, rfl⟩ := heq'
  obtain ⟨t, after, henc, hlev, hform, -⟩ := h.spine b used outer hl'
  have hlt : t.level < r.level := by
    have hle := hl.length_le
    rw [List.length_cons, List.length_map, ← length_opened, length_closeTo hlevel h.tidy] at hle
    rw [UInt8.lt_iff_toNat_lt]
    omega
  refine ⟨t, after ++ [r], henc.concat hlt, ?_, hform, by simp⟩
  rw [hlev, List.length_map, List.length_map]

/-- A row is or starts a return value only at the top. -/
theorem Tracks.returned_concat (h : Tracks rows d) (r : ArgRow) :
    (d.hasReturn || d.rowSide r) = true ↔ ∃ s ∈ rows ++ [r], s.isReturn = true := by
  have hsplit : (∃ s ∈ rows ++ [r], s.isReturn = true) ↔
      (∃ s ∈ rows, s.isReturn = true) ∨ r.isReturn = true := by
    simp [or_and_right, exists_or]
  rw [hsplit, ← h.returned]
  by_cases hl : r.level = 0
  · simp [rowSide, hl]
  · simp [rowSide, hl, ArgRow.isReturn, hasReturn]

/-- **A row that is admissible is taken.** -/
theorem tracks_add (h : Tracks rows d) (hp : r.isPlaceholder = false) (hr : Admissible rows r) :
    ∃ d', d.add label r = .ok d' ∧ Tracks (rows ++ [r]) d' := by
  have hlevel : r.level.toNat ≤ d.opened.length := h.depth ▸ hr.level
  obtain ⟨direction, hdirection⟩ := Direction.exists_parse_iff.mpr hr.direction
  obtain ⟨a, ha⟩ : ∃ a, r.toArgument = .ok a := ⟨_, toArgument_of_direction hdirection⟩
  obtain ⟨hname, hlists⟩ := ArgRow.lists_of_toArgument ha
  have hform : a.flavor = r.form := hlists.flavor
  have hadmits : (d.closeTo r.level.toNat).admits label a = .ok () :=
    (h.admits_iff hlevel hname).mpr ⟨hr.element, hr.single⟩
  have hadd : d.add label r = .ok (if a.flavor = .simple then (d.closeTo r.level.toNat).place a
      else (d.closeTo r.level.toNat).push { head := a }) := by
    rw [add_eq hp hlevel]
    exact except_bind_eq_ok.mpr ⟨a, ha, except_bind_eq_ok.mpr ⟨(), hadmits, rfl⟩⟩
  have hlength := length_closeTo hlevel h.tidy
  obtain ⟨-, htakes⟩ := takes_closeTo h.tidy hlevel hname
  have hreturn : (d.closeTo r.level.toNat).hasReturn = d.hasReturn := (closeMany_spine d _).2
  refine ⟨_, hadd, (lists_of_add h.tidy hp hadd).1, ?_, ?_, ?_⟩
  · rw [depthAfter, List.getLast?_concat]
    simp only [← hform]
    split
    · rw [length_opened, heads_place, ← length_opened, hlength]
      rfl
    · exact congrArg (· + 1) hlength
  · intro b used outer hsuffix
    split at hsuffix
    · rw [spine_place] at hsuffix
      exact h.encloses_concat hlevel hsuffix
    · rw [spine_push] at hsuffix
      rcases List.suffix_cons_iff.mp hsuffix with heq | hsuffix
      · rw [List.cons.injEq, Prod.mk.injEq] at heq
        obtain ⟨⟨rfl, rfl⟩, rfl⟩ := heq
        refine ⟨r, [], encloses_last rows r, ?_, hform, by simp⟩
        rw [List.length_map, ← length_opened, hlength]
      · exact h.encloses_concat hlevel hsuffix
  · rw [← h.returned_concat, ← htakes, ← hreturn]
    split
    · rw [hasReturn_place]
    · rw [hasReturn_push]

/-- **A row that is not admissible is refused**, as inconsistent. -/
theorem error_of_not_admissible (h : Tracks rows d) (hp : r.isPlaceholder = false)
    (hr : ¬ Admissible rows r) : ∃ reason, d.add label r = .error (.inconsistent reason) := by
  by_cases hlevel : r.level.toNat ≤ d.opened.length
  · rw [add_eq hp hlevel]
    cases hdirection : Direction.parse r.inOut with
    | error e =>
      simp only [ArgRow.toArgument, ArgRow.direction, hdirection]
      exact ⟨_, rfl⟩
    | ok direction =>
      have ha := toArgument_of_direction hdirection
      obtain ⟨hname, -⟩ := ArgRow.lists_of_toArgument ha
      obtain ⟨reason, hreason⟩ : ∃ reason, (d.closeTo r.level.toNat).admits label _ =
          .error (.inconsistent reason) :=
        inconsistent_of_not_admits <| mt (h.admits_iff hlevel hname).mp fun ⟨helement, hsingle⟩ =>
          hr ⟨Direction.exists_parse_iff.mp ⟨direction, hdirection⟩, h.depth ▸ hlevel, helement,
            hsingle⟩
      exact ⟨reason, except_bind_eq_error.mpr
        (.inr ⟨_, ha, except_bind_eq_error.mpr (.inl hreason)⟩)⟩
  · unfold add
    rw [hp, if_neg (by simp), if_pos (Nat.lt_of_not_le hlevel)]
    exact ⟨_, rfl⟩

/-- **Rows are taken exactly if they are well-levelled**, and refused as inconsistent if not. -/
theorem addAll_spec (label : String) (rows : List ArgRow)
    (hp : ∀ r ∈ rows, r.isPlaceholder = false) :
    (WellLevelled rows → ∃ d, addAll label {} rows = .ok d ∧ Tracks rows d) ∧
      (¬ WellLevelled rows → ∃ reason, addAll label {} rows = .error (.inconsistent reason)) := by
  induction rows using List.reverseRecOn with
  | nil => exact ⟨fun _ => ⟨{}, rfl, tracks_nil⟩, fun h => absurd wellLevelled_nil h⟩
  | append_singleton rows r ih =>
    rw [List.forall_mem_append, List.forall_mem_singleton] at hp
    obtain ⟨htaken, hrefused⟩ := ih hp.1
    have hrun : addAll label {} (rows ++ [r]) =
        addAll label {} rows >>= fun d => d.add label r := by
      simp [addAll, List.foldlM_append]
    rw [wellLevelled_concat, hrun]
    constructor
    · rintro ⟨hrows, hr⟩
      obtain ⟨d, hd, htracks⟩ := htaken hrows
      obtain ⟨d', hd', htracks'⟩ := tracks_add htracks hp.2 hr
      exact ⟨d', except_bind_eq_ok.mpr ⟨d, hd, hd'⟩, htracks'⟩
    · intro hno
      by_cases hrows : WellLevelled rows
      · obtain ⟨d, hd, htracks⟩ := htaken hrows
        obtain ⟨reason, hreason⟩ := error_of_not_admissible htracks hp.2 fun hr => hno ⟨hrows, hr⟩
        exact ⟨reason, except_bind_eq_error.mpr (.inr ⟨d, hd, hreason⟩)⟩
      · obtain ⟨reason, hreason⟩ := hrefused hrows
        exact ⟨reason, except_bind_eq_error.mpr (.inl hreason)⟩

/-- Placeholders leave a draft as it is. -/
theorem addAll_shownRows (label : String) (d : Draft) (rows : List ArgRow) :
    addAll label d (shownRows rows) = addAll label d rows := by
  induction rows generalizing d with
  | nil => rfl
  | cons r rows ih =>
    cases hp : r.isPlaceholder with
    | true =>
      have hadd : d.add label r = .ok d := if_pos hp
      have hshown : shownRows (r :: rows) = shownRows rows := by simp [shownRows, hp]
      rw [hshown, ih, addAll, addAll, List.foldlM_cons, hadd]
      rfl
    | false =>
      have hshown : shownRows (r :: rows) = r :: shownRows rows := by simp [shownRows, hp]
      rw [hshown, addAll, addAll, List.foldlM_cons, List.foldlM_cons]
      exact bind_congr fun d' => ih d'

end Draft

/-! ## Subprograms -/

namespace Subprogram

/-- A subprogram is built exactly of rows that are well-levelled but for placeholders. -/
theorem ofRows_spec (key : Key) (rows : List ArgRow) :
    (WellLevelled (shownRows rows) → ∃ f, ofRows key rows = .ok f) ∧
      (¬ WellLevelled (shownRows rows) →
        ∃ reason, ofRows key rows = .error (.inconsistent reason)) := by
  obtain ⟨package, name, overload⟩ := key
  have hshown : ∀ r ∈ shownRows rows, r.isPlaceholder = false := by simp [shownRows]
  obtain ⟨htaken, hrefused⟩ := Draft.addAll_spec (package ++ "." ++ name) _ hshown
  rw [Draft.addAll_shownRows] at htaken hrefused
  refine ⟨fun h => ?_, fun h => ?_⟩
  · obtain ⟨d, hd, -⟩ := htaken h
    exact ⟨_, except_bind_eq_ok.mpr ⟨d, hd, rfl⟩⟩
  · obtain ⟨reason, hreason⟩ := hrefused h
    exact ⟨reason, except_bind_eq_error.mpr (.inl hreason)⟩

/-- **Rows of one subprogram are accepted exactly if they are well-levelled.** In the order to build
from, and without placeholders, they are those of trees in preorder; all others are refused as
inconsistent. -/
theorem allOfRows_iff_wellLevelled {wanted : Selection} {rows : List ArgRow} {key : Key}
    (hkey : ∀ r ∈ rows, r.key = key)
    (hwanted : ∀ r ∈ rows, r.isHidden = false ∧ wanted.accepts r.package r.object = true) :
    ((∃ fs, allOfRows wanted rows = .ok fs) ↔ WellLevelled (shownRows (inSequence rows))) ∧
      (¬ WellLevelled (shownRows (inSequence rows)) →
        ∃ reason, allOfRows wanted rows = .error (.inconsistent reason)) := by
  suffices hspec : (WellLevelled (shownRows (inSequence rows)) →
      ∃ fs, allOfRows wanted rows = .ok fs) ∧ (¬ WellLevelled (shownRows (inSequence rows)) →
        ∃ reason, allOfRows wanted rows = .error (.inconsistent reason)) by
    refine ⟨⟨fun hok => ?_, hspec.1⟩, hspec.2⟩
    by_contra hno
    obtain ⟨fs, hfs⟩ := hok
    obtain ⟨reason, hreason⟩ := hspec.2 hno
    rw [hfs] at hreason
    cases hreason
  rcases eq_or_ne rows [] with rfl | hne
  · have hnil : shownRows (inSequence []) = [] := by simp [shownRows, inSequence]
    rw [hnil]
    exact ⟨fun _ => ⟨[], rfl⟩, fun hno => absurd wellLevelled_nil hno⟩
  · obtain ⟨htaken, hrefused⟩ := ofRows_spec key (inSequence rows)
    rw [allOfRows, groups_of_nonempty hne hkey hwanted, List.mapM_cons, List.mapM_nil]
    refine ⟨fun h => ?_, fun h => ?_⟩
    · obtain ⟨f, hf⟩ := htaken h
      exact ⟨[f], except_bind_eq_ok.mpr ⟨f, hf, rfl⟩⟩
    · obtain ⟨reason, hreason⟩ := hrefused h
      exact ⟨reason, except_bind_eq_error.mpr (.inl hreason)⟩

/-- A function whose rows come back up by two levels, open a second record where one was closed,
and have a placeholder in between. -/
def orderRows : List ArgRow :=
  let row (level : UInt8) (argument inOut dataType : String) : ArgRow :=
    { package := "SALES", object := "ORDER_OF", level, argument, inOut, dataType }
  [row 0 "" "out" "TABLE", row 1 "" "OUT" "PL/SQL RECORD", row 2 "BUYER" "OUT" "PL/SQL RECORD",
    row 3 "NAME" "OUT" "VARCHAR2", row 3 "CITY" " out " "VARCHAR2", row 0 "" "" " ",
    row 2 "SELLER" "OUT" "PL/SQL RECORD", row 3 "NAME" "OUT" "VARCHAR2", row 0 "P_ID" "" "NUMBER",
    row 0 "P_LINES" "IN OUT" "TABLE", row 1 "" "IN/OUT" "NUMBER"]

/-- The same rows with one more element for the last table. -/
def overfullRows : List ArgRow :=
  let last : ArgRow :=
    { package := "SALES", object := "ORDER_OF", level := 1, argument := "", inOut := "IN",
      dataType := "NUMBER" }
  orderRows ++ [last]

theorem order_accepted : (∀ r ∈ overfullRows, r.key = ("SALES", "ORDER_OF", none)) ∧
    (∀ r ∈ overfullRows, r.isHidden = false ∧ Selection.accepts {} r.package r.object = true) ∧
    WellLevelled (shownRows (inSequence orderRows)) ∧
    (∃ fs, allOfRows {} orderRows = .ok fs) ∧
    ¬ WellLevelled (shownRows (inSequence overfullRows)) ∧
    ∃ reason, allOfRows {} overfullRows = .error (.inconsistent reason) := by
  have hkey : ∀ r ∈ overfullRows, r.key = ("SALES", "ORDER_OF", none) := by decide +kernel
  have hwanted : ∀ r ∈ overfullRows,
      r.isHidden = false ∧ Selection.accepts {} r.package r.object = true := by decide +kernel
  have horder : ∀ r ∈ orderRows, r ∈ overfullRows := fun r hr => List.mem_append_left _ hr
  have hwell : WellLevelled (shownRows (inSequence orderRows)) := by decide +kernel
  have hill : ¬ WellLevelled (shownRows (inSequence overfullRows)) := by decide +kernel
  have haccepted := allOfRows_iff_wellLevelled (fun r hr => hkey r (horder r hr))
    fun r hr => hwanted r (horder r hr)
  exact ⟨hkey, hwanted, hwell, haccepted.1.mpr hwell, hill,
    (allOfRows_iff_wellLevelled hkey hwanted).2 hill⟩

end Subprogram

end StoredCall
