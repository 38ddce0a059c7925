import StoredCall.Proofs.Text.Distinct

/-!
# Names of siblings

Siblings are named from left to right. Each asks for the spelling of its own name; if an earlier one
holds it, the numbers from 2 on are tried until one is free. A number that was given out may be what
a later sibling asks for, so this is decided by what the earlier siblings hold and not by what they
asked for.

* `Allots` and `AllotsAll` are the rules of naming, with a search that has no bound. That they
  lead to an outcome says that every search ends (`allots_iff`, `allotsAll_iff`).
* `FirstFree` says what a name is beside those that are taken: as it was asked for, or with the
  smallest free number, which is not above the count of names by then.
* **`siblings_fields`**: the fields of a list of names, and those of the arguments and the return
  value of a subprogram, are named so and are pairwise different.
-/

namespace StoredCall.Text

/-! ## The search for a free number -/

theorem Search.unique {used : List String} {candidate : Nat → String} {n : Nat} {a b : String}
    (ha : Search used candidate n a) (hb : Search used candidate n b) : a = b := by
  induction ha with
  | found hfree =>
    cases hb with
    | found _ => rfl
    | next htaken _ => exact absurd htaken hfree
  | next htaken _ ih =>
    cases hb with
    | found hfree => exact absurd htaken hfree
    | next _ hb => exact ih hb

/-- The search depends on which names are taken, and not on the order they were taken in. -/
theorem Search.congr {used taken : List String} (hsame : ∀ s, s ∈ used ↔ s ∈ taken)
    {candidate : Nat → String} {n : Nat} {name : String} (h : Search used candidate n name) :
    Search taken candidate n name := by
  induction h with
  | found hfree => exact .found fun hm => hfree ((hsame _).mpr hm)
  | next htaken _ ih => exact .next ((hsame _).mp htaken) ih

/-- The search ends at the smallest number that is free. -/
theorem Search.exists_least {used : List String} {candidate : Nat → String} {n : Nat}
    {name : String} (h : Search used candidate n name) :
    ∃ m, n ≤ m ∧ name = candidate m ∧ ∀ k, n ≤ k → k < m → candidate k ∈ used := by
  induction h with
  | found _ => exact ⟨_, le_rfl, rfl, fun k hle hlt => absurd hlt (Nat.not_lt.mpr hle)⟩
  | @next n name htaken _ ih =>
    obtain ⟨m, hle, hname, hall⟩ := ih
    refine ⟨m, Nat.le_of_succ_le hle, hname, fun k hk hlt => ?_⟩
    rcases Nat.eq_or_lt_of_le hk with rfl | hk
    · exact htaken
    · exact hall k hk hlt

/-! ## One name -/

/-- The form of a name with a number. -/
def withSuffix (base : String) (n : Nat) : String := base ++ "_" ++ toString n

/-- A sibling asks for `base` and gets a name that is not taken. -/
inductive Allots (used : List String) (base : String) : String → Prop
  | asked (h : base ∉ used) : Allots used base base
  | searched {name : String} (h : base ∈ used) (hsearch : Search used (withSuffix base) 2 name) :
      Allots used base name

theorem Allots.unique {used : List String} {base a b : String} (ha : Allots used base a)
    (hb : Allots used base b) : a = b := by
  cases ha with
  | asked hfree =>
    cases hb with
    | asked _ => rfl
    | searched htaken _ => exact absurd htaken hfree
  | searched htaken ha =>
    cases hb with
    | asked hfree => exact absurd htaken hfree
    | searched _ hb => exact ha.unique hb

theorem Allots.congr {used taken : List String} (hsame : ∀ s, s ∈ used ↔ s ∈ taken)
    {base name : String} (h : Allots used base name) : Allots taken base name := by
  cases h with
  | asked hfree => exact .asked fun hm => hfree ((hsame _).mpr hm)
  | searched htaken hsearch => exact .searched ((hsame _).mp htaken) (hsearch.congr hsame)

/-- **The search for a fresh name ends**, with the fresh name and no other. -/
theorem allots_iff {used : List String} {base name : String} :
    Allots used base name ↔ name = freshName used base := by
  have hfresh : Allots used base (freshName used base) := by
    by_cases h : base ∈ used
    · exact .searched h (search_of_find? (find?_of_mem h))
    · have hbase : freshName used base = base := by simp [freshName, freshNameWith, h]
      rw [hbase]
      exact .asked h
  constructor
  · exact fun h => h.unique hfresh
  · rintro rfl
    exact hfresh

theorem freshName_congr {used taken : List String} (hsame : ∀ s, s ∈ used ↔ s ∈ taken)
    (base : String) : freshName used base = freshName taken base :=
  allots_iff.mp ((allots_iff.mpr rfl).congr hsame)

/-- What a name is beside the names that are taken. -/
inductive FirstFree (taken : List String) (base : String) : String → Prop
  /-- It is as it was asked for, if this is free. -/
  | asked (h : base ∉ taken) : FirstFree taken base base
  /-- Otherwise it has the smallest number from 2 on that is free. -/
  | numbered {n : Nat} (h : base ∈ taken) (htwo : 2 ≤ n) (hle : n ≤ taken.length + 1)
      (hfree : withSuffix base n ∉ taken)
      (hleast : ∀ m, 2 ≤ m → m < n → withSuffix base m ∈ taken) :
      FirstFree taken base (withSuffix base n)

/-- A name and its forms with the numbers below `n` are different, so there are not more numbers
than names that are taken. -/
theorem le_length_of_taken {taken : List String} {base : String} {n : Nat} (h : base ∈ taken)
    (htwo : 2 ≤ n) (hall : ∀ m, 2 ≤ m → m < n → withSuffix base m ∈ taken) :
    n ≤ taken.length + 1 := by
  have hbase : base ∉ numbered "_" base (n - 2) := by
    intro hm
    obtain ⟨m, -, hm⟩ := List.mem_map.mp hm
    have hlen := congrArg String.length hm
    have hmark : "_".length = 1 := rfl
    simp only [String.length_append] at hlen
    omega
  have hnodup : (base :: numbered "_" base (n - 2)).Nodup :=
    List.nodup_cons.mpr ⟨hbase, nodup_numbered _ _ _⟩
  have hsub : base :: numbered "_" base (n - 2) ⊆ taken := by
    refine List.cons_subset.mpr ⟨h, fun s hs => ?_⟩
    obtain ⟨m, hm, rfl⟩ := List.mem_map.mp hs
    rw [List.mem_range'_1] at hm
    exact hall m hm.1 (by omega)
  have hlen := hnodup.length_le_of_subset hsub
  rw [List.length_cons, length_numbered] at hlen
  omega

theorem Allots.firstFree {taken : List String} {base name : String} (h : Allots taken base name) :
    FirstFree taken base name := by
  cases h with
  | asked hfree => exact .asked hfree
  | searched htaken hsearch =>
    have hfree := hsearch.notMem
    obtain ⟨n, htwo, rfl, hall⟩ := hsearch.exists_least
    exact .numbered htaken htwo (le_length_of_taken htaken htwo hall) hfree hall

/-! ## All names -/

/-- Siblings ask one after the other, and what one gets is taken for the next. -/
inductive AllotsAll : List String → List String → List String → Prop
  | nil {used : List String} : AllotsAll used [] []
  | cons {used bases names : List String} {base name : String} (hname : Allots used base name)
      (hrest : AllotsAll (name :: used) bases names) :
      AllotsAll used (base :: bases) (name :: names)

/-- **Siblings are all named**, in one way. -/
theorem allotsAll_iff : ∀ {used bases names : List String},
    AllotsAll used bases names ↔ names = freshNames used bases
  | used, [], names => by
    constructor
    · rintro ⟨⟩
      rfl
    · rintro rfl
      exact .nil
  | used, base :: bases, names => by
    constructor
    · intro h
      cases h with
      | cons hname hrest =>
        obtain rfl := allots_iff.mp hname
        rw [allotsAll_iff.mp hrest, freshNames]
    · rintro rfl
      exact .cons (allots_iff.mpr rfl) (allotsAll_iff.mpr rfl)

/-- Each sibling gets its name beside those of the siblings before it. -/
theorem AllotsAll.exists_allots {used bases names : List String} (h : AllotsAll used bases names) :
    ∀ {i : Nat} {base : String}, bases[i]? = some base →
      ∃ name, names[i]? = some name ∧ Allots ((names.take i).reverse ++ used) base name := by
  induction h with
  | nil =>
    intro i base hbase
    simp at hbase
  | @cons used bases names first name hname _ ih =>
    intro i base hbase
    cases i with
    | zero =>
      obtain rfl : first = base := by simpa using hbase
      exact ⟨name, rfl, hname⟩
    | succ i =>
      obtain ⟨last, hlast, hallots⟩ := ih hbase
      refine ⟨last, hlast, ?_⟩
      rwa [List.take_succ_cons, List.reverse_cons, List.append_assoc]

theorem freshNames_append : ∀ used bases more : List String, freshNames used (bases ++ more) =
    freshNames used bases ++ freshNames ((freshNames used bases).reverse ++ used) more
  | _, [], _ => rfl
  | used, base :: bases, more => by
    simp only [freshNames, List.cons_append, List.reverse_cons, List.append_assoc,
      freshNames_append _ bases more, List.nil_append]

/-- Names for siblings that ask for some. -/
structure Siblings (bases names : List String) : Prop where
  /-- Every search ends, and these are the names they come to. -/
  ends : ∀ out, AllotsAll [] bases out ↔ out = names
  length_eq : names.length = bases.length
  nodup : names.Nodup
  first : ∀ i base, bases[i]? = some base →
    ∃ name, names[i]? = some name ∧ FirstFree (names.take i) base name

theorem siblings_freshNames (bases : List String) : Siblings bases (freshNames [] bases) where
  ends := fun _ => allotsAll_iff
  length_eq := length_freshNames [] bases
  nodup := nodup_freshNames [] bases
  first := by
    intro i base hbase
    obtain ⟨name, hname, hallots⟩ := (allotsAll_iff.mpr rfl).exists_allots hbase
    refine ⟨name, hname, (hallots.congr fun s => ?_).firstFree⟩
    rw [List.append_nil, List.mem_reverse]

end StoredCall.Text

namespace StoredCall

open Text

namespace Subprogram

/-- The names that the arguments ask for, and after them that of the return value. -/
def askedFields (f : Subprogram) : List String :=
  f.args.map (fun a => snake a.name) ++ f.returns.toList.map fun _ => returnField

/-- The return value is named like one more argument. -/
theorem fields_eq_freshNames (f : Subprogram) :
    f.argFields ++ f.retField.toList = freshNames [] f.askedFields := by
  have hargs : f.argFields = freshNames [] (f.args.map fun a => snake a.name) := by
    rw [argFields, fieldNames, List.map_map]
    rfl
  rw [askedFields, freshNames_append, ← hargs, List.append_nil, retField]
  cases f.returns with
  | none => rfl
  | some ret =>
    have hsame : ∀ s, s ∈ f.argFields ↔ s ∈ f.argFields.reverse := fun s => List.mem_reverse.symm
    rw [Option.map_some, freshName_congr hsame]
    rfl

end Subprogram

/-- **Siblings never share a field.** For every list of names the searches for free numbers end with
as many names, pairwise different, each as it was asked for if no earlier one holds it and else with
the smallest free number. So do those for the arguments of a subprogram and, after them, its return
value. -/
theorem siblings_fields :
    (∀ names, Siblings (names.map snake) (fieldNames names)) ∧
    ∀ f : Subprogram, Siblings f.askedFields (f.argFields ++ f.retField.toList) ∧
      f.argFields.length = f.args.length ∧ f.retField.isSome = f.returns.isSome := by
  refine ⟨fun names => siblings_freshNames _, fun f => ⟨?_, f.length_argFields, ?_⟩⟩
  · rw [f.fields_eq_freshNames]
    exact siblings_freshNames _
  · rw [Subprogram.retField, Option.isSome_map]

-- Three spellings of one field, and a number that a later sibling asks for.
example : fieldNames ["P$A", "P_A", "p_a", "B"] = ["p_a", "p_a_2", "p_a_3", "b"] := by
  decide +kernel
example : fieldNames ["A", "A", "A_2"] = ["a", "a_2", "a_2_2"] := by decide +kernel

end StoredCall
