import Mathlib
import StoredCall.Subprogram

/-!
# Names side by side are different

A name that is taken gets the first free number. One number more is tried than there are taken
names, and the numbered forms of a name are pairwise different, so one of them is free and the
search never falls back on the taken name.

* `getD_find?_notMem`: the search among enough pairwise different candidates ends at a free one.
  `Search` is the search without a bound on the numbers that are tried.
* `freshName_notMem`, `nodup_freshNames`: fresh names are not taken and differ from each other.
* `mem_freshNames_of_notMem`: a free name that is asked for is given out as it is.
* `freshNameWith_append`: to take a name beforehand that stays free changes no fresh name.
* `nodup_fieldNames`, `nodup_argFields`, `retField_notMem`: hence the fields of a record, the
  arguments of a subprogram and its return value have pairwise different names.
-/

namespace StoredCall.Text

/-! ## The search for a free name -/

/-- More pairwise different candidates than taken names: one of them is free. -/
theorem exists_mem_notMem {used candidates : List String} (hn : candidates.Nodup)
    (hl : used.length < candidates.length) : ∃ s ∈ candidates, s ∉ used := by
  by_contra hall
  have hsub : candidates ⊆ used := by
    intro s hs
    by_contra hu
    exact hall ⟨s, hs, hu⟩
  have := hn.length_le_of_subset hsub
  omega

/-- The search among enough candidates ends. -/
theorem exists_find? {used candidates : List String} (hn : candidates.Nodup)
    (hl : used.length < candidates.length) :
    ∃ s, candidates.find? (fun s => !used.contains s) = some s := by
  obtain ⟨s, hs, hu⟩ := exists_mem_notMem hn hl
  apply Option.isSome_iff_exists.mp
  rw [List.find?_isSome]
  exact ⟨s, hs, by simpa using hu⟩

/-- The search among enough candidates ends at a free one, and never at the default. -/
theorem getD_find?_notMem {used candidates : List String} (hn : candidates.Nodup)
    (hl : used.length < candidates.length) (default : String) :
    (candidates.find? fun s => !used.contains s).getD default ∉ used := by
  obtain ⟨t, ht⟩ := exists_find? hn hl
  rw [ht, Option.getD_some]
  simpa using List.find?_some ht

/-- The search for a free name among numbered ones, from a number on. It passes over names that are
taken and ends at the first that is free, however many there are. -/
inductive Search (used : List String) (candidate : Nat → String) : Nat → String → Prop
  | found {n : Nat} (h : candidate n ∉ used) : Search used candidate n (candidate n)
  | next {n : Nat} {name : String} (h : candidate n ∈ used)
      (hnext : Search used candidate (n + 1) name) : Search used candidate n name

theorem Search.notMem {used : List String} {candidate : Nat → String} {n : Nat} {name : String}
    (h : Search used candidate n name) : name ∉ used := by
  induction h with
  | found h => exact h
  | next _ _ ih => exact ih

/-- A search that ends within a range of numbers ends. -/
theorem search_of_find? {used : List String} {candidate : Nat → String} :
    ∀ {count n : Nat} {name : String},
      ((List.range' n count).map candidate).find? (fun s => !used.contains s) = some name →
        Search used candidate n name
  | 0, _, _, h => by simp at h
  | count + 1, n, name, h => by
    rw [List.range'_succ, List.map_cons, List.find?_cons] at h
    by_cases hn : candidate n ∈ used
    · have htaken : (!used.contains (candidate n)) = false := by simpa using hn
      rw [htaken] at h
      exact .next hn (search_of_find? h)
    · have hfree : (!used.contains (candidate n)) = true := by simpa using hn
      rw [hfree] at h
      cases h
      exact .found hn

/-- The numbered forms of a name are pairwise different. -/
theorem nodup_numbered (mark base : String) (count : Nat) : (numbered mark base count).Nodup := by
  refine List.Nodup.map ?_ List.nodup_range'
  intro m n h
  rw [String.append_right_inj, Nat.toString_eq_repr, Nat.toString_eq_repr] at h
  exact Nat.repr_injective h

theorem length_numbered (mark base : String) (count : Nat) :
    (numbered mark base count).length = count := by
  unfold numbered
  rw [List.length_map, List.length_range']

/-- **A fresh name is not taken.** -/
theorem freshNameWith_notMem (mark : String) (used : List String) (base : String) :
    freshNameWith mark used base ∉ used := by
  unfold freshNameWith
  split
  · exact getD_find?_notMem (nodup_numbered _ _ _) (by rw [length_numbered]; omega) _
  · rename_i h
    simpa using h

theorem freshName_notMem (used : List String) (base : String) : freshName used base ∉ used :=
  freshNameWith_notMem "_" used base

/-- A name is taken once it was asked for, by whoever asks first. -/
theorem mem_freshNameWith (mark : String) (used : List String) (base : String) :
    base ∈ freshNameWith mark used base :: used := by
  unfold freshNameWith
  split
  · next h => exact List.mem_cons_of_mem _ (by simpa using h)
  · exact List.mem_cons_self

/-- A search that ends elsewhere does not mind one more taken name. -/
theorem find?_append_taken {used candidates more : List String} {name other : String}
    (h : candidates.find? (fun s => !used.contains s) = some name) (hne : name ≠ other) :
    (candidates ++ more).find? (fun s => !(used ++ [other]).contains s) = some name := by
  obtain ⟨hname, front, back, rfl, hfront⟩ := List.find?_eq_some_iff_append.mp h
  rw [List.append_assoc]
  refine List.find?_eq_some_iff_append.mpr ⟨?_, front, back ++ more, rfl, fun s hs => ?_⟩
  · simpa [hne] using hname
  · have hused : s ∈ used := by simpa using hfront s hs
    simp [hused]

/-- A name that is taken is searched among its numbered forms. -/
theorem find?_of_mem {mark base : String} {used : List String} (h : base ∈ used) :
    (numbered mark base (used.length + 1)).find? (fun s => !used.contains s) =
      some (freshNameWith mark used base) := by
  have hfree := freshNameWith_notMem mark used base
  rw [freshNameWith, if_pos (by simpa using h)] at hfree ⊢
  cases hfind : (numbered mark base (used.length + 1)).find? fun s => !used.contains s with
  | none =>
    rw [hfind] at hfree
    exact absurd h hfree
  | some name => rfl

/-- A fresh name is the name that is asked for, or this name with a number. -/
theorem freshNameWith_cases (mark : String) (used : List String) (base : String) :
    freshNameWith mark used base = base ∨
      ∃ n : Nat, freshNameWith mark used base = base ++ mark ++ toString n := by
  by_cases h : base ∈ used
  · obtain ⟨n, -, hn⟩ := List.mem_map.mp (List.mem_of_find?_eq_some (@find?_of_mem mark base _ h))
    exact .inr ⟨n, hn.symm⟩
  · exact .inl (by simp [freshNameWith, h])

/-- A name that stays free can be taken beforehand: the same name is given out. -/
theorem freshNameWith_append {mark base other : String} {used : List String}
    (h : freshNameWith mark used base ≠ other) :
    freshNameWith mark (used ++ [other]) base = freshNameWith mark used base := by
  by_cases hbase : base ∈ used
  · have hmore : numbered mark base ((used ++ [other]).length + 1) =
        numbered mark base (used.length + 1)
          ++ [base ++ mark ++ toString (2 + (used.length + 1))] := by
      rw [List.length_append, List.length_singleton, numbered, List.range'_1_concat,
        List.map_append]
      rfl
    have hsearch := @find?_of_mem mark base _ (List.mem_append_left [other] hbase)
    rw [hmore, find?_append_taken (find?_of_mem hbase) h] at hsearch
    exact (Option.some.inj hsearch).symm
  · have hne : base ≠ other := by simpa [freshNameWith, hbase] using h
    simp [freshNameWith, hbase, hne]

/-! ## Siblings -/

theorem length_freshNames : ∀ (used names : List String),
    (freshNames used names).length = names.length
  | _, [] => rfl
  | used, base :: rest => by
    rw [freshNames, List.length_cons, List.length_cons, length_freshNames]

/-- Fresh names avoid what was taken before them. -/
theorem notMem_of_mem_freshNames : ∀ {used names : List String} {n : String},
    n ∈ freshNames used names → n ∉ used
  | _, [], _, h => absurd h List.not_mem_nil
  | used, base :: rest, n, h => by
    rw [freshNames] at h
    rcases List.mem_cons.mp h with rfl | h
    · exact freshName_notMem used base
    · intro hu
      exact notMem_of_mem_freshNames h (List.mem_cons_of_mem _ hu)

/-- **Fresh names differ from each other.** -/
theorem nodup_freshNames : ∀ used names : List String, (freshNames used names).Nodup
  | _, [] => List.nodup_nil
  | used, base :: rest => by
    rw [freshNames, List.nodup_cons]
    refine ⟨fun h => ?_, nodup_freshNames _ rest⟩
    exact notMem_of_mem_freshNames h List.mem_cons_self

/-- A name that is free is given out to whoever asks first, so it is among the names. -/
theorem mem_freshNames_of_notMem : ∀ {used names : List String} {n : String}, n ∈ names →
    n ∉ used → n ∈ freshNames used names
  | used, base :: rest, n, h, hu => by
    rw [freshNames]
    by_cases hfresh : n = freshName used base
    · exact hfresh ▸ List.mem_cons_self
    · have hu : n ∉ freshName used base :: used := fun hm => (List.mem_cons.mp hm).elim hfresh hu
      rcases List.mem_cons.mp h with rfl | h
      · exact absurd (mem_freshNameWith "_" used n) hu
      · exact List.mem_cons_of_mem _ (mem_freshNames_of_notMem h hu)

theorem nodup_fieldNames (names : List String) : (fieldNames names).Nodup :=
  nodup_freshNames [] _

theorem length_fieldNames (names : List String) : (fieldNames names).length = names.length := by
  unfold fieldNames
  rw [length_freshNames, List.length_map]

end StoredCall.Text

namespace StoredCall.Subprogram

open Text

theorem nodup_argFields (f : Subprogram) : f.argFields.Nodup :=
  nodup_fieldNames _

theorem length_argFields (f : Subprogram) : f.argFields.length = f.args.length := by
  unfold argFields
  rw [length_fieldNames, List.length_map]

/-- The return value does not share its field with an argument. -/
theorem retField_notMem {f : Subprogram} {name : String} (h : f.retField = some name) :
    name ∉ f.argFields := by
  obtain ⟨ret, _, rfl⟩ := Option.map_eq_some_iff.mp h
  exact freshName_notMem _ _

end StoredCall.Subprogram
