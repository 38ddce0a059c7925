import StoredCall.Proofs.TypeGraph.Resolve
import StoredCall.TypeGraph.Equality
import StoredCall.TypeGraph.Expansion

/-!
# Bounds that are never reached

Unfolding a type and comparing two types recurse on a bound that is taken from the number of
entries. What they come to depends on the resolved types only: the keys that are open inside each
other are pairwise different and resolved, and so are the pairs under comparison, so that any bound
above their number gives the same, whatever is put for what lies beyond it.

* `TypeGraph.doneKeys`: the resolved keys of a graph, of which there are no more than entries.
* **`TypeGraph.shapeOf_congr`**, **`TypeGraph.sameKeys_congr`**: graphs with the same resolved types
  unfold and compare keys alike.
* **`TypeGraph.settles_shapeOf`**, **`TypeGraph.settles_sameKeys`**: unfolding and comparing come to
  an end on every graph.
-/

namespace StoredCall.TypeGraph

variable {g g' : TypeGraph} {k : String}

/-- The resolved keys. -/
def doneKeys (g : TypeGraph) : Finset String :=
  (g.entries.map Prod.fst).toFinset.filter fun k => (g.resolved? k).isSome = true

theorem mem_doneKeys : k ∈ g.doneKeys ↔ (g.resolved? k).isSome = true := by
  refine Finset.mem_filter.trans ⟨And.right, fun hk => ⟨?_, hk⟩⟩
  obtain ⟨d, hd⟩ := Option.isSome_iff_exists.mp hk
  have hmem := Assoc.mem_of_get? (resolved?_eq_some_iff.mp hd)
  exact List.mem_toFinset.mpr (List.mem_map.mpr ⟨_, hmem, rfl⟩)

theorem card_doneKeys_le (g : TypeGraph) : g.doneKeys.card ≤ g.entries.length := by
  refine (Finset.card_filter_le _ _).trans ((List.toFinset_card_le _).trans ?_)
  rw [List.length_map]

theorem doneKeys_congr (h : ∀ k, g.resolved? k = g'.resolved? k) : g.doneKeys = g'.doneKeys := by
  ext k
  rw [mem_doneKeys, mem_doneKeys, h k]

/-! ## Unfolding -/

/-- There are no more open keys than resolved ones. -/
theorem length_le_card_doneKeys {stack : List String} (hnodup : stack.Nodup)
    (hdone : ∀ k ∈ stack, k ∈ g.doneKeys) : stack.length ≤ g.doneKeys.card := by
  rw [← List.toFinset_card_of_nodup hnodup]
  exact Finset.card_le_card fun k hk => hdone k (List.mem_toFinset.mp hk)

/-- A bound on unfolding is a number of rounds. -/
theorem expandKey_eq_iterate (g : TypeGraph) (direction : Direction) (fuel : Nat) :
    expandKey g direction fuel = (expandKeyBy g direction)^[fuel]
      fun _ key => .error (.notSupported key .recursiveType) := by
  induction fuel with
  | zero => rfl
  | succ fuel ih =>
    rw [Function.iterate_succ_apply', ← ih]
    rfl

/-- What lies beyond the rounds is not reached if they leave room for every resolved key that is
not open. -/
theorem iterate_expandKeyBy_congr (h : ∀ k, g.resolved? k = g'.resolved? k)
    {direction : Direction} {stack : List String} (hnodup : stack.Nodup)
    (hdone : ∀ k ∈ stack, k ∈ g.doneKeys) {n n' : Nat}
    (hn : g.doneKeys.card < n + stack.length) (hn' : g.doneKeys.card < n' + stack.length)
    (rest rest' : List String → String → Except Error Shape) (key : String) :
    (expandKeyBy g direction)^[n] rest stack key =
      (expandKeyBy g' direction)^[n'] rest' stack key := by
  induction n generalizing n' stack key with
  | zero =>
    have := length_le_card_doneKeys hnodup hdone
    omega
  | succ n ih =>
    cases n' with
    | zero =>
      have := length_le_card_doneKeys hnodup hdone
      omega
    | succ n' =>
      rw [Function.iterate_succ_apply', Function.iterate_succ_apply', expandKeyBy, expandKeyBy,
        ← h key]
      cases hd : g.resolved? key with
      | none => rfl
      | some d =>
        by_cases hopen : stack.contains key = true
        · simp only [hopen, if_true]
        · simp only [hopen]
          -- The key is open from here on, and is one that was not open before.
          have hnew : (key :: stack).Nodup :=
            List.nodup_cons.mpr ⟨fun hmem => hopen (List.contains_iff_mem.mpr hmem), hnodup⟩
          have hall : ∀ k ∈ key :: stack, k ∈ g.doneKeys :=
            List.forall_mem_cons.mpr ⟨mem_doneKeys.mpr (by simp [hd]), hdone⟩
          have hinner : (expandKeyBy g direction)^[n] rest (key :: stack) =
              (expandKeyBy g' direction)^[n'] rest' (key :: stack) := by
            funext k
            refine ih hnew hall ?_ ?_ k
            · rw [List.length_cons]
              omega
            · rw [List.length_cons]
              omega
          rw [hinner]

/-- **Graphs with the same resolved types unfold keys alike.** -/
theorem shapeOf_congr (h : ∀ k, g.resolved? k = g'.resolved? k) (direction : Direction)
    (key : String) : shapeOf g direction key = shapeOf g' direction key := by
  have hle := card_doneKeys_le g
  have hle' := card_doneKeys_le g'
  rw [← doneKeys_congr h] at hle'
  rw [shapeOf, shapeOf, expandKey_eq_iterate, expandKey_eq_iterate]
  refine iterate_expandKeyBy_congr h List.nodup_nil (by simp) ?_ ?_ _ _ key
  · rw [List.length_nil]
    omega
  · rw [List.length_nil]
    omega

/-- **Unfolding a key comes to an end.** -/
theorem settles_shapeOf (g : TypeGraph) (direction : Direction) (key : String) :
    Settles (expandKeyBy g direction) (fun expand => expand [] key) (shapeOf g direction key) := by
  have hle := card_doneKeys_le g
  have hroom : g.doneKeys.card < g.entries.length + 1 + ([] : List String).length := by
    rw [List.length_nil]
    omega
  refine ⟨g.entries.length + 1, fun rest => ?_⟩
  rw [shapeOf, expandKey_eq_iterate]
  exact iterate_expandKeyBy_congr (fun _ => rfl) List.nodup_nil (by simp) hroom hroom _ _ key

/-! ## Comparing -/

/-- The pairs of resolved keys that have been seen. -/
def seenPairs (g : TypeGraph) (seen : Seen) : Finset (String × String) :=
  (g.doneKeys ×ˢ g.doneKeys).filter (· ∈ seen)

/-- A bound leaves room for every pair of resolved keys that has not been seen. -/
def Roomy (g : TypeGraph) (fuel : Nat) (seen : Seen) : Prop :=
  g.doneKeys.card * g.doneKeys.card < fuel + (g.seenPairs seen).card

theorem Roomy.mono {fuel : Nat} {seen seen' : Seen} (h : Roomy g fuel seen) (hsub : seen ⊆ seen') :
    Roomy g fuel seen' := by
  have hcard : (g.seenPairs seen).card ≤ (g.seenPairs seen').card :=
    Finset.card_le_card (Finset.monotone_filter_right _ fun _ _ hp => hsub hp)
  unfold Roomy at h ⊢
  omega

theorem not_roomy_zero {seen : Seen} : ¬ Roomy g 0 seen := by
  have hcard : (g.seenPairs seen).card ≤ (g.doneKeys ×ˢ g.doneKeys).card :=
    Finset.card_filter_le _ _
  rw [Finset.card_product] at hcard
  unfold Roomy
  omega

/-- A new pair of resolved keys takes up one step of the bound. -/
theorem Roomy.cons {fuel : Nat} {seen : Seen} {a b : String} (h : Roomy g (fuel + 1) seen)
    (ha : a ∈ g.doneKeys) (hb : b ∈ g.doneKeys) (hnew : (a, b) ∉ seen) :
    Roomy g fuel ((a, b) :: seen) := by
  have hinsert : g.seenPairs ((a, b) :: seen) = insert (a, b) (g.seenPairs seen) := by
    ext p
    simp only [seenPairs, Finset.mem_filter, Finset.mem_insert, List.mem_cons]
    constructor
    · rintro ⟨hp, rfl | hseen⟩
      · exact .inl rfl
      · exact .inr ⟨hp, hseen⟩
    · rintro (rfl | ⟨hp, hseen⟩)
      · exact ⟨Finset.mem_product.mpr ⟨ha, hb⟩, .inl rfl⟩
      · exact ⟨hp, .inr hseen⟩
  have hfresh : (a, b) ∉ g.seenPairs seen := fun hp => hnew (Finset.mem_filter.mp hp).2
  have hcard : (g.seenPairs ((a, b) :: seen)).card = (g.seenPairs seen).card + 1 := by
    rw [hinsert, Finset.card_insert_of_notMem hfresh]
  unfold Roomy at h ⊢
  omega

/-- Two comparisons come to the same once certain pairs have been seen, and forget none of them. -/
def SameOnce (base : Seen) (x y : StateM Seen Bool) : Prop :=
  ∀ seen : Seen, base ⊆ seen → x.run seen = y.run seen ∧ base ⊆ (x.run seen).2

theorem sameOnce_pure (base : Seen) (b : Bool) : SameOnce base (pure b) (pure b) :=
  fun _ hseen => ⟨rfl, hseen⟩

section Parts

variable {base : Seen} {same same' : String → String → StateM Seen Bool}

theorem sameOnce_sameRef (h : ∀ a b, SameOnce base (same a b) (same' a b)) (s t : TypeRef) :
    SameOnce base (sameRef same s t) (sameRef same' s t) := by
  cases s with
  | scalar a =>
    cases t with
    | scalar b => exact sameOnce_pure base _
    | named b => exact sameOnce_pure base _
  | named a =>
    cases t with
    | scalar b => exact sameOnce_pure base _
    | named b => exact h a b

theorem sameOnce_sameFields (h : ∀ a b, SameOnce base (same a b) (same' a b))
    (as bs : List Field) : SameOnce base (sameFields same as bs) (sameFields same' as bs) := by
  induction as generalizing bs with
  | nil => cases bs <;> exact sameOnce_pure base _
  | cons a as ih =>
    cases bs with
    | nil => exact sameOnce_pure base _
    | cons b bs =>
      rw [sameFields, sameFields]
      by_cases hname : a.name = b.name
      · simp only [hname, ne_eq, not_true_eq_false, if_false]
        intro seen hseen
        obtain ⟨hrun, hkept⟩ := sameOnce_sameRef h a.type b.type seen hseen
        simp only [StateT.run_bind, ← hrun]
        rcases hfirst : (sameRef same a.type b.type).run seen with ⟨_ | _, seen'⟩
        · rw [hfirst] at hkept
          exact ⟨rfl, hkept⟩
        · rw [hfirst] at hkept
          exact ih bs seen' hkept
      · simp only [hname, ne_eq, not_false_eq_true, if_true]
        exact sameOnce_pure base _

theorem sameOnce_sameDef (h : ∀ a b, SameOnce base (same a b) (same' a b)) (d e : TypeDef) :
    SameOnce base (sameDef same d e) (sameDef same' d e) := by
  cases d with
  | scalar s => cases e <;> exact sameOnce_pure base _
  | record as =>
    cases e with
    | record bs =>
      rw [sameDef, sameDef]
      by_cases hlength : as.length = bs.length
      · rw [if_pos hlength, if_pos hlength]
        exact sameOnce_sameFields h as bs
      · rw [if_neg hlength, if_neg hlength]
        exact sameOnce_pure base _
    | scalar | collection => exact sameOnce_pure base _
  | collection s i =>
    cases e with
    | collection t j =>
      rw [sameDef, sameDef]
      by_cases hindex : i = j
      · rw [if_pos hindex, if_pos hindex]
        exact sameOnce_sameRef h s t
      · rw [if_neg hindex, if_neg hindex]
        exact sameOnce_pure base _
    | scalar | record => exact sameOnce_pure base _

end Parts

section Keys

variable {same : String → String → StateM Seen Bool} {a b : String} {seen : Seen}

/-- A key is the same as itself, and as one that it was compared with. -/
theorem run_sameKeyBy_seen (h : a = b ∨ (a, b) ∈ seen) :
    (sameKeyBy g same a b).run seen = (true, seen) := by
  rw [sameKeyBy]
  by_cases hab : a = b
  · rw [if_pos hab]
    rfl
  · rw [if_neg hab]
    have hold : seen.contains (a, b) = true := List.contains_iff_mem.mpr (h.resolve_left hab)
    show (if seen.contains (a, b) = true then _ else _ : StateM Seen Bool).run seen = _
    rw [if_pos hold]
    rfl

/-- A new pair of resolved keys is noted, and then its definitions are compared. -/
theorem run_sameKeyBy_resolved {d e : TypeDef} (hab : a ≠ b) (hnew : (a, b) ∉ seen)
    (ha : g.resolved? a = some d) (hb : g.resolved? b = some e) :
    (sameKeyBy g same a b).run seen = (sameDef same d e).run ((a, b) :: seen) := by
  have hold : ¬ seen.contains (a, b) = true := fun h => hnew (List.contains_iff_mem.mp h)
  rw [sameKeyBy, if_neg hab, ha, hb]
  show (if seen.contains (a, b) = true then _ else _ : StateM Seen Bool).run seen = _
  rw [if_neg hold]
  rfl

/-- A new pair is not the same if one of its keys is not resolved. -/
theorem run_sameKeyBy_unresolved (hab : a ≠ b) (hnew : (a, b) ∉ seen)
    (h : g.resolved? a = none ∨ g.resolved? b = none) :
    (sameKeyBy g same a b).run seen = (false, (a, b) :: seen) := by
  have hold : ¬ seen.contains (a, b) = true := fun h => hnew (List.contains_iff_mem.mp h)
  rw [sameKeyBy, if_neg hab]
  show (if seen.contains (a, b) = true then _ else _ : StateM Seen Bool).run seen = _
  rw [if_neg hold]
  rcases h with h | h
  · rw [h]
    rfl
  · rw [h]
    cases g.resolved? a <;> rfl

end Keys

/-- A bound on comparing is a number of rounds. -/
theorem sameKey_eq_iterate (g : TypeGraph) (fuel : Nat) :
    sameKey g fuel = (sameKeyBy g)^[fuel] fun _ _ => return false := by
  induction fuel with
  | zero => rfl
  | succ fuel ih =>
    rw [Function.iterate_succ_apply', ← ih]
    rfl

/-- What lies beyond the rounds is not reached if they leave room for every pair that has not been
seen. -/
theorem iterate_sameKeyBy_congr (h : ∀ k, g.resolved? k = g'.resolved? k) {n n' : Nat}
    {base : Seen} (hn : Roomy g n base) (hn' : Roomy g n' base)
    (rest rest' : String → String → StateM Seen Bool) (a b : String) :
    SameOnce base ((sameKeyBy g)^[n] rest a b) ((sameKeyBy g')^[n'] rest' a b) := by
  induction n generalizing n' base a b with
  | zero => exact absurd hn not_roomy_zero
  | succ n ih =>
    cases n' with
    | zero => exact absurd hn' not_roomy_zero
    | succ n' =>
      rw [Function.iterate_succ_apply', Function.iterate_succ_apply']
      intro seen hseen
      by_cases hold : a = b ∨ (a, b) ∈ seen
      · rw [run_sameKeyBy_seen hold, run_sameKeyBy_seen hold]
        exact ⟨rfl, hseen⟩
      · obtain ⟨hab, hnew⟩ := not_or.mp hold
        have hkept : base ⊆ (a, b) :: seen := List.subset_cons_of_subset _ hseen
        by_cases hun : g.resolved? a = none ∨ g.resolved? b = none
        · rw [run_sameKeyBy_unresolved hab hnew hun,
            run_sameKeyBy_unresolved hab hnew (by rwa [← h a, ← h b])]
          exact ⟨rfl, hkept⟩
        · obtain ⟨ha, hb⟩ := not_or.mp hun
          obtain ⟨d, ha⟩ := Option.ne_none_iff_exists'.mp ha
          obtain ⟨e, hb⟩ := Option.ne_none_iff_exists'.mp hb
          rw [run_sameKeyBy_resolved hab hnew ha hb,
            run_sameKeyBy_resolved hab hnew ((h a).symm.trans ha) ((h b).symm.trans hb)]
          -- With the new pair among those seen, the smaller bounds leave room again.
          have hroom : ∀ {m : Nat}, Roomy g (m + 1) base → Roomy g m ((a, b) :: seen) := fun hm =>
            (hm.mono hseen).cons (mem_doneKeys.mpr (by simp [ha]))
              (mem_doneKeys.mpr (by simp [hb])) hnew
          obtain ⟨hrun, hall⟩ := sameOnce_sameDef
            (fun a b => ih (hroom hn) (hroom hn') a b) d e _ (List.Subset.refl _)
          exact ⟨hrun, fun p hp => hall (hkept hp)⟩

theorem roomy_of_card_le {n : Nat} (h : g.doneKeys.card ≤ n) : Roomy g (n * n + 2) [] := by
  have := Nat.mul_le_mul h h
  unfold Roomy
  omega

/-- **Graphs with the same resolved types compare keys alike.** -/
theorem sameKeys_congr (h : ∀ k, g.resolved? k = g'.resolved? k) (a b : String) :
    sameKeys g a b = sameKeys g' a b := by
  have hle' := card_doneKeys_le g'
  rw [← doneKeys_congr h] at hle'
  rw [sameKeys, sameKeys, sameKey_eq_iterate, sameKey_eq_iterate]
  have hsame := iterate_sameKeyBy_congr h (roomy_of_card_le (card_doneKeys_le g))
    (roomy_of_card_le hle') (fun _ _ => return false) (fun _ _ => return false) a b
  exact congrArg Prod.fst (hsame [] (List.Subset.refl _)).1

/-- **Comparing two keys comes to an end.** -/
theorem settles_sameKeys (g : TypeGraph) (a b : String) :
    Settles (sameKeyBy g) (fun same => ((same a b).run []).1) (sameKeys g a b) := by
  have hroom := roomy_of_card_le (card_doneKeys_le g)
  refine ⟨g.entries.length * g.entries.length + 2, fun rest => ?_⟩
  rw [sameKeys, sameKey_eq_iterate]
  have hsame :=
    iterate_sameKeyBy_congr (fun _ => rfl) hroom hroom rest (fun _ _ => return false) a b
  exact congrArg Prod.fst (hsame [] (List.Subset.refl _)).1

end StoredCall.TypeGraph
