import StoredCall.Proofs.TypeGraph.Termination

/-!
# The order of a scan

A scan resolves the names that the catalog lists, in the order in which it lists them. A name may
find types that names before it have resolved, and those that were resolved for a name that failed
are kept. So the order can matter: a type that was finished while an open name was taken for
resolved stays when that name is dropped, and is then found by a scan that comes to it later
(`TypeGraph.memos_order_matters`).

Where no name leaves such a type behind, what comes of a name does not depend on the names before
it. Types are found by their keys, so this takes for granted that names of one key are names of one
type.

* `TypeGraph.onItsOwn c q` is the graph after `q` alone was resolved, and `TypeGraph.outcome c q`
  what came of it.
* `TypeGraph.Closed g`: every reference of a resolved type is resolved.
* `Catalog.OneTypePerKey c qs`: names of one key have one definition.
* `TypeGraph.ends_settle`: what becomes of the outcomes of names, and of the graph.
* `TypeGraph.ends_names`: if every name on its own leaves a closed graph, a scan resolves what the
  names resolve on their own, and lists the names that succeed on their own.
* **`TypeGraph.sameScan_of_perm`**: the order of the names makes no difference then.
-/

namespace StoredCall

open TypeGraph

/-! ## Listing names in another order -/

/-- The catalog with other names in its list of all types. -/
def Catalog.listing (c : Catalog) (qs : List QName) : Catalog := { c with typeNames := .ok qs }

namespace TypeGraph

variable {c : Catalog} {qs : List QName} {q : QName} {g : TypeGraph} {k : String}

theorem fetchFrom_listing (q : QName) (indexBy : Option IndexBy) (sources : List Source) :
    fetchFrom (c.listing qs) q indexBy sources = fetchFrom c q indexBy sources := by
  induction sources with
  | nil => rfl
  | cons source rest ih => cases source <;> simp only [fetchFrom, ih] <;> rfl

theorem fetch_listing (q : QName) (cls : TypeClass) :
    fetch (c.listing qs) q cls = fetch c q cls := by
  cases cls <;> simp only [fetch, fetchFrom_listing]

section Install

variable (install : QName → TypeClass → Resolve Unit)

theorem childRef_listing (t : AttributeType) :
    childRef (c.listing qs) install t = childRef c install t := by
  cases t <;> rfl

theorem fieldRefs_listing (as : List Attribute) :
    fieldRefs (c.listing qs) install as = fieldRefs c install as := by
  induction as with
  | nil => rfl
  | cons a as ih => simp only [fieldRefs, childRef_listing, ih]

theorem build_listing (raw : RawDef) : build (c.listing qs) install raw = build c install raw := by
  cases raw <;> simp only [build, fieldRefs_listing, childRef_listing]

end Install

theorem install_listing (depth : Nat) (q : QName) (raw : RawDef) :
    install (c.listing qs) depth q raw = install c depth q raw := by
  induction depth generalizing q raw with
  | zero => rfl
  | succ depth ih => simp only [install, fetch_listing, build_listing, ih]

theorem discover_listing (q : QName) : discover (c.listing qs) q = discover c q := by
  simp only [discover, fetch_listing, install_listing]
  rfl

/-- What a scan does with a name does not depend on the names that are listed. -/
theorem discoverAll_listing (budget : Option Nat) (ps : List QName) :
    discoverAll (c.listing qs) budget ps = discoverAll c budget ps := by
  induction ps generalizing budget with
  | nil => rfl
  | cons p ps ih =>
    match budget with
    | none => simp only [discoverAll, discover_listing, ih]
    | some 0 => simp only [discoverAll, ih]
    | some (n + 1) => simp only [discoverAll, discover_listing, ih]

/-! ## Names on their own -/

/-- The keys that are resolved. -/
def resolvedKeys (g : TypeGraph) : Set String := {k | (g.resolved? k).isSome = true}

/-- Whether what a reference stands for is resolved. -/
def answers (g : TypeGraph) : TypeRef → Bool
  | .scalar _ => true
  | .named k => (g.resolved? k).isSome

/-- Every reference of a resolved type is resolved. -/
def Closed (g : TypeGraph) : Prop := ∀ e ∈ g.types, ∀ t ∈ e.2.refs, g.answers t = true

instance (g : TypeGraph) : Decidable g.Closed :=
  inferInstanceAs (Decidable (∀ e ∈ g.types, ∀ t ∈ e.2.refs, g.answers t = true))

theorem Closed.isSome (h : g.Closed) {d : TypeDef} {l : String} (hk : g.resolved? k = some d)
    (hl : .named l ∈ d.refs) : (g.resolved? l).isSome = true := by
  have hmem : (k, d) ∈ g.types :=
    List.mem_filterMap.mpr ⟨_, Assoc.mem_of_get? (resolved?_eq_some_iff.mp hk), rfl⟩
  exact h _ hmem _ hl

/-- What comes of a name on its own. -/
def outcome (c : Catalog) (q : QName) : Except Error Unit := ((discover c q).run {}).1

/-- The graph after a name was resolved on its own. -/
def onItsOwn (c : Catalog) (q : QName) : TypeGraph := ((discover c q).run {}).2

end TypeGraph

/-- Names of one key have one definition, among the names that those of a list lead to. -/
def Catalog.OneTypePerKey (c : Catalog) (qs : List QName) : Prop :=
  ∀ {q r raw}, c.Met qs q → c.Met qs r → q.key = r.key → c.Describes q raw → c.Describes r raw

theorem Catalog.OneTypePerKey.subset {c : Catalog} {qs qs' : List QName}
    (h : c.OneTypePerKey qs) (hsub : qs' ⊆ qs) : c.OneTypePerKey qs' := by
  have hmet : ∀ {q}, c.Met qs' q → c.Met qs q := fun ⟨p, hp, hlead⟩ => ⟨p, hsub hp, hlead⟩
  exact fun {_ _ _} hq hr => h (hmet hq) (hmet hr)

namespace TypeGraph

variable {c : Catalog} {qs : List QName} {q : QName} {g : TypeGraph} {k : String}

theorem sound_onItsOwn (c : Catalog) (q : QName) : Sound c c.Refuses [] (onItsOwn c q) :=
  (goesOn_discover (.refl c) (fun _ h => h) q {} (sound_empty c _)).state.sound

theorem adds_onItsOwn (c : Catalog) (q : QName) : Adds c q {} (onItsOwn c q) := by
  have hends : Ends (visit c (nested c (allowance c)) q) {} (fun _ => Adds c q {})
      (fun _ => Adds c q {}) := by
    refine ends_bind.mpr (ends_ask.mpr ?_)
    rcases hcls : c.classify q with e | _ | cls
    · exact Adds.of_entries_eq rfl
    · exact Adds.of_entries_eq rfl
    · have hasked : Adds c q {} { ({} : TypeGraph) with asked := 1 } := .of_entries_eq rfl
      exact (addsBelow_nested (allowance c) .refl hcls).mono (fun _ _ h => hasked.trans h)
        (fun _ _ h => hasked.trans h)
  unfold onItsOwn
  rw [run_discover_new rfl]
  exact hends.state

theorem mem_refs_typeDef {r : QName} {raw : RawDef} (h : .named r ∈ raw.parts) :
    .named r.key ∈ raw.typeDef.refs := by
  cases raw with
  | scalar s => cases h
  | record as =>
    obtain ⟨a, ha, hra⟩ := List.mem_map.mp h
    refine List.mem_map.mpr ⟨a.field, List.mem_map_of_mem ha, ?_⟩
    simp only [Attribute.field, hra, AttributeType.ref]
  | collection elem indexBy =>
    have helem : elem.type = .named r := (List.mem_singleton.mp h).symm
    simp only [RawDef.typeDef, TypeDef.refs, helem, AttributeType.ref, List.mem_singleton]

/-- A closed graph that a name leaves on its own is complete. -/
theorem whole_onItsOwn (hkeys : c.OneTypePerKey qs) (hq : q ∈ qs)
    (hclosed : (onItsOwn c q).Closed) : Whole c qs (onItsOwn c q).resolvedKeys := by
  intro r hr hdone
  obtain ⟨d, hd⟩ := Option.isSome_iff_exists.mp hdone
  rcases adds_onItsOwn c q r.key with hsame | ⟨s, hlead, hkey, hdef⟩
  · rw [resolved?_congr hsame] at hd
    cases hd
  · obtain ⟨raw, hraw, rfl⟩ := hdef d hd
    refine ⟨raw, hkeys ⟨q, hq, hlead⟩ hr hkey hraw, fun t ht => ?_⟩
    exact hclosed.isSome hd (mem_refs_typeDef ht)

/-! ## Scans -/

/-- Resolving a name after others comes to what it comes to on its own. -/
theorem discover_after (hwhole : Whole c qs g.resolvedKeys)
    (hrest : ∀ k, Assoc.get? k g.entries ≠ some .resolving) (hq : q ∈ qs) :
    ((discover c q).run g).1 = outcome c q ∧
      ((discover c q).run g).2.resolvedKeys = g.resolvedKeys ∪ (onItsOwn c q).resolvedKeys ∧
      ∀ k, Assoc.get? k ((discover c q).run g).2.entries ≠ some .resolving := by
  have hb : Beside g.resolvedKeys g {} := {
    done := fun k => by simp [resolvedKeys, resolved?, Assoc.get?]
    opened := fun k => by simp [hrest k, Assoc.get?] }
  obtain ⟨hout, hb'⟩ := alike_discover hwhole ⟨q, hq, .refl⟩ (sound_empty c _) hb
  refine ⟨hout, ?_, fun k hk => ?_⟩
  · ext k
    exact (hb'.done k).trans or_comm
  · obtain ⟨p, hp, -⟩ := ((sound_onItsOwn c q).opened k).mp ((hb'.opened k).mp hk)
    cases hp

/-- What is resolved after each of several names on its own. -/
def ownKeys (c : Catalog) (qs : List QName) : Set String :=
  {k | ∃ q ∈ qs, k ∈ (onItsOwn c q).resolvedKeys}

theorem ownKeys_eq_of_perm {qs' : List QName} (h : qs.Perm qs') : ownKeys c qs = ownKeys c qs' := by
  simp only [ownKeys, h.mem_iff]

/-- **A scan resolves what its names resolve on their own**, and so they come out. -/
theorem comes_discoverAll (hkeys : c.OneTypePerKey qs)
    (hclosed : ∀ q ∈ qs, (onItsOwn c q).Closed) {ps : List QName} (hps : ∀ q ∈ ps, q ∈ qs)
    (hwhole : Whole c qs g.resolvedKeys)
    (hrest : ∀ k, Assoc.get? k g.entries ≠ some .resolving) :
    Comes (discoverAll c none ps) g fun outcomes g' =>
      outcomes = ps.map (fun q => (q.key, some (outcome c q))) ∧
        g'.resolvedKeys = g.resolvedKeys ∪ ownKeys c ps := by
  induction ps generalizing g with
  | nil =>
    refine ⟨rfl, ?_⟩
    show g.resolvedKeys = _
    simp [ownKeys]
  | cons q ps ih =>
    have hq : q ∈ qs := hps q List.mem_cons_self
    obtain ⟨hout, hdone, hrest₁⟩ := discover_after hwhole hrest hq
    -- What the first name leaves is complete again, so the others meet a complete graph.
    have hwhole₁ : Whole c qs ((discover c q).run g).2.resolvedKeys := by
      rw [hdone]
      exact hwhole.union (whole_onItsOwn hkeys hq (hclosed q hq))
    obtain ⟨houts, hdone₁⟩ := ih (fun p hp => hps p (List.mem_cons_of_mem q hp)) hwhole₁ hrest₁
    refine ⟨?_, ?_⟩
    · show (q.key, some ((discover c q).run g).1) :: _ = _
      rw [hout, List.map_cons]
      exact congrArg _ houts
    · refine hdone₁.trans ?_
      rw [hdone]
      ext k
      simp [ownKeys, or_assoc]

section Settle

variable {g' : TypeGraph}

/-- Some of the keys that are pending are dropped, and nothing else changes. -/
def Clears (g g' : TypeGraph) : Prop :=
  ∀ k, Assoc.get? k g'.entries = Assoc.get? k g.entries ∨
    Assoc.get? k g.entries = some .pending ∧ Assoc.get? k g'.entries = none

theorem Clears.refl (g : TypeGraph) : Clears g g := fun _ => .inl rfl

theorem Clears.trans {g'' : TypeGraph} (h : Clears g g') (h' : Clears g' g'') : Clears g g'' := by
  intro k
  rcases h k with hsame | ⟨hpending, hnone⟩
  · rcases h' k with hsame' | ⟨hpending', hnone'⟩
    · exact .inl (hsame'.trans hsame)
    · exact .inr ⟨hsame ▸ hpending', hnone'⟩
  · rcases h' k with hsame' | ⟨hpending', -⟩
    · exact .inr ⟨hpending, hsame'.trans hnone⟩
    · rw [hnone] at hpending'
      cases hpending'

theorem Clears.resolved?_eq (h : Clears g g') (k : String) : g'.resolved? k = g.resolved? k := by
  rcases h k with hsame | ⟨hpending, hnone⟩
  · exact resolved?_congr hsame
  · unfold resolved?
    rw [hpending, hnone]

theorem Clears.resolvedKeys_eq (h : Clears g g') : g'.resolvedKeys = g.resolvedKeys := by
  simp only [resolvedKeys, h.resolved?_eq]

theorem Clears.pending (h : Clears g g') (hk : Assoc.get? k g'.entries = some .pending) :
    Assoc.get? k g.entries = some .pending := by
  rcases h k with hsame | ⟨-, hnone⟩
  · rwa [← hsame]
  · rw [hnone] at hk
    cases hk

theorem clears_forgetPending (key : String) (g : TypeGraph) :
    Clears g ((forgetPending key).run g).2 ∧
      Assoc.get? key ((forgetPending key).run g).2.entries ≠ some .pending := by
  show Clears g (if Assoc.get? key g.entries = some .pending then _ else g) ∧
    Assoc.get? key (if Assoc.get? key g.entries = some .pending then _ else g :
      TypeGraph).entries ≠ some .pending
  by_cases hkey : Assoc.get? key g.entries = some .pending
  · rw [if_pos hkey]
    refine ⟨fun k => ?_, by simp [Assoc.get?_drop_self]⟩
    by_cases hk : k = key
    · exact .inr ⟨hk ▸ hkey, hk ▸ Assoc.get?_drop_self key g.entries⟩
    · exact .inl (Assoc.get?_drop_of_ne hk g.entries)
  · rw [if_neg hkey]
    exact ⟨.refl g, hkey⟩

/-- A failure that is the outcome of the whole scan. -/
def Fatal (o : Except Error Unit) : Prop :=
  ∃ e, o = .error e ∧ ∀ name reason, e ≠ .notSupported name reason

/-- A key whose outcome is no success is taken out. -/
theorem mem_filter_and_iff {key : String} {o : Outcome} (ho : o ≠ some (.ok ()))
    (ns : List String) (rest : List (String × Outcome)) :
    (k ∈ ns.filter (· ≠ key) ∧ ∀ o, (k, o) ∈ rest → o = some (.ok ())) ↔
      k ∈ ns ∧ ∀ o', (k, o') ∈ (key, o) :: rest → o' = some (.ok ()) := by
  rw [List.mem_filter, decide_eq_true_iff, and_assoc]
  refine and_congr_right fun _ => ⟨?_, fun h => ?_⟩
  · rintro ⟨hne, hrest⟩ o' ho'
    rcases List.mem_cons.mp ho' with heq | hmem
    · exact absurd (Prod.mk.inj heq).1 hne
    · exact hrest o' hmem
  · refine ⟨fun hk => ho (h o (hk ▸ List.mem_cons_self)), fun o' ho' => ?_⟩
    exact h o' (List.mem_cons_of_mem _ ho')

/-- **Outcomes are settled** to the names without a failure or a cancellation, unless one of the
failures is fatal. A name that failed is not pending afterwards. -/
theorem ends_settle (outcomes : List (String × Outcome)) (ns : List String) (g : TypeGraph) :
    Ends (settle ns outcomes) g
      (fun ns' g' => (∀ k, k ∈ ns' ↔ k ∈ ns ∧ ∀ o, (k, o) ∈ outcomes → o = some (.ok ())) ∧
        (∀ k o, (k, some o) ∈ outcomes → o = .ok () ∨
          ¬ Fatal o ∧ Assoc.get? k g'.entries ≠ some .pending) ∧ Clears g g')
      (fun _ _ => ∃ k o, (k, some o) ∈ outcomes ∧ Fatal o) := by
  induction outcomes generalizing ns g with
  | nil => exact ⟨by simp, by simp, .refl g⟩
  | cons outcome rest ih =>
    have hlater : (∃ k o, (k, some o) ∈ rest ∧ Fatal o) →
        ∃ k o, (k, some o) ∈ outcome :: rest ∧ Fatal o := by
      rintro ⟨k, o, hmem, hfatal⟩
      exact ⟨k, o, List.mem_cons_of_mem _ hmem, hfatal⟩
    rcases outcome with ⟨key, _ | e | ⟨⟩⟩
    -- The scan was cancelled before the name; the key is taken out and left as it is.
    · refine (ih (ns.filter (· ≠ key)) g).mono ?_ fun _ _ h => hlater h
      rintro ns' g' ⟨hmem, hsettled, hclears⟩
      exact ⟨fun k => (hmem k).trans (mem_filter_and_iff (by simp) ns rest),
        by simpa using hsettled, hclears⟩
    · cases e with
      | notSupported name reason =>
        obtain ⟨hforget, hkey⟩ := clears_forgetPending key g
        refine ends_bind.mpr ((ih (ns.filter (· ≠ key)) _).mono ?_ fun _ _ h => hlater h)
        rintro ns' g' ⟨hmem, hsettled, hclears⟩
        refine ⟨fun k => (hmem k).trans (mem_filter_and_iff (by simp) ns rest), fun k o ho => ?_,
          hforget.trans hclears⟩
        rcases List.mem_cons.mp ho with heq | ho
        · obtain ⟨rfl, hsome⟩ := Prod.mk.inj heq
          obtain rfl := Option.some.inj hsome
          refine .inr ⟨?_, fun hpending => hkey (hclears.pending hpending)⟩
          rintro ⟨e, he, hne⟩
          exact hne name reason (Except.error.inj he).symm
        · exact hsettled k o ho
      -- Any other failure ends the scan.
      | _ => exact ⟨key, _, List.mem_cons_self, _, rfl, by simp⟩
    · refine (ih ns g).mono ?_ fun _ _ h => hlater h
      rintro ns' g' ⟨hmem, hsettled, hclears⟩
      refine ⟨fun k => (hmem k).trans (and_congr_right fun _ => ?_), fun k o ho => ?_, hclears⟩
      · simp only [List.mem_cons, Prod.mk.injEq, or_imp, forall_and]
        exact ⟨fun h => ⟨fun o ho => ho.2, h⟩, fun h => h.2⟩
      · rcases List.mem_cons.mp ho with heq | ho
        · exact .inl (Option.some.inj (Prod.mk.inj heq).2)
        · exact hsettled k o ho

end Settle

theorem mem_insertSorted {s : String} {xs : List String} :
    k ∈ insertSorted s xs ↔ k = s ∨ k ∈ xs := by
  fun_induction insertSorted s xs with
  | case1 => simp
  | case2 => simp
  | case3 => simp
  | case4 t rest _ _ ih => simp [ih, or_left_comm]

theorem mem_sortedSet {xs : List String} : k ∈ sortedSet xs ↔ k ∈ xs := by
  have hfold : ∀ acc, k ∈ xs.foldl (fun acc s => insertSorted s acc) acc ↔ k ∈ acc ∨ k ∈ xs := by
    induction xs with
    | nil => simp
    | cons s xs ih =>
      intro acc
      rw [List.foldl_cons, ih, mem_insertSorted, List.mem_cons]
      tauto
  exact (hfold []).trans (by simp)

/-- A scan of a fresh graph, for names in a given order. -/
def scan (c : Catalog) (qs : List QName) : Except Error (List String) × TypeGraph :=
  (names (c.listing qs) none none).run {}

/-- A fresh graph that has noted names holds nothing else. -/
theorem get?_noting_empty {e : Entry} (he : e ≠ .pending) (k : String) :
    Assoc.get? k (({} : TypeGraph).noting qs).entries ≠ some e := fun h => by
  cases (get?_noting_eq_some_iff {} qs k he).mp h

/-- A scan of a fresh graph notes all names, resolves them and settles the outcomes. -/
theorem run_names_listing (c : Catalog) (qs : List QName) :
    (names (c.listing qs) none none).run {} =
      (settle (sortedSet (qs.map QName.key))
        ((discoverAll c none qs).run (({} : TypeGraph).noting qs)).1).run
        ((discoverAll c none qs).run (({} : TypeGraph).noting qs)).2 := by
  have hall : scanned none qs = qs := List.filter_eq_self.mpr fun _ _ => rfl
  have hfresh : ({} : TypeGraph).unresolved qs = qs := List.filter_eq_self.mpr fun _ _ => rfl
  have hlisted : (c.listing qs).typeNames = .ok qs := rfl
  rw [run_names hlisted, hall, hfresh, discoverAll_listing]

/-- **What a scan comes to**, if every name on its own leaves a closed graph. -/
theorem ends_names (hkeys : c.OneTypePerKey qs) (hclosed : ∀ q ∈ qs, (onItsOwn c q).Closed) :
    Ends (names (c.listing qs) none none) {}
      (fun ns g => (∀ q ∈ qs, ¬ Fatal (outcome c q)) ∧
        (∀ k, k ∈ ns ↔ (∃ q ∈ qs, q.key = k) ∧ ∀ q ∈ qs, q.key = k → outcome c q = .ok ()) ∧
        g.resolvedKeys = ownKeys c qs)
      (fun _ _ => ∃ q ∈ qs, Fatal (outcome c q)) := by
  have hempty : (({} : TypeGraph).noting qs).resolvedKeys = ∅ := by
    refine Set.eq_empty_of_forall_notMem fun k hk => ?_
    obtain ⟨d, hd⟩ := Option.isSome_iff_exists.mp hk
    exact get?_noting_empty (by simp) k (resolved?_eq_some_iff.mp hd)
  have hwhole : Whole c qs (({} : TypeGraph).noting qs).resolvedKeys := by
    rw [hempty]
    exact fun q _ hq => absurd hq (Set.notMem_empty _)
  obtain ⟨houts, hdone⟩ := comes_discoverAll hkeys hclosed (fun _ h => h) hwhole
    (get?_noting_empty (by simp))
  unfold Ends
  rw [run_names_listing, houts]
  refine (ends_settle _ (sortedSet (qs.map QName.key)) _).mono ?_ ?_
  · rintro ns g ⟨hmem, hsettled, hclears⟩
    refine ⟨fun q hq => ?_, fun k => ?_, ?_⟩
    · rcases hsettled q.key _ (List.mem_map.mpr ⟨q, hq, rfl⟩) with hok | ⟨hfatal, -⟩
      · rw [hok]
        rintro ⟨e, he, -⟩
        cases he
      · exact hfatal
    · rw [hmem k, mem_sortedSet, List.mem_map]
      refine and_congr_right fun _ => ⟨fun h q hq hk => ?_, fun h o ho => ?_⟩
      · exact Option.some.inj (h _ (List.mem_map.mpr ⟨q, hq, by rw [hk]⟩))
      · obtain ⟨q, hq, heq⟩ := List.mem_map.mp ho
        obtain ⟨hk, rfl⟩ := Prod.mk.inj heq
        rw [h q hq hk]
    · rw [hclears.resolvedKeys_eq, hdone, hempty, Set.empty_union]
  · rintro e g ⟨k, o, ho, hfatal⟩
    obtain ⟨q, hq, heq⟩ := List.mem_map.mp ho
    obtain ⟨-, rfl⟩ : q.key = k ∧ outcome c q = o := by simpa using heq
    exact ⟨q, hq, hfatal⟩

/-! ## Any order -/

/-- Two scans both fail, or give the same names and leave the same keys resolved. -/
def SameScan (x y : Except Error (List String) × TypeGraph) : Prop :=
  ((∃ e, x.1 = .error e) ∧ ∃ e, y.1 = .error e) ∨
    ∃ ns ns', x.1 = .ok ns ∧ y.1 = .ok ns' ∧ (∀ k, k ∈ ns ↔ k ∈ ns') ∧
      x.2.resolvedKeys = y.2.resolvedKeys

/-- **The order of the names makes no difference to a scan** of a fresh graph, if every name on its
own leaves a closed graph. Queries may fail. -/
theorem sameScan_of_perm {qs' : List QName} (hperm : qs.Perm qs') (hkeys : c.OneTypePerKey qs)
    (hclosed : ∀ q ∈ qs, (onItsOwn c q).Closed) : SameScan (scan c qs) (scan c qs') := by
  have hends := ends_names hkeys hclosed
  have hends' := ends_names (hkeys.subset hperm.symm.subset) fun q hq =>
    hclosed q (hperm.mem_iff.mpr hq)
  simp only [← hperm.mem_iff, ← ownKeys_eq_of_perm hperm] at hends'
  -- Whether a scan fails is decided by what comes of the names on their own.
  by_cases hfatal : ∃ q ∈ qs, Fatal (outcome c q)
  · obtain ⟨q, hq, hfatal⟩ := hfatal
    obtain ⟨e, g, he, -⟩ := hends.exists_error fun _ _ h => h.1 q hq hfatal
    obtain ⟨e', g', he', -⟩ := hends'.exists_error fun _ _ h => h.1 q hq hfatal
    exact .inl ⟨⟨e, congrArg Prod.fst he⟩, e', congrArg Prod.fst he'⟩
  · obtain ⟨ns, g, hns, -, hmem, hdone⟩ := hends.exists_gives fun _ _ => hfatal
    obtain ⟨ns', g', hns', -, hmem', hdone'⟩ := hends'.exists_gives fun _ _ => hfatal
    refine .inr ⟨ns, ns', congrArg Prod.fst hns, congrArg Prod.fst hns',
      fun k => (hmem k).trans (hmem' k).symm, ?_⟩
    rw [scan, scan, hns, hns']
    exact hdone.trans hdone'.symm

/-! ## Bills with memos -/

/-- The names that the definition of a name mentions. -/
def mentionedBy (c : Catalog) (q : QName) : List QName :=
  match c.classify q with
  | .ok (some cls) =>
    match ((fetch c q cls).run {}).1 with
    | .ok raw => raw.parts.filterMap fun
      | .named r => some r
      | .scalar _ => none
    | .error _ => []
  | _ => []

theorem mem_mentionedBy {r : QName} (h : c.Mentions q r) : r ∈ mentionedBy c q := by
  obtain ⟨raw, hraw, hr⟩ := h
  obtain ⟨cls, hcls⟩ := hraw.exists_classify
  obtain ⟨raw', g', hgives, -, hraw'⟩ := (ends_fetch hcls {}).exists_gives
    fun _ _ hno => hno.2 raw hraw
  obtain rfl := hraw'.unique hraw
  have hfetch : ((fetch c q cls).run {}).1 = .ok raw' := congrArg Prod.fst hgives
  simp only [mentionedBy, hcls, hfetch]
  exact List.mem_filterMap.mpr ⟨_, hr, rfl⟩

/-- Keys tell types apart if they tell the names of a list apart that nothing leads out of. -/
theorem oneTypePerKey_of_injOn (ms : List QName) (hqs : qs ⊆ ms)
    (hclosed : ∀ q ∈ ms, mentionedBy c q ⊆ ms)
    (hinj : ∀ q ∈ ms, ∀ r ∈ ms, q.key = r.key → q = r) : c.OneTypePerKey qs := by
  have hmet : ∀ {q}, c.Met qs q → q ∈ ms := by
    rintro q ⟨p, hp, hlead⟩
    induction hlead with
    | refl => exact hqs hp
    | tail _ hmention ih => exact hclosed _ ih (mem_mentionedBy hmention)
  intro q r raw hq hr hkey hraw
  rwa [hinj q (hmet hq) r (hmet hr) hkey] at hraw

/-- The name of a type of the shop. -/
def shop (name : String) : QName := { owner := "S", name := name }

/-- Orders and their lines refer to each other. A bill refers to the one before it, to an order and
to a memo; a memo has no attributes, so it is not supported. -/
def bills : Store where
  owner := "S"
  types := [
    ("S.BILL_T", .record [⟨"LAST", .named (shop "BILL_T")⟩, ⟨"ORDER", .named (shop "ORDER_T")⟩,
      ⟨"MEMO", .named (shop "MEMO_T")⟩]),
    ("S.ORDER_T", .record [⟨"LINES", .named (shop "LINES_T")⟩]),
    ("S.LINES_T", .collection ⟨"", .named (shop "LINE_T")⟩ none),
    ("S.LINE_T", .record [⟨"QTY", .scalar { name := "NUMBER" }⟩,
      ⟨"ORDER", .named (shop "ORDER_T")⟩]),
    ("S.MEMO_T", .record [])]

theorem oneTypePerKey_bills :
    bills.catalog.OneTypePerKey [shop "BILL_T", shop "LINE_T", shop "MEMO_T"] :=
  oneTypePerKey_of_injOn
    [shop "BILL_T", shop "ORDER_T", shop "LINES_T", shop "LINE_T", shop "MEMO_T"]
    (by decide +kernel) (by decide +kernel) (by decide +kernel)

/-- A bill fails after its order was resolved, and still the order of the names does not matter. -/
theorem bills_sameScan :
    [shop "BILL_T", shop "LINE_T", shop "MEMO_T"].Perm
      [shop "MEMO_T", shop "LINE_T", shop "BILL_T"] ∧
    bills.catalog.OneTypePerKey [shop "BILL_T", shop "LINE_T", shop "MEMO_T"] ∧
    (∀ q ∈ [shop "BILL_T", shop "LINE_T", shop "MEMO_T"], (onItsOwn bills.catalog q).Closed) ∧
    SameScan (scan bills.catalog [shop "BILL_T", shop "LINE_T", shop "MEMO_T"])
      (scan bills.catalog [shop "MEMO_T", shop "LINE_T", shop "BILL_T"]) := by
  have hperm : [shop "BILL_T", shop "LINE_T", shop "MEMO_T"].Perm
      [shop "MEMO_T", shop "LINE_T", shop "BILL_T"] := by decide +kernel
  have hclosed : ∀ q ∈ [shop "BILL_T", shop "LINE_T", shop "MEMO_T"],
      (onItsOwn bills.catalog q).Closed := by decide +kernel
  exact ⟨hperm, oneTypePerKey_bills, hclosed, sameScan_of_perm hperm oneTypePerKey_bills hclosed⟩

/-- An order refers to a line and to a memo, which is not supported; a line refers to an order. -/
def memos : Store where
  owner := "S"
  types := [
    ("S.ORDER_T", .record [⟨"LINE", .named (shop "LINE_T")⟩, ⟨"MEMO", .named (shop "MEMO_T")⟩]),
    ("S.LINE_T", .record [⟨"ORDER", .named (shop "ORDER_T")⟩]),
    ("S.MEMO_T", .record [])]

/-- **The order of the names can matter.** A scan that comes to the order first finishes the line,
and keeps it when it drops the order for its memo: the line is listed. A scan that comes to the line
first drops it together with the order, and does not list it. -/
theorem memos_order_matters :
    [shop "ORDER_T", shop "LINE_T", shop "MEMO_T"].Perm
      [shop "LINE_T", shop "ORDER_T", shop "MEMO_T"] ∧
    (scan memos.catalog [shop "ORDER_T", shop "LINE_T", shop "MEMO_T"]).1 = .ok ["S.LINE_T"] ∧
    (scan memos.catalog [shop "LINE_T", shop "ORDER_T", shop "MEMO_T"]).1 = .ok [] ∧
    ¬ SameScan (scan memos.catalog [shop "ORDER_T", shop "LINE_T", shop "MEMO_T"])
      (scan memos.catalog [shop "LINE_T", shop "ORDER_T", shop "MEMO_T"]) := by
  have hfirst : (scan memos.catalog [shop "ORDER_T", shop "LINE_T", shop "MEMO_T"]).1 =
      .ok ["S.LINE_T"] := by decide +kernel
  have hsecond : (scan memos.catalog [shop "LINE_T", shop "ORDER_T", shop "MEMO_T"]).1 =
      .ok [] := by decide +kernel
  refine ⟨by decide +kernel, hfirst, hsecond, ?_⟩
  rintro (⟨⟨e, he⟩, -⟩ | ⟨ns, ns', hns, hns', hmem, -⟩)
  · rw [hfirst] at he
    cases he
  · rw [hfirst] at hns
    rw [hsecond] at hns'
    cases hns
    cases hns'
    exact List.not_mem_nil ((hmem "S.LINE_T").mp List.mem_cons_self)

end TypeGraph

end StoredCall
