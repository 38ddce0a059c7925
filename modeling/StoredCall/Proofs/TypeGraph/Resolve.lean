import StoredCall.Proofs.Assoc
import StoredCall.Proofs.TypeGraph.Describe

/-!
# Resolving

While a name is resolved, the names above it are open: each of them leads to the one below. A name
that is open is taken for resolved by the names below it, so a type may be kept that refers to an
open one. When the open one is resolved too, nothing is missing; when it fails, it is dropped, and
what was kept below it still refers to it.

* `TypeGraph.Sound full refused stack g`: what holds of a graph while the names of `stack` are open.
  Every definition is the catalog's, and a reference that is not resolved leads to an open name, or
  to one that was dropped because it leads to a refused name.
* `TypeGraph.Sound.push`, `finish` and `abandon`: opening, finishing and dropping a name keep a
  graph sound.
* `TypeGraph.ends_install`: so does resolving a name, whether it succeeds or fails, and it fails
  only if the name leads to a refused one.
* `TypeGraph.room_induction`: the allowance is never used up. Each open name takes a key of the
  catalog, and there is one to spend for each.
-/

namespace StoredCall.TypeGraph

variable {full c : Catalog} {refused : QName → Prop} {stack : List QName} {g g' : TypeGraph}
  {q : QName} {raw : RawDef} {k : String}

/-! ## Entries -/

/-- The graph with a key in a state. -/
def marked (g : TypeGraph) (key : String) (e : Entry) : TypeGraph :=
  { g with entries := Assoc.put key e g.entries }

/-- The graph without a key. -/
def without (g : TypeGraph) (key : String) : TypeGraph :=
  { g with entries := Assoc.drop key g.entries }

theorem resolved?_eq_some_iff {d : TypeDef} :
    g.resolved? k = some d ↔ Assoc.get? k g.entries = some (.resolved d) := by
  unfold resolved?
  split
  · next d' hd => simp [hd]
  · next hno =>
    refine ⟨fun h => by simp at h, fun h => absurd h (hno d)⟩

theorem get?_marked_self (g : TypeGraph) (k : String) (e : Entry) :
    Assoc.get? k (g.marked k e).entries = some e := Assoc.get?_put_self k e g.entries

theorem get?_marked_of_ne {l : String} (h : l ≠ k) (e : Entry) :
    Assoc.get? l (g.marked k e).entries = Assoc.get? l g.entries :=
  Assoc.get?_put_of_ne h e g.entries

theorem get?_without_self (g : TypeGraph) (k : String) :
    Assoc.get? k (g.without k).entries = none := Assoc.get?_drop_self k g.entries

theorem get?_without_of_ne {l : String} (h : l ≠ k) :
    Assoc.get? l (g.without k).entries = Assoc.get? l g.entries :=
  Assoc.get?_drop_of_ne h g.entries

theorem resolved?_congr (h : Assoc.get? k g'.entries = Assoc.get? k g.entries) :
    g'.resolved? k = g.resolved? k := by
  unfold resolved?
  rw [h]

theorem isOpenOrDone_iff_resolved_or_resolving : g.isOpenOrDone k = true ↔
    (g.resolved? k).isSome = true ∨ Assoc.get? k g.entries = some .resolving := by
  unfold isOpenOrDone resolved?
  rcases Assoc.get? k g.entries with _ | _ | _ | d <;> simp

/-- Everything that is resolved stays as it is. -/
def Kept (g g' : TypeGraph) : Prop := ∀ k d, g.resolved? k = some d → g'.resolved? k = some d

theorem Kept.trans {g'' : TypeGraph} (h : Kept g g') (h' : Kept g' g'') : Kept g g'' :=
  fun k d hk => h' k d (h k d hk)

theorem Kept.isSome (h : Kept g g') (hk : (g.resolved? k).isSome = true) :
    (g'.resolved? k).isSome = true := by
  obtain ⟨d, hd⟩ := Option.isSome_iff_exists.mp hk
  rw [h k d hd]
  rfl

theorem Kept.of_entries_eq (h : g'.entries = g.entries) : Kept g g' := fun k d hk => by
  rw [resolved?_eq_some_iff] at hk ⊢
  rwa [h]

/-- A key that was not resolved is opened, and changes once more at the end. -/
theorem Kept.around {g₁ : TypeGraph} (hnew : g.resolved? k = none)
    (h : Kept (g.marked k .resolving) g₁)
    (hother : ∀ l, l ≠ k → Assoc.get? l g'.entries = Assoc.get? l g₁.entries) : Kept g g' := by
  intro l d hl
  have hne : l ≠ k := fun heq => by
    rw [heq, hnew] at hl
    cases hl
  rw [resolved?_congr (hother l hne)]
  exact h l d ((resolved?_congr (get?_marked_of_ne hne _)).trans hl)

/-! ## Sound graphs -/

/-- A name leads to one that is refused. -/
def Doomed (full : Catalog) (refused : QName → Prop) (q : QName) : Prop :=
  ∃ r, full.Leads q r ∧ refused r

/-- What holds of a graph while the names of `stack` are open. -/
structure Sound (full : Catalog) (refused : QName → Prop) (stack : List QName) (g : TypeGraph) :
    Prop where
  keyed : Assoc.Keyed g.entries
  /-- The keys that are being resolved are those of the open names. -/
  opened : ∀ k, Assoc.get? k g.entries = some .resolving ↔ ∃ p ∈ stack, p.key = k
  /-- Definitions are those of the catalog. -/
  defined : ∀ {k d}, g.resolved? k = some d →
    ∃ q raw, q.key = k ∧ full.Describes q raw ∧ d = raw.typeDef
  /-- References are resolved, or go back to a name that is open or was dropped. -/
  linked : ∀ {k d l}, g.resolved? k = some d → .named l ∈ d.refs →
    (g.resolved? l).isSome = true ∨ ∃ p q, p.key = l ∧ q.key = k ∧ full.Leads p q ∧
      (p ∈ stack ∨ Doomed full refused p)

theorem sound_empty (full : Catalog) (refused : QName → Prop) : Sound full refused [] {} where
  keyed := List.nodup_nil
  opened := by simp [Assoc.get?]
  defined h := by simp [resolved?, Assoc.get?] at h
  linked h := by simp [resolved?, Assoc.get?] at h

namespace Sound

/-- A graph with the same resolved and open keys is sound as well. -/
theorem congr (hs : Sound full refused stack g) (hkeyed : Assoc.Keyed g'.entries)
    (hres : ∀ k, g'.resolved? k = g.resolved? k)
    (hopen : ∀ k, Assoc.get? k g'.entries = some .resolving ↔
      Assoc.get? k g.entries = some .resolving) : Sound full refused stack g' where
  keyed := hkeyed
  opened k := (hopen k).trans (hs.opened k)
  defined hk := hs.defined (by rwa [hres] at hk)
  linked hk hl := by
    rw [hres] at hk ⊢
    exact hs.linked hk hl

theorem of_entries_eq (hs : Sound full refused stack g) (h : g'.entries = g.entries) :
    Sound full refused stack g' :=
  hs.congr (h ▸ hs.keyed) (fun k => resolved?_congr (by rw [h])) (fun k => by rw [h])

/-- A name is open or resolved just if its key is marked so. -/
theorem isOpenOrDone_iff (hs : Sound full refused stack g) : g.isOpenOrDone k = true ↔
    (g.resolved? k).isSome = true ∨ ∃ p ∈ stack, p.key = k := by
  rw [← hs.opened k, isOpenOrDone_iff_resolved_or_resolving]

/-- A key that is neither resolved nor open. -/
def New (stack : List QName) (g : TypeGraph) (k : String) : Prop :=
  g.resolved? k = none ∧ ∀ p ∈ stack, p.key ≠ k

/-- Opening a name. -/
theorem push (hs : Sound full refused stack g) (hnew : New stack g q.key) :
    Sound full refused (q :: stack) (g.marked q.key .resolving) := by
  have hself : (g.marked q.key .resolving).resolved? q.key = none := by
    unfold resolved?
    rw [get?_marked_self]
  have hres : ∀ k, (g.marked q.key .resolving).resolved? k = g.resolved? k := fun k => by
    by_cases hk : k = q.key
    · rw [hk, hself, hnew.1]
    · exact resolved?_congr (get?_marked_of_ne hk _)
  exact {
    keyed := Assoc.keyed_put hs.keyed _
    opened := fun k => by
      by_cases hk : k = q.key
      · rw [hk, get?_marked_self]
        simp
      · rw [get?_marked_of_ne hk, hs.opened k]
        simp [Ne.symm hk]
    defined := fun {k d} hd => hs.defined (by rwa [hres] at hd)
    linked := fun {k d l} hd hl => by
      rw [hres] at hd ⊢
      rcases hs.linked hd hl with hdone | ⟨p, r, hp, hr, hlead, hstack | hdoom⟩
      · exact .inl hdone
      · exact .inr ⟨p, r, hp, hr, hlead, .inl (List.mem_cons_of_mem q hstack)⟩
      · exact .inr ⟨p, r, hp, hr, hlead, .inr hdoom⟩ }

/-- Finishing a name, whose references are resolved or open. -/
theorem finish (hs : Sound full refused (q :: stack) g) (hfresh : ∀ p ∈ stack, p.key ≠ q.key)
    (hchain : ∀ p ∈ stack, full.Leads p q) (hraw : full.Describes q raw)
    (hrefs : ∀ l, .named l ∈ raw.typeDef.refs →
      (g.resolved? l).isSome = true ∨ ∃ p ∈ q :: stack, p.key = l) :
    Sound full refused stack (g.marked q.key (.resolved raw.typeDef)) := by
  have hself : (g.marked q.key (.resolved raw.typeDef)).resolved? q.key = some raw.typeDef :=
    resolved?_eq_some_iff.mpr (get?_marked_self g _ _)
  have hother : ∀ {k}, k ≠ q.key →
      (g.marked q.key (.resolved raw.typeDef)).resolved? k = g.resolved? k := fun hk =>
    resolved?_congr (get?_marked_of_ne hk _)
  have hsome : ∀ {l}, (g.resolved? l).isSome = true ∨ l = q.key →
      ((g.marked q.key (.resolved raw.typeDef)).resolved? l).isSome = true := fun {l} h => by
    by_cases hl : l = q.key
    · rw [hl, hself]
      rfl
    · rw [hother hl]
      exact h.resolve_right hl
  exact {
    keyed := Assoc.keyed_put hs.keyed _
    opened := fun k => by
      by_cases hk : k = q.key
      · rw [hk, get?_marked_self]
        simpa using hfresh
      · rw [get?_marked_of_ne hk, hs.opened k]
        simp [Ne.symm hk]
    defined := fun {k d} hd => by
      by_cases hk : k = q.key
      · rw [hk, hself] at hd
        exact ⟨q, raw, hk.symm, hraw, (Option.some.inj hd).symm⟩
      · rw [hother hk] at hd
        exact hs.defined hd
    linked := fun {k d l} hd hl => by
      by_cases hk : k = q.key
      · rw [hk, hself] at hd
        obtain rfl := Option.some.inj hd
        rcases hrefs l hl with hdone | ⟨p, hp, hpl⟩
        · exact .inl (hsome (.inl hdone))
        · rcases List.mem_cons.mp hp with rfl | hp
          · exact .inl (hsome (.inr hpl.symm))
          · exact .inr ⟨p, q, hpl, hk.symm, hchain p hp, .inl hp⟩
      · rw [hother hk] at hd
        rcases hs.linked hd hl with hdone | ⟨p, r, hp, hr, hlead, hstack | hdoom⟩
        · exact .inl (hsome (.inl hdone))
        · rcases List.mem_cons.mp hstack with rfl | hstack
          · exact .inl (hsome (.inr hp.symm))
          · exact .inr ⟨p, r, hp, hr, hlead, .inl hstack⟩
        · exact .inr ⟨p, r, hp, hr, hlead, .inr hdoom⟩ }

/-- Dropping a name that leads to a refused one. -/
theorem abandon (hs : Sound full refused (q :: stack) g) (hfresh : ∀ p ∈ stack, p.key ≠ q.key)
    (hdoom : Doomed full refused q) : Sound full refused stack (g.without q.key) := by
  have hopen : Assoc.get? q.key g.entries = some .resolving :=
    (hs.opened q.key).mpr ⟨q, List.mem_cons_self, rfl⟩
  have hres : ∀ k, (g.without q.key).resolved? k = g.resolved? k := fun k => by
    by_cases hk : k = q.key
    · unfold resolved?
      rw [hk, get?_without_self, hopen]
    · exact resolved?_congr (get?_without_of_ne hk)
  exact {
    keyed := Assoc.keyed_drop hs.keyed _
    opened := fun k => by
      by_cases hk : k = q.key
      · rw [hk, get?_without_self]
        simpa using hfresh
      · rw [get?_without_of_ne hk, hs.opened k]
        simp [Ne.symm hk]
    defined := fun {k d} hd => hs.defined (by rwa [hres] at hd)
    linked := fun {k d l} hd hl => by
      rw [hres] at hd ⊢
      rcases hs.linked hd hl with hdone | ⟨p, r, hp, hr, hlead, hstack | hdoom'⟩
      · exact .inl hdone
      · rcases List.mem_cons.mp hstack with rfl | hstack
        · exact .inr ⟨p, r, hp, hr, hlead, .inr hdoom⟩
        · exact .inr ⟨p, r, hp, hr, hlead, .inl hstack⟩
      · exact .inr ⟨p, r, hp, hr, hlead, .inr hdoom'⟩ }

end Sound

/-! ## Parts -/

/-- A key that is resolved or open. -/
def Held (stack : List QName) (g : TypeGraph) (k : String) : Prop :=
  (g.resolved? k).isSome = true ∨ ∃ p ∈ stack, p.key = k

theorem Kept.held (h : Kept g g') {k : String} (hk : Held stack g k) : Held stack g' k :=
  hk.imp_left h.isSome

/-- A step below open names: it keeps the graph sound, and what is resolved stays so. -/
structure Goes (full : Catalog) (refused : QName → Prop) (stack : List QName) (g g' : TypeGraph) :
    Prop where
  sound : Sound full refused stack g'
  kept : Kept g g'

theorem Goes.of_entries_eq (hs : Sound full refused stack g) (h : g'.entries = g.entries) :
    Goes full refused stack g g' :=
  ⟨hs.of_entries_eq h, Kept.of_entries_eq h⟩

theorem Goes.refl (hs : Sound full refused stack g) : Goes full refused stack g g :=
  .of_entries_eq hs rfl

theorem Goes.trans {g'' : TypeGraph} (h : Goes full refused stack g g')
    (h' : Goes full refused stack g' g'') : Goes full refused stack g g'' :=
  ⟨h'.sound, h.kept.trans h'.kept⟩

/-- A name may be resolved below open names. -/
structure Below (c full : Catalog) (stack : List QName) (r : QName) : Prop where
  chain : ∀ p ∈ stack, full.Leads p r
  mentioned : r.key ∈ c.mentioned

/-- The parts of a definition may be resolved while its name is open. -/
theorem below_of_mem_parts {r : QName} (hc : c.Within full) (hchain : ∀ p ∈ stack, full.Leads p q)
    (hraw : c.Describes q raw) (hr : .named r ∈ raw.parts) : Below c full (q :: stack) r := by
  have hmentions : full.Mentions q r := ⟨raw, hc.describes hraw, hr⟩
  refine ⟨fun p hp => ?_, hraw.mem_mentioned hr⟩
  rcases List.mem_cons.mp hp with rfl | hp
  · exact .single hmentions
  · exact (hchain p hp).tail hmentions

/-- A way to resolve names below open ones. -/
def Nests (c full : Catalog) (refused : QName → Prop) (stack : List QName)
    (install : QName → TypeClass → Resolve Unit) : Prop :=
  ∀ {g : TypeGraph} {r : QName} {cls : TypeClass}, Sound full refused stack g →
    Sound.New stack g r.key → Below c full stack r → c.classify r = .ok (some cls) →
      Ends (install r cls) g
        (fun _ g' => Goes full refused stack g g' ∧ (g'.resolved? r.key).isSome = true)
        (fun _ g' => Goes full refused stack g g' ∧ Doomed full refused r)

section Parts

variable {install : QName → TypeClass → Resolve Unit}

theorem doomed_of_refused {r : QName} (h : refused r) : Doomed full refused r :=
  ⟨r, Relation.ReflTransGen.refl, h⟩

theorem ends_childRef (hr : ∀ r, c.Refuses r → refused r)
    (hnest : Nests c full refused stack install) (hs : Sound full refused stack g)
    (t : AttributeType) (hbelow : ∀ r, t = .named r → Below c full stack r) :
    Ends (childRef c install t) g
      (fun ref g' => Goes full refused stack g g' ∧ ref = t.ref ∧
        ∀ l, ref = .named l → Held stack g' l)
      (fun _ g' => Goes full refused stack g g' ∧ ∃ r, t = .named r ∧ Doomed full refused r) := by
  have hstay : Goes full refused stack g g := .refl hs
  cases t with
  | scalar s => exact ⟨hstay, rfl, fun l hl => by cases hl⟩
  | named r =>
    simp only [childRef, ends_bind, ends_get]
    by_cases hopen : g.isOpenOrDone r.key = true
    · rw [if_neg (by simp [hopen])]
      refine ⟨hstay, rfl, fun l hl => ?_⟩
      cases hl
      exact hs.isOpenOrDone_iff.mp hopen
    · rw [if_pos (by simp [hopen]), ends_bind, ends_ask]
      have hnot : ¬ Held stack g r.key := fun h => hopen (hs.isOpenOrDone_iff.mpr h)
      cases hcls : c.classify r with
      | error e =>
        exact ⟨hstay, r, rfl,
          doomed_of_refused (hr r (Catalog.refuses_of_classify (by simp [hcls])))⟩
      | ok answer =>
        have hasked : Goes full refused stack g { g with asked := g.asked + 1 } :=
          .of_entries_eq hs rfl
        cases answer with
        | none =>
          exact ⟨hasked, r, rfl,
            doomed_of_refused (hr r (Catalog.refuses_of_classify (by simp [hcls])))⟩
        | some cls =>
          have hnew : Sound.New stack { g with asked := g.asked + 1 } r.key := by
            refine ⟨Option.eq_none_iff_forall_ne_some.mpr fun d hd => hnot (.inl ?_),
              fun p hp hpr => hnot (.inr ⟨p, hp, hpr⟩)⟩
            exact Option.isSome_iff_exists.mpr ⟨d, hd⟩
          refine ends_bind.mpr ((hnest hasked.sound hnew (hbelow r rfl) hcls).mono ?_ ?_)
          · rintro u g' ⟨hgoes, hdone⟩
            refine ⟨hasked.trans hgoes, rfl, fun l hl => ?_⟩
            cases hl
            exact .inl hdone
          · rintro e g' ⟨hgoes, hdoom⟩
            exact ⟨hasked.trans hgoes, r, rfl, hdoom⟩

theorem ends_fieldRefs (hr : ∀ r, c.Refuses r → refused r)
    (hnest : Nests c full refused stack install) (hs : Sound full refused stack g)
    (as : List Attribute) (hbelow : ∀ a ∈ as, ∀ r, a.type = .named r → Below c full stack r) :
    Ends (fieldRefs c install as) g
      (fun fields g' => Goes full refused stack g g' ∧ fields = as.map Attribute.field ∧
        ∀ f ∈ fields, ∀ l, f.type = .named l → Held stack g' l)
      (fun _ g' => Goes full refused stack g g' ∧
        ∃ a ∈ as, ∃ r, a.type = .named r ∧ Doomed full refused r) := by
  induction as generalizing g with
  | nil => exact ⟨.refl hs, rfl, by simp⟩
  | cons a as ih =>
    rw [fieldRefs, ends_bind]
    refine (ends_childRef hr hnest hs a.type (hbelow a List.mem_cons_self)).mono ?_ ?_
    · rintro ref g₁ ⟨hgoes₁, rfl, hheld₁⟩
      rw [ends_bind]
      refine (ih hgoes₁.sound fun b hb => hbelow b (List.mem_cons_of_mem a hb)).mono ?_ ?_
      · rintro fields g₂ ⟨hgoes₂, rfl, hheld₂⟩
        refine ⟨hgoes₁.trans hgoes₂, rfl, fun f hf l hl => ?_⟩
        rcases List.mem_cons.mp hf with rfl | hf
        · exact hgoes₂.kept.held (hheld₁ l hl)
        · exact hheld₂ f hf l hl
      · rintro e g₂ ⟨hgoes₂, b, hb, hdoom⟩
        exact ⟨hgoes₁.trans hgoes₂, b, List.mem_cons_of_mem a hb, hdoom⟩
    · rintro e g₁ ⟨hgoes, hdoom⟩
      exact ⟨hgoes, a, List.mem_cons_self, hdoom⟩

/-- **Building a definition** gives the catalog's definition, with every reference resolved or
open. -/
theorem ends_build (hr : ∀ r, c.Refuses r → refused r)
    (hnest : Nests c full refused stack install) (hs : Sound full refused stack g) (raw : RawDef)
    (hbelow : ∀ r, .named r ∈ raw.parts → Below c full stack r) :
    Ends (build c install raw) g
      (fun d g' => Goes full refused stack g g' ∧ d = raw.typeDef ∧
        ∀ l, .named l ∈ d.refs → Held stack g' l)
      (fun _ g' => Goes full refused stack g g' ∧
        ∃ r, .named r ∈ raw.parts ∧ Doomed full refused r) := by
  cases raw with
  | scalar s => exact ⟨.refl hs, rfl, by simp [TypeDef.refs]⟩
  | record as =>
    rw [build, ends_bind]
    refine (ends_fieldRefs hr hnest hs as fun a ha r hra => hbelow r ?_).mono ?_ ?_
    · exact List.mem_map.mpr ⟨a, ha, hra⟩
    · rintro fields g' ⟨hgoes, rfl, hheld⟩
      refine ⟨hgoes, rfl, fun l hl => ?_⟩
      obtain ⟨f, hf, hfl⟩ := List.mem_map.mp hl
      exact hheld f hf l hfl
    · rintro e g' ⟨hgoes, a, ha, r, hra, hdoom⟩
      exact ⟨hgoes, r, List.mem_map.mpr ⟨a, ha, hra⟩, hdoom⟩
  | collection elem indexBy =>
    rw [build, ends_bind]
    refine (ends_childRef hr hnest hs elem.type fun r hra => hbelow r ?_).mono ?_ ?_
    · exact List.mem_singleton.mpr hra.symm
    · rintro ref g' ⟨hgoes, rfl, hheld⟩
      exact ⟨hgoes, rfl, fun l hl => hheld l (List.mem_singleton.mp hl).symm⟩
    · rintro e g' ⟨hgoes, r, hra, hdoom⟩
      exact ⟨hgoes, r, List.mem_singleton.mpr hra.symm, hdoom⟩

end Parts

/-! ## Names -/

/-- How many of the keys that a catalog mentions are not taken. -/
def untaken (c : Catalog) (taken : String → Bool) : Nat :=
  (c.mentioned.toFinset.filter fun k => taken k = false).card

section Untaken

variable {taken taken' : String → Bool}

theorem untaken_le (c : Catalog) (taken : String → Bool) :
    untaken c taken ≤ c.mentioned.length :=
  (Finset.card_filter_le _ _).trans (List.toFinset_card_le _)

theorem untaken_subset (h : ∀ l, taken l = true → taken' l = true) :
    (c.mentioned.toFinset.filter fun l => taken' l = false) ⊆
      c.mentioned.toFinset.filter fun l => taken l = false := by
  refine Finset.monotone_filter_right _ fun l _ hl => ?_
  rw [← Bool.not_eq_true] at hl ⊢
  exact fun htaken => hl (h l htaken)

theorem untaken_mono (h : ∀ l, taken l = true → taken' l = true) :
    untaken c taken' ≤ untaken c taken := Finset.card_le_card (untaken_subset h)

/-- Taking a key that the catalog mentions leaves fewer of them. -/
theorem untaken_lt (h : ∀ l, taken l = true → taken' l = true) (hk : k ∈ c.mentioned)
    (hfree : taken k = false) (htaken : taken' k = true) :
    untaken c taken' < untaken c taken := by
  refine Finset.card_lt_card ((Finset.ssubset_iff_of_subset (untaken_subset h)).mpr ⟨k, ?_, ?_⟩)
  · exact Finset.mem_filter.mpr ⟨List.mem_toFinset.mpr hk, hfree⟩
  · simp [htaken]

end Untaken

/-- How many keys that the catalog mentions are not those of open names. -/
def room (c : Catalog) (stack : List QName) : Nat :=
  untaken c fun k => (stack.map QName.key).contains k

theorem room_le (c : Catalog) (stack : List QName) : room c stack ≤ c.mentioned.length :=
  untaken_le c _

/-- A name can be opened: the catalog mentions its key, and it is not that of an open name. -/
structure Opens (c : Catalog) (stack : List QName) (r : QName) : Prop where
  mentioned : r.key ∈ c.mentioned
  new : ∀ p ∈ stack, p.key ≠ r.key

/-- Opening a name takes up room. -/
theorem Opens.room_lt {r : QName} (h : Opens c stack r) : room c (r :: stack) < room c stack :=
  untaken_lt (fun l hl => by simp_all) h.mentioned (by simpa using h.new) (by simp)

/-- **The allowance is never used up.** What holds while no name can be opened, and holds with one
more to spend once it holds below every name that can be opened, holds wherever there is room. -/
theorem room_induction {P : List QName → Nat → Prop}
    (hfull : ∀ {stack}, (∀ r, ¬ Opens c stack r) → P stack 0)
    (hopen : ∀ {stack depth}, (∀ r, Opens c stack r →
      room c (r :: stack) ≤ depth ∧ P (r :: stack) depth) → P stack (depth + 1))
    {depth : Nat} (hroom : room c stack ≤ depth) : P stack depth := by
  induction depth generalizing stack with
  | zero => exact hfull fun r hr => absurd (hr.room_lt.trans_le hroom) (Nat.not_lt_zero _)
  | succ depth ih =>
    refine hopen fun r hr => ?_
    have hleft : room c (r :: stack) ≤ depth := Nat.le_of_lt_succ (hr.room_lt.trans_le hroom)
    exact ⟨hleft, ih hleft⟩

theorem Doomed.head {r : QName} (h : full.Mentions q r) (hr : Doomed full refused r) :
    Doomed full refused q := by
  obtain ⟨s, hlead, hs⟩ := hr
  exact ⟨s, .head h hlead, hs⟩

/-- Resolving a part of a definition. -/
def nested (c : Catalog) (depth : Nat) (r : QName) (cls : TypeClass) : Resolve Unit := do
  let raw ← fetch c r cls
  discard (install c depth r raw)

/-- A name is open while its definition is built, then resolved or dropped. -/
theorem ends_install_succ {depth : Nat} {ok : TypeDef → TypeGraph → Prop}
    {fail : Error → TypeGraph → Prop} : Ends (install c (depth + 1) q raw) g ok fail ↔
      Ends (do
          let d ← build c (nested c depth) raw
          mark q.key (.resolved d)
          return d) (g.marked q.key .resolving) ok
        (fun e g' => fail e (g'.without q.key)) := by
  show Ends (mark q.key .resolving >>= fun _ => tryCatch _ _) g ok fail ↔ _
  rw [ends_bind]
  show Ends (tryCatch _ _) (g.marked q.key .resolving) ok fail ↔ _
  rw [ends_tryCatch]
  exact Iff.rfl

/-- Resolving a part is fetching its definition and resolving it from there. -/
theorem ends_nested_of_install (hr : ∀ r, c.Refuses r → refused r) {depth : Nat} {r : QName}
    {cls : TypeClass} (hs : Sound full refused stack g) (hnew : Sound.New stack g r.key)
    (hcls : c.classify r = .ok (some cls))
    (hinst : ∀ {g₁ : TypeGraph} {raw : RawDef}, Sound full refused stack g₁ →
      Sound.New stack g₁ r.key → c.Describes r raw → Ends (install c depth r raw) g₁
        (fun d g' => Goes full refused stack g₁ g' ∧ d = raw.typeDef ∧ g'.resolved? r.key = some d)
        (fun _ g' => Goes full refused stack g₁ g' ∧ Doomed full refused r)) :
    Ends (nested c depth r cls) g
      (fun _ g' => Goes full refused stack g g' ∧ (g'.resolved? r.key).isSome = true)
      (fun _ g' => Goes full refused stack g g' ∧ Doomed full refused r) := by
  refine ends_bind.mpr ((ends_fetch hcls g).mono ?_ ?_)
  · rintro raw g₁ ⟨hsame, hraw⟩
    have hgoes : Goes full refused stack g g₁ := .of_entries_eq hs hsame
    have hnew₁ : Sound.New stack g₁ r.key :=
      ⟨(resolved?_congr (by rw [hsame])).trans hnew.1, hnew.2⟩
    rw [ends_discard]
    refine (hinst hgoes.sound hnew₁ hraw).mono ?_ ?_
    · rintro d g₂ ⟨hgoes₂, -, hdone⟩
      exact ⟨hgoes.trans hgoes₂, by rw [hdone]; rfl⟩
    · rintro e g₂ ⟨hgoes₂, hdoom⟩
      exact ⟨hgoes.trans hgoes₂, hdoom⟩
  · rintro e g₁ ⟨hsame, hrefuses⟩
    exact ⟨.of_entries_eq hs hsame, doomed_of_refused (hr r hrefuses)⟩

/-- A name is resolved soundly if its parts are, while it is open. -/
theorem Nests.ends_install {depth : Nat}
    (hnest : Nests c full refused (q :: stack) (nested c depth)) (hc : c.Within full)
    (hr : ∀ r, c.Refuses r → refused r) (hs : Sound full refused stack g)
    (hnew : Sound.New stack g q.key) (hchain : ∀ p ∈ stack, full.Leads p q)
    (hraw : c.Describes q raw) :
    Ends (install c (depth + 1) q raw) g
      (fun d g' => Goes full refused stack g g' ∧ d = raw.typeDef ∧ g'.resolved? q.key = some d)
      (fun _ g' => Goes full refused stack g g' ∧ Doomed full refused q) := by
  have hfull : full.Describes q raw := hc.describes hraw
  have hpush : Sound full refused (q :: stack) (g.marked q.key .resolving) := hs.push hnew
  have hbelow : ∀ r, .named r ∈ raw.parts → Below c full (q :: stack) r := fun r hra =>
    below_of_mem_parts hc hchain hraw hra
  rw [ends_install_succ, ends_bind]
  refine (ends_build hr hnest hpush raw hbelow).mono ?_ ?_
  · rintro d g₁ ⟨hgoes, rfl, hheld⟩
    refine ⟨⟨hgoes.sound.finish hnew.2 hchain hfull hheld, ?_⟩, rfl, ?_⟩
    · exact hgoes.kept.around hnew.1 fun l hl => get?_marked_of_ne hl _
    · exact resolved?_eq_some_iff.mpr (get?_marked_self g₁ _ _)
  · rintro e g₁ ⟨hgoes, r, hra, hdoom⟩
    have hdoom : Doomed full refused q := hdoom.head ⟨raw, hfull, hra⟩
    refine ⟨⟨hgoes.sound.abandon hnew.2 hdoom, ?_⟩, hdoom⟩
    exact hgoes.kept.around hnew.1 fun l hl => get?_without_of_ne hl

/-- Parts are resolved soundly where there is room for them. -/
theorem nests_nested (hc : c.Within full) (hr : ∀ r, c.Refuses r → refused r) {depth : Nat}
    (hroom : room c stack ≤ depth) : Nests c full refused stack (nested c depth) := by
  refine room_induction (P := fun stack depth => Nests c full refused stack (nested c depth))
    ?_ ?_ hroom
  · intro stack hfull g r cls _ hnew hbelow _
    exact absurd ⟨hbelow.mentioned, hnew.2⟩ (hfull r)
  · intro stack depth hopen g r cls hs hnew hbelow hcls
    have hnest : Nests c full refused (r :: stack) (nested c depth) :=
      (hopen r ⟨hbelow.mentioned, hnew.2⟩).2
    exact ends_nested_of_install hr hs hnew hcls fun hs₁ hnew₁ hraw =>
      hnest.ends_install hc hr hs₁ hnew₁ hbelow.chain hraw

/-- **Resolving a name keeps a graph sound**, whether it succeeds or fails. It gives the definition
of the catalog, or the name leads to a refused one. -/
theorem ends_install (hc : c.Within full) (hr : ∀ r, c.Refuses r → refused r) {depth : Nat}
    (hs : Sound full refused stack g) (hnew : Sound.New stack g q.key)
    (hchain : ∀ p ∈ stack, full.Leads p q) (hraw : c.Describes q raw)
    (hroom : room c (q :: stack) ≤ depth) :
    Ends (install c (depth + 1) q raw) g
      (fun d g' => Goes full refused stack g g' ∧ d = raw.typeDef ∧ g'.resolved? q.key = some d)
      (fun _ g' => Goes full refused stack g g' ∧ Doomed full refused q) := by
  have hnest : Nests c full refused (q :: stack) (nested c depth) := nests_nested hc hr hroom
  exact hnest.ends_install hc hr hs hnew hchain hraw

/-- Resolving a part, when there is room for it. -/
theorem ends_nested (hc : c.Within full) (hr : ∀ r, c.Refuses r → refused r) {depth : Nat}
    {r : QName} {cls : TypeClass} (hs : Sound full refused stack g)
    (hnew : Sound.New stack g r.key) (hchain : ∀ p ∈ stack, full.Leads p r)
    (hcls : c.classify r = .ok (some cls)) (hroom : room c (r :: stack) ≤ depth) :
    Ends (nested c (depth + 1) r cls) g
      (fun _ g' => Goes full refused stack g g' ∧ (g'.resolved? r.key).isSome = true)
      (fun _ g' => Goes full refused stack g g' ∧ Doomed full refused r) :=
  ends_nested_of_install hr hs hnew hcls fun hs₁ hnew₁ hraw =>
    ends_install hc hr hs₁ hnew₁ hchain hraw hroom

end StoredCall.TypeGraph
