import StoredCall.Proofs.TypeGraph.Resolve

/-!
# Resolving with more types at hand

A graph may hold more resolved types than another one. Where a run on the poorer graph resolves a
name, a run on the richer one may find it resolved and pass on. If what the richer graph has more
is complete in itself, nothing else differs: both runs come to the same, and the richer graph is
richer by the same keys afterwards.

* `TypeGraph.Adds c root g g'`: only the keys of names that `root` leads to change, and what is
  resolved under them has the definition of such a name.
* `TypeGraph.Whole c qs R`: the names of the keys `R` have definitions, and mention names of `R`
  only. Resolving one of them succeeds and changes nothing outside `R`.
* `TypeGraph.Beside R g g₀`: the graph `g` has the keys `R` resolved beside those of `g₀`.
* **`TypeGraph.alike_discover`**: resolving a name comes to the same on both, and leaves them side
  by side.
-/

namespace StoredCall

open TypeGraph (RawDef)

/-- The names that those of a list lead to. -/
def Catalog.Met (c : Catalog) (qs : List QName) (q : QName) : Prop := ∃ p ∈ qs, c.Leads p q

theorem Catalog.Met.leads {c : Catalog} {qs : List QName} {q r : QName} (h : c.Met qs q)
    (hr : c.Leads q r) : c.Met qs r := by
  obtain ⟨p, hp, hq⟩ := h
  exact ⟨p, hp, hq.trans hr⟩

theorem Catalog.Describes.exists_classify {c : Catalog} {q : QName} {raw : RawDef}
    (h : c.Describes q raw) : ∃ cls, c.classify q = .ok (some cls) := by
  by_contra hno
  exact Catalog.refuses_of_classify (fun cls hcls => hno ⟨cls, hcls⟩) raw h

namespace TypeGraph

variable {c : Catalog} {qs : List QName} {R : Set String} {root q r : QName} {raw : RawDef}
  {stack : List QName} {g g' g₀ : TypeGraph} {k : String}

/-! ## What resolving changes -/

/-- Only the keys of names that `root` leads to change, and what is resolved under them has the
definition of such a name. -/
def Adds (c : Catalog) (root : QName) (g g' : TypeGraph) : Prop :=
  ∀ k, Assoc.get? k g'.entries = Assoc.get? k g.entries ∨
    ∃ q, c.Leads root q ∧ q.key = k ∧
      ∀ d, g'.resolved? k = some d → ∃ raw, c.Describes q raw ∧ d = raw.typeDef

theorem Adds.of_entries_eq (h : g'.entries = g.entries) : Adds c root g g' :=
  fun k => .inl (by rw [h])

theorem Adds.trans {g'' : TypeGraph} (h : Adds c root g g') (h' : Adds c root g' g'') :
    Adds c root g g'' := by
  intro k
  rcases h' k with hsame' | hq
  · rcases h k with hsame | ⟨q, hlead, hk, hd⟩
    · exact .inl (hsame'.trans hsame)
    · refine .inr ⟨q, hlead, hk, fun d h => hd d ?_⟩
      rwa [resolved?_congr hsame'] at h
  · exact .inr hq

theorem Adds.marked (hlead : c.Leads root q) {e : Entry}
    (he : ∀ d, e = .resolved d → ∃ raw, c.Describes q raw ∧ d = raw.typeDef) :
    Adds c root g (g.marked q.key e) := by
  intro k
  by_cases hk : k = q.key
  · refine .inr ⟨q, hlead, hk.symm, fun d hd => he d ?_⟩
    rw [hk, resolved?_eq_some_iff, get?_marked_self] at hd
    exact Option.some.inj hd
  · exact .inl (get?_marked_of_ne hk e)

theorem Adds.without (hlead : c.Leads root q) : Adds c root g (g.without q.key) := by
  intro k
  by_cases hk : k = q.key
  · refine .inr ⟨q, hlead, hk.symm, fun d hd => ?_⟩
    rw [hk, resolved?_eq_some_iff, get?_without_self] at hd
    cases hd
  · exact .inl (get?_without_of_ne hk)

section Adds

variable {install : QName → TypeClass → Resolve Unit}

/-- A way to resolve the names that `root` leads to, which changes nothing else. -/
def AddsBelow (c : Catalog) (root : QName) (install : QName → TypeClass → Resolve Unit) : Prop :=
  ∀ {g : TypeGraph} {r : QName} {cls : TypeClass}, c.Leads root r →
    c.classify r = .ok (some cls) → Ends (install r cls) g (fun _ => Adds c root g)
      (fun _ => Adds c root g)

theorem adds_childRef (hinst : AddsBelow c root install) (t : AttributeType)
    (ht : ∀ r, t = .named r → c.Leads root r) (g : TypeGraph) :
    Ends (childRef c install t) g (fun ref g' => Adds c root g g' ∧ ref = t.ref)
      (fun _ => Adds c root g) := by
  have hstay : Adds c root g g := .of_entries_eq rfl
  cases t with
  | scalar s => exact ⟨hstay, rfl⟩
  | named r =>
    simp only [childRef, ends_bind, ends_get]
    by_cases hopen : g.isOpenOrDone r.key = true
    · rw [if_neg (by simp [hopen])]
      exact ⟨hstay, rfl⟩
    · rw [if_pos (by simp [hopen]), ends_bind, ends_ask]
      have hasked : Adds c root g { g with asked := g.asked + 1 } := .of_entries_eq rfl
      rcases hcls : c.classify r with e | _ | cls
      · exact hstay
      · exact hasked
      · exact ends_bind.mpr ((hinst (ht r rfl) hcls).mono
          (fun _ _ h => ⟨hasked.trans h, rfl⟩) (fun _ _ h => hasked.trans h))

theorem adds_fieldRefs (hinst : AddsBelow c root install) (as : List Attribute)
    (has : ∀ a ∈ as, ∀ r, a.type = .named r → c.Leads root r) (g : TypeGraph) :
    Ends (fieldRefs c install as) g
      (fun fields g' => Adds c root g g' ∧ fields = as.map Attribute.field)
      (fun _ => Adds c root g) := by
  induction as generalizing g with
  | nil => exact ⟨.of_entries_eq rfl, rfl⟩
  | cons a as ih =>
    rw [fieldRefs, ends_bind]
    refine (adds_childRef hinst a.type (has a List.mem_cons_self) g).mono ?_ (fun _ _ h => h)
    rintro ref g₁ ⟨hadds, rfl⟩
    rw [ends_bind]
    refine (ih (fun b hb => has b (List.mem_cons_of_mem a hb)) g₁).mono ?_
      (fun _ _ h => hadds.trans h)
    rintro fields g₂ ⟨hadds₂, rfl⟩
    exact ⟨hadds.trans hadds₂, rfl⟩

theorem adds_build (hinst : AddsBelow c root install) (raw : RawDef)
    (hraw : ∀ r, .named r ∈ raw.parts → c.Leads root r) (g : TypeGraph) :
    Ends (build c install raw) g (fun d g' => Adds c root g g' ∧ d = raw.typeDef)
      (fun _ => Adds c root g) := by
  cases raw with
  | scalar s => exact ⟨.of_entries_eq rfl, rfl⟩
  | record as =>
    rw [build, ends_bind]
    refine (adds_fieldRefs hinst as (fun a ha r hra => ?_) g).mono ?_ (fun _ _ h => h)
    · exact hraw r (List.mem_map.mpr ⟨a, ha, hra⟩)
    · rintro fields g' ⟨hadds, rfl⟩
      exact ⟨hadds, rfl⟩
  | collection elem indexBy =>
    rw [build, ends_bind]
    refine (adds_childRef hinst elem.type (fun r hra => ?_) g).mono ?_ (fun _ _ h => h)
    · exact hraw r (List.mem_singleton.mpr hra.symm)
    · rintro ref g' ⟨hadds, rfl⟩
      exact ⟨hadds, rfl⟩

end Adds

theorem addsBelow_nested_of_install {depth : Nat}
    (hinst : ∀ {g : TypeGraph} {r : QName} {raw : RawDef}, c.Leads root r → c.Describes r raw →
      Ends (install c depth r raw) g (fun _ => Adds c root g) (fun _ => Adds c root g)) :
    AddsBelow c root (nested c depth) := by
  intro g r cls hlead hcls
  refine ends_bind.mpr ((ends_fetch hcls g).mono ?_ (fun _ _ h => .of_entries_eq h.1))
  rintro raw g₁ ⟨hsame, hraw⟩
  have hfetched : Adds c root g g₁ := .of_entries_eq hsame
  exact ends_discard.mpr ((hinst hlead hraw).mono (fun _ _ h => hfetched.trans h)
    (fun _ _ h => hfetched.trans h))

/-- Resolving a name changes the keys of names that it leads to. -/
theorem adds_install {depth : Nat} (hlead : c.Leads root q) (hraw : c.Describes q raw) :
    Ends (install c depth q raw) g (fun _ => Adds c root g) (fun _ => Adds c root g) := by
  induction depth generalizing q raw g with
  | zero => exact Adds.of_entries_eq rfl
  | succ depth ih =>
    have hopen : Adds c root g (g.marked q.key .resolving) :=
      .marked hlead fun d hd => by cases hd
    have hparts : ∀ r, .named r ∈ raw.parts → c.Leads root r := fun r hr =>
      hlead.tail ⟨raw, hraw, hr⟩
    rw [ends_install_succ, ends_bind]
    refine (adds_build (addsBelow_nested_of_install ih) raw hparts _).mono ?_ ?_
    · rintro d g₁ ⟨hadds, rfl⟩
      refine (hopen.trans hadds).trans (.marked hlead fun d hd => ⟨raw, hraw, ?_⟩)
      exact (Entry.resolved.inj hd).symm
    · exact fun e g₁ hadds => (hopen.trans hadds).trans (.without hlead)

theorem addsBelow_nested (depth : Nat) : AddsBelow c root (nested c depth) :=
  addsBelow_nested_of_install adds_install

/-! ## Complete sets of keys -/

/-- The names of the keys `R` have definitions, and mention names of `R` only. -/
def Whole (c : Catalog) (qs : List QName) (R : Set String) : Prop :=
  ∀ q, c.Met qs q → q.key ∈ R →
    ∃ raw, c.Describes q raw ∧ ∀ r, .named r ∈ raw.parts → r.key ∈ R

theorem Whole.leads (hwhole : Whole c qs R) (hq : c.Met qs q) (hk : q.key ∈ R)
    (hlead : c.Leads q r) : r.key ∈ R := by
  induction hlead with
  | refl => exact hk
  | tail hlead hmention ih =>
    obtain ⟨raw, hraw, hparts⟩ := hwhole _ (hq.leads hlead) ih
    obtain ⟨raw', hraw', hr⟩ := hmention
    exact hparts _ (hraw'.unique hraw ▸ hr)

theorem Whole.not_doomed (hwhole : Whole c qs R) (hq : c.Met qs q) (hk : q.key ∈ R) :
    ¬ Doomed c c.Refuses q := by
  rintro ⟨r, hlead, hrefuses⟩
  obtain ⟨raw, hraw, -⟩ := hwhole r (hq.leads hlead) (hwhole.leads hq hk hlead)
  exact hrefuses raw hraw

theorem Whole.union {S : Set String} (hR : Whole c qs R) (hS : Whole c qs S) :
    Whole c qs (R ∪ S) := by
  rintro q hq (hk | hk)
  · obtain ⟨raw, hraw, hparts⟩ := hR q hq hk
    exact ⟨raw, hraw, fun r hr => .inl (hparts r hr)⟩
  · obtain ⟨raw, hraw, hparts⟩ := hS q hq hk
    exact ⟨raw, hraw, fun r hr => .inr (hparts r hr)⟩

/-! ## Graphs side by side -/

/-- The graph `g` has the keys `R` resolved beside those of `g₀`, and the same keys open. -/
structure Beside (R : Set String) (g g₀ : TypeGraph) : Prop where
  done : ∀ k, (g.resolved? k).isSome = true ↔ (g₀.resolved? k).isSome = true ∨ k ∈ R
  opened : ∀ k, Assoc.get? k g.entries = some .resolving ↔
    Assoc.get? k g₀.entries = some .resolving

namespace Beside

variable {g₀' : TypeGraph}

theorem of_entries_eq (h : Beside R g g₀) (hg : g'.entries = g.entries)
    (hg₀ : g₀'.entries = g₀.entries) : Beside R g' g₀' where
  done k := by
    have hres : g'.resolved? k = g.resolved? k := resolved?_congr (by rw [hg])
    have hres₀ : g₀'.resolved? k = g₀.resolved? k := resolved?_congr (by rw [hg₀])
    rw [hres, hres₀]
    exact h.done k
  opened k := by
    rw [hg, hg₀]
    exact h.opened k

theorem isOpenOrDone_iff (h : Beside R g g₀) :
    g.isOpenOrDone k = true ↔ g₀.isOpenOrDone k = true ∨ k ∈ R := by
  rw [isOpenOrDone_iff_resolved_or_resolving, isOpenOrDone_iff_resolved_or_resolving, h.done k,
    h.opened k]
  tauto

/-- A key changes in the same way in both graphs. -/
theorem change (h : Beside R g g₀) (hk : k ∉ R)
    (hg : ∀ l, l ≠ k → Assoc.get? l g'.entries = Assoc.get? l g.entries)
    (hg₀ : ∀ l, l ≠ k → Assoc.get? l g₀'.entries = Assoc.get? l g₀.entries)
    (hself : Assoc.get? k g'.entries = Assoc.get? k g₀'.entries) : Beside R g' g₀' where
  done l := by
    by_cases hl : l = k
    · rw [hl, resolved?_congr hself]
      exact ⟨.inl, fun h => h.resolve_right hk⟩
    · rw [resolved?_congr (hg l hl), resolved?_congr (hg₀ l hl)]
      exact h.done l
  opened l := by
    by_cases hl : l = k
    · rw [hl, hself]
    · rw [hg l hl, hg₀ l hl]
      exact h.opened l

theorem marked (h : Beside R g g₀) (hk : k ∉ R) (e : Entry) :
    Beside R (g.marked k e) (g₀.marked k e) :=
  h.change hk (fun _ hl => get?_marked_of_ne hl e) (fun _ hl => get?_marked_of_ne hl e)
    ((get?_marked_self g k e).trans (get?_marked_self g₀ k e).symm)

theorem without (h : Beside R g g₀) (hk : k ∉ R) : Beside R (g.without k) (g₀.without k) :=
  h.change hk (fun _ hl => get?_without_of_ne hl) (fun _ hl => get?_without_of_ne hl)
    ((get?_without_self g k).trans (get?_without_self g₀ k).symm)

/-- The poorer graph may resolve some of the keys that it lacks. -/
theorem catch_up (h : Beside R g g₀) (hkept : Kept g₀ g₀')
    (hnew : ∀ k, (g₀'.resolved? k).isSome = true → (g₀.resolved? k).isSome = true ∨ k ∈ R)
    (hopen : ∀ k, Assoc.get? k g₀'.entries = some .resolving ↔
      Assoc.get? k g₀.entries = some .resolving) : Beside R g g₀' where
  done k := by
    rw [h.done k]
    constructor
    · rintro (hk | hk)
      · exact .inl (hkept.isSome hk)
      · exact .inr hk
    · rintro (hk | hk)
      · exact hnew k hk
      · exact .inr hk
  opened k := (h.opened k).trans (hopen k).symm

end Beside

/-! ## Asking the catalog from two graphs -/

section Alike

variable {α : Type} {S : TypeGraph → TypeGraph → Prop}

/-- How often the catalog was asked plays no part in a relation between graphs. -/
def Uncounted (S : TypeGraph → TypeGraph → Prop) : Prop :=
  ∀ {g g₀ : TypeGraph}, S g g₀ →
    S { g with asked := g.asked + 1 } { g₀ with asked := g₀.asked + 1 }

theorem alike_ask (hS : Uncounted S) (h : S g g₀) (answer : Except Error α) :
    Alike S (ask answer) g g₀ := by
  cases answer with
  | error e => exact alike_throw h e
  | ok a => exact ⟨rfl, hS h⟩

theorem alike_fetchFrom (hS : Uncounted S) (h : S g g₀) (q : QName) (indexBy : Option IndexBy)
    (sources : List Source) : Alike S (fetchFrom c q indexBy sources) g g₀ := by
  induction sources generalizing g g₀ with
  | nil => exact alike_throw h _
  | cons source rest ih =>
    cases source with
    | attributes | columns =>
      refine alike_bind (alike_ask hS h _) fun as g' g₀' _ hb => ?_
      cases as with
      | nil => exact ih hb
      | cons a as => exact alike_pure hb _
    | element =>
      refine alike_bind (alike_ask hS h _) fun elem g' g₀' _ hb => ?_
      cases elem with
      | none => exact ih hb
      | some elem => exact alike_pure hb _

theorem alike_fetch (hS : Uncounted S) (h : S g g₀) (q : QName) (cls : TypeClass) :
    Alike S (fetch c q cls) g g₀ := by
  cases cls with
  | sealed => exact alike_pure h _
  | collection s =>
    rw [fetch]
    cases indexKind q.key s with
    | error e => exact alike_throw h e
    | ok indexBy => exact alike_fetchFrom hS h q indexBy _
  | record | table | object => exact alike_fetchFrom hS h q none _

end Alike

theorem uncounted_beside : Uncounted (Beside R) := fun hb => hb.of_entries_eq rfl rfl

/-! ## Resolving on both graphs -/

/-- Resolving a name that is neither open nor resolved. -/
def visit (c : Catalog) (install : QName → TypeClass → Resolve Unit) (r : QName) :
    Resolve Unit := do
  match ← ask (c.classify r) with
  | none => throw (.unknownType r.key)
  | some cls => install r cls

theorem run_childRef_held {install : QName → TypeClass → Resolve Unit}
    (h : g.isOpenOrDone r.key = true) :
    (childRef c install (.named r)).run g = (.ok (.named r.key), g) := by
  rw [childRef, run_bind]
  show (if !g.isOpenOrDone r.key then _ else _ : Resolve TypeRef).run g = _
  rw [if_neg (by simp [h])]
  rfl

theorem run_childRef_new {install : QName → TypeClass → Resolve Unit}
    (h : ¬ g.isOpenOrDone r.key = true) : (childRef c install (.named r)).run g =
      (visit c install r >>= fun _ => pure (.named r.key)).run g := by
  rw [childRef, run_bind]
  show (if !g.isOpenOrDone r.key then _ else _ : Resolve TypeRef).run g = _
  rw [if_pos (by simp [h]), visit, bind_assoc]
  rcases c.classify r with e | _ | cls <;> rfl

theorem run_discover_done (h : (g.resolved? q.key).isSome = true) :
    (discover c q).run g = (.ok (), g) := by
  rw [discover, run_bind]
  show (if (g.resolved? q.key).isNone then _ else _ : Resolve Unit).run g = _
  rw [if_neg (by simp [Option.isSome_iff_ne_none.mp h])]
  rfl

theorem run_discover_new (h : g.resolved? q.key = none) :
    (discover c q).run g = (visit c (nested c (allowance c)) q).run g := by
  rw [discover, run_bind]
  show (if (g.resolved? q.key).isNone then _ else _ : Resolve Unit).run g = _
  rw [if_pos (by simp [h])]
  rfl

theorem run_install_succ {depth : Nat} : (install c (depth + 1) q raw).run g =
    match (build c (nested c depth) raw).run (g.marked q.key .resolving) with
    | (.ok d, g') => (.ok d, g'.marked q.key (.resolved d))
    | (.error e, g') => (.error e, g'.without q.key) := by
  have hends := ends_run (install c (depth + 1) q raw) g
  rw [ends_install_succ, ends_bind] at hends
  unfold Ends at hends
  rcases hbuild : (build c (nested c depth) raw).run (g.marked q.key .resolving) with ⟨e | d, g'⟩
  · rw [hbuild] at hends
    exact hends
  · rw [hbuild] at hends
    exact hends

/-- What is known about a way to resolve a name on two graphs. -/
structure Visits (c : Catalog) (R : Set String) (stack : List QName) (r : QName)
    (install : QName → TypeClass → Resolve Unit) : Prop where
  /-- It keeps a graph sound, and fails only on names that lead to a refused one. -/
  sound : ∀ {g : TypeGraph} {cls : TypeClass}, Sound c c.Refuses stack g →
    Sound.New stack g r.key → c.classify r = .ok (some cls) → Ends (install r cls) g
      (fun _ g' => Goes c c.Refuses stack g g' ∧ (g'.resolved? r.key).isSome = true)
      (fun _ g' => Goes c c.Refuses stack g g' ∧ Doomed c c.Refuses r)
  /-- It changes only what the name leads to. -/
  adds : AddsBelow c r install
  /-- It comes to the same on both graphs, if the name is not among those that one of them has
  more. -/
  alike : ∀ {g g₀ : TypeGraph} {cls : TypeClass}, Sound c c.Refuses stack g₀ →
    Sound.New stack g₀ r.key → r.key ∉ R → c.classify r = .ok (some cls) → Beside R g g₀ →
      Alike (Beside R) (install r cls) g g₀

section Visits

variable {install : QName → TypeClass → Resolve Unit}

theorem Visits.alike_visit (hv : Visits c R stack r install) (hs : Sound c c.Refuses stack g₀)
    (hnew : Sound.New stack g₀ r.key) (hk : r.key ∉ R) (hb : Beside R g g₀) :
    Alike (Beside R) (visit c install r) g g₀ := by
  unfold visit
  cases hcls : c.classify r with
  | error e => exact alike_throw hb e
  | ok answer =>
    have hasked : Beside R { g with asked := g.asked + 1 } { g₀ with asked := g₀.asked + 1 } :=
      uncounted_beside hb
    cases answer with
    | none => exact alike_throw hasked _
    | some cls => exact hv.alike (hs.of_entries_eq rfl) hnew hk hcls hasked

/-- A name that only the poorer graph has to resolve: this succeeds, and the graph gains some of
the keys that it lacked. -/
theorem Visits.catch_up (hv : Visits c R stack r install) (hwhole : Whole c qs R)
    (hmet : c.Met qs r) (hk : r.key ∈ R) (hs : Sound c c.Refuses stack g₀)
    (hnew : Sound.New stack g₀ r.key) (hb : Beside R g g₀) :
    ∃ g₀', Gives (visit c install r) g₀ () g₀' ∧ Beside R g g₀' := by
  obtain ⟨raw, hraw, -⟩ := hwhole r hmet hk
  obtain ⟨cls, hcls⟩ := hraw.exists_classify
  have hasked : Sound c c.Refuses stack { g₀ with asked := g₀.asked + 1 } := hs.of_entries_eq rfl
  obtain ⟨u, g₀', hgives, hgoes, -⟩ := (hv.sound hasked hnew hcls).exists_gives
    fun _ _ h => hwhole.not_doomed hmet hk h.2
  have hadds : Adds c r { g₀ with asked := g₀.asked + 1 } g₀' :=
    (hv.adds Relation.ReflTransGen.refl hcls).of_gives hgives
  refine ⟨g₀', ?_, hb.catch_up hgoes.kept (fun k hdone => ?_) fun k => ?_⟩
  · unfold visit
    rw [hcls]
    exact hgives
  · rcases hadds k with hsame | ⟨s, hlead, rfl, -⟩
    · exact .inl (by rwa [resolved?_congr hsame] at hdone)
    · exact .inr (hwhole.leads hmet hk hlead)
  · rw [hgoes.sound.opened k, hs.opened k]

theorem alike_childRef (hwhole : Whole c qs R) (hs : Sound c c.Refuses stack g₀)
    (hb : Beside R g g₀) (t : AttributeType)
    (hv : ∀ r, t = .named r → c.Met qs r ∧ Visits c R stack r install) :
    Alike (Beside R) (childRef c install t) g g₀ := by
  cases t with
  | scalar s => exact alike_pure hb _
  | named r =>
    obtain ⟨hmet, hv⟩ := hv r rfl
    unfold Alike
    by_cases hopen₀ : g₀.isOpenOrDone r.key = true
    · have hopen : g.isOpenOrDone r.key = true := hb.isOpenOrDone_iff.mpr (.inl hopen₀)
      rw [run_childRef_held hopen, run_childRef_held hopen₀]
      exact ⟨rfl, hb⟩
    · have hnot : ¬ Held stack g₀ r.key := fun h => hopen₀ (hs.isOpenOrDone_iff.mpr h)
      have hnew : Sound.New stack g₀ r.key :=
        ⟨by simpa using fun h => hnot (.inl h), fun p hp hpr => hnot (.inr ⟨p, hp, hpr⟩)⟩
      rw [run_childRef_new hopen₀]
      -- The runs part here if the name is one that only the richer graph has.
      by_cases hk : r.key ∈ R
      · have hopen : g.isOpenOrDone r.key = true := hb.isOpenOrDone_iff.mpr (.inr hk)
        obtain ⟨g₀', hgives, hb'⟩ := hv.catch_up hwhole hmet hk hs hnew hb
        rw [run_childRef_held hopen, run_bind, hgives]
        exact ⟨rfl, hb'⟩
      · have hopen : ¬ g.isOpenOrDone r.key = true := fun h =>
          (hb.isOpenOrDone_iff.mp h).elim hopen₀ hk
        rw [run_childRef_new hopen]
        exact alike_bind (hv.alike_visit hs hnew hk hb) fun _ _ _ _ hb' => alike_pure hb' _

theorem alike_fieldRefs (hwhole : Whole c qs R) (hnest : Nests c c c.Refuses stack install)
    (hs : Sound c c.Refuses stack g₀) (hb : Beside R g g₀) (as : List Attribute)
    (hbelow : ∀ a ∈ as, ∀ r, a.type = .named r → Below c c stack r)
    (hv : ∀ a ∈ as, ∀ r, a.type = .named r → c.Met qs r ∧ Visits c R stack r install) :
    Alike (Beside R) (fieldRefs c install as) g g₀ := by
  induction as generalizing g g₀ with
  | nil => exact alike_pure hb _
  | cons a as ih =>
    rw [fieldRefs]
    have hfirst := alike_childRef hwhole hs hb a.type (hv a List.mem_cons_self)
    refine alike_bind hfirst fun ref g₁ g₀₁ hgives hb₁ => ?_
    have hgoes := (ends_childRef (fun _ h => h) hnest hs a.type
      (hbelow a List.mem_cons_self)).of_gives hgives
    refine alike_bind (ih hgoes.1.sound hb₁ (fun b hb => hbelow b (List.mem_cons_of_mem a hb))
      fun b hb => hv b (List.mem_cons_of_mem a hb)) fun fields _ _ _ hb₂ => alike_pure hb₂ _

theorem alike_build (hwhole : Whole c qs R) (hnest : Nests c c c.Refuses stack install)
    (hs : Sound c c.Refuses stack g₀) (hb : Beside R g g₀) (raw : RawDef)
    (hbelow : ∀ r, .named r ∈ raw.parts → Below c c stack r)
    (hv : ∀ r, .named r ∈ raw.parts → c.Met qs r ∧ Visits c R stack r install) :
    Alike (Beside R) (build c install raw) g g₀ := by
  cases raw with
  | scalar s => exact alike_pure hb _
  | record as =>
    have hmem : ∀ {a r}, a ∈ as → a.type = .named r → .named r ∈ (RawDef.record as).parts :=
      fun ha hra => List.mem_map.mpr ⟨_, ha, hra⟩
    exact alike_bind (alike_fieldRefs hwhole hnest hs hb as
      (fun a ha r hra => hbelow r (hmem ha hra)) fun a ha r hra => hv r (hmem ha hra))
      fun _ _ _ _ hb' => alike_pure hb' _
  | collection elem indexBy =>
    exact alike_bind (alike_childRef hwhole hs hb elem.type
      fun r hra => hv r (List.mem_singleton.mpr hra.symm)) fun _ _ _ _ hb' => alike_pure hb' _

end Visits

/-- A name that neither graph has is opened in both, and resolved or dropped in both. -/
theorem alike_install_succ {depth : Nat} (hwhole : Whole c qs R) (hs : Sound c c.Refuses stack g₀)
    (hnew : Sound.New stack g₀ q.key) (hk : q.key ∉ R) (hb : Beside R g g₀)
    (hchain : ∀ p ∈ stack, c.Leads p q) (hraw : c.Describes q raw)
    (hroom : room c (q :: stack) ≤ depth)
    (hv : ∀ r, .named r ∈ raw.parts → c.Met qs r ∧ Visits c R (q :: stack) r (nested c depth)) :
    Alike (Beside R) (install c (depth + 1) q raw) g g₀ := by
  have hbuild : Alike (Beside R) (build c (nested c depth) raw) (g.marked q.key .resolving)
      (g₀.marked q.key .resolving) :=
    alike_build hwhole (nests_nested (.refl c) (fun _ h => h) hroom) (hs.push hnew)
      (hb.marked hk .resolving) raw
      (fun _ hr => below_of_mem_parts (.refl c) hchain hraw hr) hv
  unfold Alike at hbuild ⊢
  rw [run_install_succ, run_install_succ]
  rcases hg : (build c (nested c depth) raw).run (g.marked q.key .resolving) with ⟨o, g₁⟩
  rcases hg₀ : (build c (nested c depth) raw).run (g₀.marked q.key .resolving) with ⟨o₀, g₀₁⟩
  rw [hg, hg₀] at hbuild
  obtain ⟨rfl, hb₁⟩ := hbuild
  cases o with
  | error e => exact ⟨rfl, hb₁.without hk⟩
  | ok d => exact ⟨rfl, hb₁.marked hk (.resolved d)⟩

/-- The names below open ones are visited as they should be. -/
def VisitsBelow (c : Catalog) (qs : List QName) (R : Set String) (stack : List QName)
    (install : QName → TypeClass → Resolve Unit) : Prop :=
  ∀ r, c.Met qs r → Below c c stack r → Visits c R stack r install

/-- A name is visited as it should be if those below it are, once it is open. -/
theorem visits_nested_succ {depth : Nat} (hwhole : Whole c qs R) (hmet : c.Met qs r)
    (hchain : ∀ p ∈ stack, c.Leads p r)
    (hopen : (∀ p ∈ stack, p.key ≠ r.key) →
      room c (r :: stack) ≤ depth ∧ VisitsBelow c qs R (r :: stack) (nested c depth)) :
    Visits c R stack r (nested c (depth + 1)) := by
  refine {
    sound := fun hs hnew hcls =>
      ends_nested (.refl c) (fun _ h => h) hs hnew hchain hcls (hopen hnew.2).1
    adds := addsBelow_nested (depth + 1)
    alike := fun {g g₀ cls} hs hnew hk hcls hb => ?_ }
  obtain ⟨hroom, hbelow⟩ := hopen hnew.2
  refine alike_bind (alike_fetch uncounted_beside hb r cls) fun raw g₁ g₀₁ hgives hb₁ => ?_
  refine alike_discard ?_
  obtain ⟨hsame, hraw⟩ := (ends_fetch hcls g₀).of_gives hgives
  have hnew₁ : Sound.New stack g₀₁ r.key :=
    ⟨(resolved?_congr (by rw [hsame])).trans hnew.1, hnew.2⟩
  refine alike_install_succ hwhole (hs.of_entries_eq hsame) hnew₁ hk hb₁ hchain hraw hroom
    fun s hpart => ?_
  have hs : Below c c (r :: stack) s := below_of_mem_parts (.refl c) hchain hraw hpart
  have hmet₁ : c.Met qs s := hmet.leads (hs.chain r List.mem_cons_self)
  exact ⟨hmet₁, hbelow s hmet₁ hs⟩

theorem visitsBelow_nested {depth : Nat} (hwhole : Whole c qs R) (hroom : room c stack ≤ depth) :
    VisitsBelow c qs R stack (nested c depth) := by
  refine room_induction (P := fun stack depth => VisitsBelow c qs R stack (nested c depth))
    ?_ ?_ hroom
  · intro stack hfull r _ hbelow
    exact {
      sound := fun _ hnew _ => absurd ⟨hbelow.mentioned, hnew.2⟩ (hfull r)
      adds := addsBelow_nested 0
      alike := fun _ hnew _ _ _ => absurd ⟨hbelow.mentioned, hnew.2⟩ (hfull r) }
  · intro stack depth hopen r hmet hbelow
    exact visits_nested_succ hwhole hmet hbelow.chain fun hnew => hopen r ⟨hbelow.mentioned, hnew⟩

/-- **Resolving a name comes to the same** on a graph that has a complete set of keys more. -/
theorem alike_discover (hwhole : Whole c qs R) (hmet : c.Met qs q)
    (hs : Sound c c.Refuses [] g₀) (hb : Beside R g g₀) : Alike (Beside R) (discover c q) g g₀ := by
  have hv : Visits c R [] q (nested c (allowance c)) :=
    visits_nested_succ hwhole hmet (by simp) fun _ =>
      ⟨room_le c [q], visitsBelow_nested hwhole (room_le c [q])⟩
  unfold Alike
  by_cases hdone₀ : (g₀.resolved? q.key).isSome = true
  · have hdone : (g.resolved? q.key).isSome = true := (hb.done q.key).mpr (.inl hdone₀)
    rw [run_discover_done hdone, run_discover_done hdone₀]
    exact ⟨rfl, hb⟩
  · have hnew₀ : g₀.resolved? q.key = none := by simpa using hdone₀
    rw [run_discover_new hnew₀]
    by_cases hk : q.key ∈ R
    · have hdone : (g.resolved? q.key).isSome = true := (hb.done q.key).mpr (.inr hk)
      obtain ⟨g₀', hgives, hb'⟩ := hv.catch_up hwhole hmet hk hs ⟨hnew₀, by simp⟩ hb
      rw [run_discover_done hdone, hgives]
      exact ⟨rfl, hb'⟩
    · have hdone : ¬ (g.resolved? q.key).isSome = true := fun h =>
        ((hb.done q.key).mp h).elim hdone₀ hk
      rw [run_discover_new (by simpa using hdone)]
      exact hv.alike_visit hs ⟨hnew₀, by simp⟩ hk hb

end TypeGraph

end StoredCall
