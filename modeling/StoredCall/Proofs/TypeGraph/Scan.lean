import StoredCall.Proofs.TypeGraph.Order

/-!
# What a scan reports

A scan notes the names without a resolved type as pending, handles them one after the other, and
takes the keys out of its answer that did not come to a resolved type. It may be cancelled between
two names. A pending key can be resolved for its own name or for another type that refers to it, and
it can be dropped with a type that fails.

* `TypeGraph.Advances g g'`: what is resolved is kept, and no key becomes pending. Every run by the
  rules advances the graph, from any graph.
* `TypeGraph.dispatched budget qs`: the names that are handled before the scan is cancelled.
* `TypeGraph.Discovers.resolved` and `TypeGraph.Discovers.exists_outcome`: a name with a success is
  resolved at the end, and every name that was handled has an outcome.
* **`TypeGraph.Reached.names_finished`**: a scan reports finished types only, and a key of the scan
  is pending afterwards only if the scan was cancelled before each of its names.
-/

namespace StoredCall.TypeGraph

variable {c : Catalog} {q : QName} {g g' g₁ g₂ : TypeGraph} {k : String} {task : Task}
  {log : List Asked} {o : Except Error Unit}

/-! ## Graphs that advance -/

/-- What is resolved is kept, and no key becomes pending. -/
structure Advances (g g' : TypeGraph) : Prop where
  kept : Kept g g'
  pending : ∀ {k}, Assoc.get? k g'.entries = some .pending → Assoc.get? k g.entries = some .pending

theorem Advances.of_entries_eq (h : g'.entries = g.entries) : Advances g g' where
  kept := .of_entries_eq h
  pending := by
    rw [h]
    exact id

theorem Advances.trans (h : Advances g g₁) (h' : Advances g₁ g₂) : Advances g g₂ where
  kept := h.kept.trans h'.kept
  pending hk := h.pending (h'.pending hk)

/-- A name that was not resolved is opened, and closed again after the graph has advanced. -/
theorem Advances.around (hnew : g.resolved? q.key = none)
    (h : Advances (g.marked q.key .resolving) g₁)
    (hself : Assoc.get? q.key g'.entries ≠ some .pending)
    (hother : ∀ k, k ≠ q.key → Assoc.get? k g'.entries = Assoc.get? k g₁.entries) :
    Advances g g' where
  kept := h.kept.around hnew hother
  pending {k} hk := by
    have hne : k ≠ q.key := fun hkq => hself (hkq ▸ hk)
    rw [hother k hne] at hk
    have hbefore := h.pending hk
    rwa [get?_marked_of_ne hne] at hbefore

/-- **A run by the rules advances the graph.** -/
theorem Does.advances (h : Does c task g log o g') (hnew : task.New g) : Advances g g' := by
  induction h with
  | undefined hlook => exact .of_entries_eq hlook.asks.entries
  | @resolved q g g₁ g₂ raw _ _ hlook _ ih =>
    have hlooked := Advances.of_entries_eq (hlook.asks.marked q.key .resolving).entries
    refine Advances.around hnew (hlooked.trans (ih trivial)) ?_ fun k hk => get?_marked_of_ne hk _
    simp [get?_marked_self]
  | @dropped q g g₁ g₂ raw _ _ _ hlook _ ih =>
    have hlooked := Advances.of_entries_eq (hlook.asks.marked q.key .resolving).entries
    refine Advances.around hnew (hlooked.trans (ih trivial)) ?_ fun k hk => get?_without_of_ne hk
    simp [get?_without_self]
  | scalar | held | nothing => exact .of_entries_eq rfl
  | visited hfree _ ih => exact ih (resolved?_eq_none_of_isOpenOrDone hfree)
  | next _ _ ih ih' => exact (ih trivial).trans (ih' trivial)
  | stop _ ih => exact ih trivial

/-- A name that succeeds is resolved. -/
theorem Does.isSome_resolved? (h : Does c (.name q) g log (.ok ()) g') :
    (g'.resolved? q.key).isSome = true := by
  cases h with
  | resolved _ _ =>
    rw [resolved?_eq_some_iff.mpr (get?_marked_self _ q.key _)]
    rfl

/-! ## Names one after the other -/

/-- The names that are handled before a scan is cancelled. -/
def dispatched : Option Nat → List QName → List QName
  | none, qs => qs
  | some n, qs => qs.take n

theorem dispatched_cons {budget : Option Nat} (h : budget ≠ some 0) (qs : List QName) :
    dispatched budget (q :: qs) = q :: dispatched (budget.map (· - 1)) qs := by
  match budget with
  | none => rfl
  | some 0 => exact absurd rfl h
  | some (n + 1) => rfl

section Discovers

variable {budget : Option Nat} {qs : List QName} {outcomes : List (String × Outcome)}

theorem Discovers.advances (h : Discovers c budget qs g log outcomes g') : Advances g g' := by
  induction h with
  | nil => exact .of_entries_eq rfl
  | cancelled _ ih | done _ _ _ ih => exact ih
  | visited _ hnew hdoes _ ih => exact (hdoes.advances hnew).trans ih

/-- Each name has an outcome under its key. -/
theorem Discovers.map_fst (h : Discovers c budget qs g log outcomes g') :
    outcomes.map Prod.fst = qs.map QName.key := by
  induction h with
  | nil => rfl
  | cancelled _ ih | done _ _ _ ih | visited _ _ _ _ ih => rw [List.map_cons, List.map_cons, ih]

/-- What comes of a name that is handled is not nothing. -/
theorem Discovers.exists_outcome (h : Discovers c budget qs g log outcomes g')
    (hq : q ∈ dispatched budget qs) : ∃ o, (q.key, some o) ∈ outcomes := by
  induction h with
  | @nil budget => cases budget <;> simp [dispatched] at hq
  | cancelled => simp [dispatched] at hq
  | done hbudget _ _ ih | visited hbudget _ _ _ ih =>
    rw [dispatched_cons hbudget] at hq
    rcases List.mem_cons.mp hq with rfl | hq
    · exact ⟨_, List.mem_cons_self⟩
    · obtain ⟨o, ho⟩ := ih hq
      exact ⟨o, List.mem_cons_of_mem _ ho⟩

/-- A key with a success is resolved when all names are handled. -/
theorem Discovers.resolved (h : Discovers c budget qs g log outcomes g')
    (hk : (k, some (.ok ())) ∈ outcomes) : (g'.resolved? k).isSome = true := by
  induction h with
  | nil => cases hk
  | cancelled _ ih => exact ih (by simpa using hk)
  | done _ hdone hrest ih =>
    rcases List.mem_cons.mp hk with heq | hk
    · rw [(Prod.mk.inj heq).1]
      exact hrest.advances.kept.isSome hdone
    · exact ih hk
  | visited _ _ hdoes hrest ih =>
    rcases List.mem_cons.mp hk with heq | hk
    · obtain ⟨rfl, ho⟩ := Prod.mk.inj heq
      obtain rfl := Option.some.inj ho
      exact hrest.advances.kept.isSome hdoes.isSome_resolved?
    · exact ih hk

end Discovers

/-! ## Noting names -/

theorem resolved?_noting (g : TypeGraph) (qs : List QName) (k : String) :
    (g.noting qs).resolved? k = g.resolved? k := by
  refine Option.ext fun d => ?_
  rw [resolved?_eq_some_iff, resolved?_eq_some_iff]
  exact get?_noting_eq_some_iff g qs k (by simp)

/-! ## Reports -/

theorem resolved?_eq_none_of_pending (h : Assoc.get? k g.entries = some .pending) :
    g.resolved? k = none := by
  unfold resolved?
  rw [h]

theorem mem_pending (hkeyed : Assoc.Keyed g.entries) :
    k ∈ g.pending ↔ Assoc.get? k g.entries = some .pending := by
  rw [← Assoc.mem_iff_get? hkeyed, pending, List.mem_map]
  constructor
  · rintro ⟨⟨l, e⟩, he, rfl⟩
    obtain ⟨hmem, hpending⟩ := List.mem_filter.mp he
    rwa [← of_decide_eq_true hpending]
  · exact fun hmem => ⟨_, List.mem_filter.mpr ⟨hmem, by simp⟩, rfl⟩

section Reports

variable {times : Set Catalog} {full : Catalog} {only : Option (List String)}
  {budget : Option Nat} {S : List String} {qs : List QName} {outcomes : List (String × Outcome)}

/-- A name that was handled is not pending once the outcomes are settled. -/
theorem Discovers.key_ne_of_pending (h : Discovers c budget qs g log outcomes g₁)
    (hsettled : ∀ k o, (k, some o) ∈ outcomes → o = .ok () ∨
      ¬ Fatal o ∧ Assoc.get? k g'.entries ≠ some .pending) (hclears : Clears g₁ g')
    (hk : Assoc.get? k g'.entries = some .pending) : ∀ p ∈ dispatched budget qs, p.key ≠ k := by
  rintro p hp rfl
  obtain ⟨o, ho⟩ := h.exists_outcome hp
  rcases hsettled p.key o ho with rfl | ⟨-, hgone⟩
  · have hdone := h.resolved ho
    rw [← hclears.resolved?_eq, resolved?_eq_none_of_pending hk] at hdone
    cases hdone
  · exact hgone hk

theorem mem_unresolved : q ∈ g.unresolved qs ↔ q ∈ qs ∧ g.resolved? q.key = none := by
  rw [unresolved, List.mem_filter, Option.isNone_iff_eq_none]

/-- A name without a failure or a cancellation is resolved, now or already before. -/
theorem Discovers.isSome_resolved? (h : Discovers c budget (g.unresolved qs)
    (g.noting (g.unresolved qs)) log outcomes g₁) (hq : q ∈ qs)
    (hok : ∀ o, (q.key, o) ∈ outcomes → o = some (.ok ())) :
    (g₁.resolved? q.key).isSome = true := by
  by_cases hdone : (g.resolved? q.key).isSome = true
  · refine h.advances.kept.isSome ?_
    rwa [resolved?_noting]
  · have hfresh : q ∈ g.unresolved qs := mem_unresolved.mpr ⟨hq, by simpa using hdone⟩
    have hkey : q.key ∈ outcomes.map Prod.fst := h.map_fst ▸ List.mem_map_of_mem hfresh
    obtain ⟨⟨k, o⟩, ho, rfl⟩ := List.mem_map.mp hkey
    obtain rfl := hok o ho
    exact h.resolved ho

/-- A key that is pending when all names are handled was pending before, or was noted. -/
theorem Discovers.pending_or_noted (h : Discovers c budget qs (g.noting qs) log outcomes g₁)
    (hk : Assoc.get? k g₁.entries = some .pending) :
    Assoc.get? k g.entries = some .pending ∨ ∃ q ∈ qs, q.key = k := by
  have hnoted := h.advances.pending hk
  rw [get?_noting] at hnoted
  cases hbefore : Assoc.get? k g.entries with
  | some e =>
    rw [hbefore] at hnoted
    exact .inl hnoted
  | none =>
    rw [hbefore] at hnoted
    by_cases hq : ∃ q ∈ qs, q.key = k
    · exact .inr hq
    · simp [hq] at hnoted

/-- A name that is left out of those that are handled comes after the cancellation. -/
theorem exists_mem_drop (hq : q ∈ qs) (hnot : ∀ p ∈ dispatched budget qs, p.key ≠ q.key) :
    ∃ n, budget = some n ∧ q ∈ qs.drop n ∧ ∀ p ∈ qs.take n, p.key ≠ q.key := by
  cases budget with
  | none => exact absurd rfl (hnot q hq)
  | some n =>
    refine ⟨n, rfl, ?_, hnot⟩
    rw [← List.take_append_drop n qs] at hq
    exact (List.mem_append.mp hq).resolve_left fun htake => hnot q htake rfl

/-- Orders refer to lines and are listed twice. A memo has no attributes, so it is not supported. -/
def desk : Store where
  owner := "S"
  types := [
    ("S.NOTE_T", .record [⟨"TEXT", .scalar { name := "VARCHAR2" }⟩]),
    ("S.ITEM_T", .record [⟨"PRICE", .scalar { name := "NUMBER" }⟩]),
    ("S.MEMO_T", .record []),
    ("S.ORDER_T", .record [⟨"LINE", .named (shop "LINE_T")⟩]),
    ("S.LINE_T", .record [⟨"ITEM", .named (shop "ITEM_T")⟩]),
    ("S.BILL_T", .record [⟨"ORDER", .named (shop "ORDER_T")⟩])]
  names := [shop "NOTE_T", shop "ITEM_T", shop "MEMO_T", shop "ORDER_T", shop "ORDER_T",
    shop "LINE_T", shop "BILL_T"]

/-- A scan for notes was cancelled at once, and items were asked for. -/
def deskBefore : TypeGraph :=
  (GraphCall.get "item_t").after desk.catalog
    ((GraphCall.names (some ["S.NOTE_T"]) (some 0)).after desk.catalog {})

/-- The keys of all names but the notes. -/
def deskKeys : List String := ["S.ITEM_T", "S.MEMO_T", "S.ORDER_T", "S.LINE_T", "S.BILL_T"]

/-- A scan of these keys was cancelled after three names. -/
def deskAfter : TypeGraph :=
  (GraphCall.names (some deskKeys) (some 3)).after desk.catalog deskBefore

theorem reached_deskBefore : Reached {desk.catalog} deskBefore :=
  (Reached.empty.call (Set.mem_singleton _) (.names (some ["S.NOTE_T"]) (some 0))).call
    (Set.mem_singleton _) (.get "item_t")

/-- **A scan reports finished types only.** However the calls before it went, whichever queries fail
and whenever it is cancelled, a scan that succeeds reports those keys of its names all of whose
outcomes are successes, and each of them is resolved. What is pending afterwards was pending before
and is no key of the scan, or it is the key of names that the scan did not come to before it was
cancelled. Nothing that was scanned is pending if the scan was not cancelled. -/
theorem Reached.names_finished (hfull : ∀ c ∈ times, c.Within full) (h : Reached times g)
    (hc : c ∈ times) (hrun : Gives (names c only budget) g S g') :
    ∃ all fresh log outcomes g₁, c.typeNames = .ok all ∧
      fresh = g.unresolved (scanned only all) ∧
      Discovers c budget fresh (g.noting fresh) log outcomes g₁ ∧
      (∀ k, k ∈ S ↔ (∃ q ∈ scanned only all, q.key = k) ∧
        ∀ o, (k, o) ∈ outcomes → o = some (.ok ())) ∧
      (∀ k ∈ S, ∃ d, (k, .resolved d) ∈ g'.entries) ∧
      (∀ k ∈ g'.pending, (k ∈ g.pending ∧ ∀ q ∈ scanned only all, q.key ≠ k) ∨
        ∃ n, budget = some n ∧ (∃ q ∈ fresh.drop n, q.key = k) ∧ ∀ q ∈ fresh.take n, q.key ≠ k) ∧
      (budget = none → ∀ q ∈ scanned only all, q.key ∉ g'.pending) := by
  have hsound := h.sound hfull
  have hsound' := ((GraphCall.names only budget).goes (hfull c hc)
    (fun r hr => (⟨c, hc, hr⟩ : RefusedAt times r)) hsound).sound
  obtain ⟨log, hsurveys⟩ := surveys_names c only budget g
  simp only [GraphCall.after] at hsound'
  rw [hrun] at hsurveys hsound'
  cases hsurveys with
  | @listed all log outcomes g₁ _ _ hall hdiscovers hsettle =>
    obtain ⟨hmem, hsettled, hclears⟩ := (ends_settle outcomes _ g₁).of_gives hsettle
    have hreport : ∀ k, k ∈ S ↔ (∃ q ∈ scanned only all, q.key = k) ∧
        ∀ o, (k, o) ∈ outcomes → o = some (.ok ()) := fun k => by
      rw [hmem k, mem_sortedSet, List.mem_map]
    have hpending : ∀ k ∈ g'.pending, (k ∈ g.pending ∧ ∀ q ∈ scanned only all, q.key ≠ k) ∨
        ∃ n, budget = some n ∧ (∃ q ∈ (g.unresolved (scanned only all)).drop n, q.key = k) ∧
          ∀ q ∈ (g.unresolved (scanned only all)).take n, q.key ≠ k := by
      intro k hk
      have hk' := (mem_pending hsound'.keyed).mp hk
      by_cases hfresh : ∃ q ∈ g.unresolved (scanned only all), q.key = k
      · obtain ⟨q, hq, rfl⟩ := hfresh
        obtain ⟨n, hn, hdrop, htake⟩ := exists_mem_drop hq
          (hdiscovers.key_ne_of_pending hsettled hclears hk')
        exact .inr ⟨n, hn, ⟨q, hdrop, rfl⟩, htake⟩
      · have hbefore := (hdiscovers.pending_or_noted (hclears.pending hk')).resolve_right hfresh
        refine .inl ⟨(mem_pending hsound.keyed).mpr hbefore, ?_⟩
        rintro q hq rfl
        exact hfresh ⟨q, mem_unresolved.mpr ⟨hq, resolved?_eq_none_of_pending hbefore⟩, rfl⟩
    refine ⟨all, _, log, outcomes, g₁, hall, rfl, hdiscovers, hreport, fun k hk => ?_, hpending, ?_⟩
    · obtain ⟨⟨q, hq, rfl⟩, hok⟩ := (hreport k).mp hk
      have hdone := hdiscovers.isSome_resolved? hq hok
      rw [← hclears.resolved?_eq] at hdone
      obtain ⟨d, hd⟩ := Option.isSome_iff_exists.mp hdone
      exact ⟨d, hsound'.mem_resolved.mpr hd⟩
    · intro hbudget q hq hk
      rcases hpending q.key hk with ⟨-, hout⟩ | ⟨n, hn, -⟩
      · exact hout q hq rfl
      · rw [hbudget] at hn
        cases hn

/-- The memo is left out and the order is reported. The line was not come to, but it was resolved
for the order, so that only the bill is newly pending. -/
theorem desk_names_finished :
    Gives (names desk.catalog (some deskKeys) (some 3)) deskBefore ["S.ITEM_T", "S.ORDER_T"]
      deskAfter ∧
    deskBefore.pending = ["S.NOTE_T"] ∧ deskAfter.pending = ["S.NOTE_T", "S.BILL_T"] ∧
    (∃ d, ("S.ORDER_T", .resolved d) ∈ deskAfter.entries) ∧
    ∃ all fresh, desk.catalog.typeNames = .ok all ∧
      fresh = deskBefore.unresolved (scanned (some deskKeys) all) ∧
      ∃ n, some 3 = some n ∧ (∃ q ∈ fresh.drop n, q.key = "S.BILL_T") ∧
        ∀ q ∈ fresh.take n, q.key ≠ "S.BILL_T" := by
  have hbefore : deskBefore.pending = ["S.NOTE_T"] := by decide +kernel
  have hafter : deskAfter.pending = ["S.NOTE_T", "S.BILL_T"] := by decide +kernel
  have hrun : Gives (names desk.catalog (some deskKeys) (some 3)) deskBefore
      ["S.ITEM_T", "S.ORDER_T"] deskAfter := gives_of_fst (by decide +kernel)
  have hwithin : ∀ c ∈ ({desk.catalog} : Set Catalog), c.Within desk.catalog := by
    rintro c rfl
    exact .refl desk.catalog
  obtain ⟨all, fresh, -, -, -, hall, hfresh, -, -, hdone, hpending, -⟩ :=
    reached_deskBefore.names_finished hwithin rfl hrun
  refine ⟨hrun, hbefore, hafter, hdone "S.ORDER_T" (by simp), all, fresh, hall, hfresh, ?_⟩
  refine (hpending "S.BILL_T" (by simp [hafter])).resolve_left fun h => ?_
  simp [hbefore] at h

end Reports

end StoredCall.TypeGraph
