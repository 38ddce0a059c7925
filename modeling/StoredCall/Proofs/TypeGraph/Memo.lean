import StoredCall.Proofs.Name
import StoredCall.Proofs.TypeGraph.Termination

/-!
# Answers are kept

A reference that was answered once gets the same answer ever after, from what is kept, and so does
the key of the type it was answered with. Two things could go wrong. A type could be dropped or put
in anew, and the text of a reference could come to stand for another key: `PREFIX.NAME` may mean the
type of an owner or that of a package, and the first one that is known is taken.

* `TypeGraph.Grows full g g'`: what is resolved stays, and only keys of names that the catalog knows
  become resolved. Every run by the rules of `TypeGraph.Does` keeps to it, from any graph.
* `TypeGraph.Faithful full g`: every key that a text stands for is that of a resolved name which the
  text may mean, and the catalog knows no name with the key that was passed over.
* `GraphCall.abides`: calls keep a graph faithful, and its texts stand for the same keys.
* **`TypeGraph.resolve_again`**: an answer is given again without asking the catalog.
-/

namespace StoredCall

open TypeGraph

-- How a reference is read is known from its normal text, and unfolding it is slow.
attribute [local irreducible] Reference.parse

/-- No name with a key is known to the catalog. -/
def Catalog.Unnamed (c : Catalog) (k : String) : Prop :=
  ∀ q cls, q.key = k → c.classify q ≠ .ok (some cls)

namespace TypeGraph

variable {full c : Catalog} {g g' g₁ g₂ : TypeGraph} {q : QName} {k text : String}

/-! ## Growing -/

/-- What is resolved stays, only keys of names that the catalog knows become resolved, and texts
stand for the same keys. -/
structure Grows (full : Catalog) (g g' : TypeGraph) : Prop where
  kept : Kept g g'
  unnamed : ∀ k, full.Unnamed k → g.resolved? k = none → g'.resolved? k = none
  aliases : g'.aliases = g.aliases

theorem Grows.of_resolved?_eq (h : ∀ k, g'.resolved? k = g.resolved? k)
    (haliases : g'.aliases = g.aliases) : Grows full g g' where
  kept k _ hd := (h k).trans hd
  unnamed k _ hk := (h k).trans hk
  aliases := haliases

instance : IsPreorder TypeGraph (Grows full) where
  refl _ := .of_resolved?_eq (fun _ => rfl) rfl
  trans _ _ _ h h' := {
    kept := h.kept.trans h'.kept
    unnamed := fun k hk hnone => h'.unnamed k hk (h.unnamed k hk hnone)
    aliases := h'.aliases.trans h.aliases }

/-- Nothing but pending keys come and go. -/
theorem Grows.of_pending (h : ∀ k e, e ≠ .pending →
      (Assoc.get? k g'.entries = some e ↔ Assoc.get? k g.entries = some e))
    (haliases : g'.aliases = g.aliases) : Grows full g g' := by
  refine .of_resolved?_eq (fun k => ?_) haliases
  ext d
  rw [resolved?_eq_some_iff, resolved?_eq_some_iff]
  exact h k _ (by simp)

/-- A name that was not resolved is opened, and its key is all that changes at the end. -/
theorem Grows.around {cls : TypeClass} (hcls : full.classify q = .ok (some cls))
    (hq : g.resolved? q.key = none) (h : Grows full (g.marked q.key .resolving) g₁)
    (hother : ∀ l, l ≠ q.key → Assoc.get? l g₂.entries = Assoc.get? l g₁.entries)
    (haliases : g₂.aliases = g₁.aliases) : Grows full g g₂ where
  kept := h.kept.around hq hother
  unnamed l hl hnone := by
    have hne : l ≠ q.key := fun heq => hl q cls heq.symm hcls
    rw [resolved?_congr (hother l hne)]
    exact h.unnamed l hl ((resolved?_congr (get?_marked_of_ne hne _)).trans hnone)
  aliases := haliases.trans h.aliases

theorem Asks.grows (h : Asks g g') : Grows full g g' := .of_resolved?_eq h.resolved?_eq h.aliases

/-! ## Steps that make a graph grow -/

/-- **Resolving a name makes a graph grow**, whether it succeeds or fails. -/
theorem Does.grows {task : Task} {log : List Asked} {o : Except Error Unit} (hc : c.Within full)
    (h : Does c task g log o g') (hnew : task.New g) : Grows full g g' := by
  induction h with
  | undefined hlook => exact hlook.asks.grows
  | resolved hlook _ ih =>
    obtain ⟨cls, hcls⟩ := hlook.exists_classify
    refine Grows.around (hc.classify hcls) hnew ?_ (fun l hl => get?_marked_of_ne hl _) rfl
    exact trans_of (Grows full) (hlook.asks.marked _ .resolving).grows (ih trivial)
  | dropped hlook _ ih =>
    obtain ⟨cls, hcls⟩ := hlook.exists_classify
    refine Grows.around (hc.classify hcls) hnew ?_ (fun l hl => get?_without_of_ne hl) rfl
    exact trans_of (Grows full) (hlook.asks.marked _ .resolving).grows (ih trivial)
  | scalar | held | nothing => exact refl_of (Grows full) _
  | visited hfree _ ih => exact ih (resolved?_eq_none_of_isOpenOrDone hfree)
  | next _ _ ih ih' => exact trans_of (Grows full) (ih trivial) (ih' trivial)
  | stop _ ih => exact ih trivial

/-- Resolving a name that the catalog has classified, and that was not resolved. -/
theorem grows_installed (hc : c.Within full) {cls : TypeClass}
    (hcls : c.classify q = .ok (some cls)) (hq : g.resolved? q.key = none) :
    Ends (do
        let raw ← fetch c q cls
        install c (allowance c) q raw) { g with asked := g.asked + 1 }
      (fun d g' => Grows full g g' ∧ g'.resolved? q.key = some d) (fun _ => Grows full g) := by
  refine (performs_fetch_install hcls fun hraw _ => completes_allowance hraw).mono
    (fun d g' h => ?_) (fun e g' h => ?_)
  · obtain ⟨hd, log, hdoes⟩ := h
    exact ⟨hdoes.grows hc hq, hd⟩
  · obtain ⟨log, hdoes⟩ := h
    exact hdoes.grows hc hq

theorem moves_discover (hc : c.Within full) (q : QName) :
    Moves (Grows full) (discover c q) := by
  intro g
  refine ends_bind.mpr (ends_get.mpr ?_)
  by_cases hq : (g.resolved? q.key).isNone = true
  · rw [if_pos hq]
    refine ends_bind.mpr (ends_ask.mpr ?_)
    rcases hcls : c.classify q with e | _ | cls
    · exact refl_of (Grows full) g
    · exact (asks_asked g).grows
    · exact ends_bind_discard.mpr ((grows_installed hc hcls (Option.isNone_iff_eq_none.mp hq)).mono
        (fun _ _ h => h.1) (fun _ _ h => h))
  · rw [if_neg hq]
    exact refl_of (Grows full) g

theorem moves_note (qs : List QName) : Moves (Grows full) (note qs) := by
  exact fun g => ends_modify.mpr
    (.of_pending (fun k e he => get?_noting_eq_some_iff g qs k he) rfl)

theorem moves_forgetPending (key : String) : Moves (Grows full) (forgetPending key) := by
  intro g
  refine ends_modify.mpr (.of_pending (fun k e he => get?_forgetPending key k he g) ?_)
  split <;> rfl

/-! ## Texts that stand for keys -/

/-- A text that reads as `r` may stand for `k`: this is the key of a resolved name that `r` may
mean, and no name is known by the key that was passed over. -/
structure Means (full : Catalog) (g : TypeGraph) (r : Reference) (k : String) : Prop where
  resolved : (g.resolved? k).isSome = true
  candidate : ∃ q ∈ r.candidates full.owner, q.key = k
  passed : ∀ p rest, r.candidates full.owner = p :: rest → p.key ≠ k →
    full.Unnamed p.key ∧ g.resolved? p.key = none

theorem Means.grows {r : Reference} (h : Means full g r k) (hg : Grows full g g') :
    Means full g' r k where
  resolved := hg.kept.isSome h.resolved
  candidate := h.candidate
  passed p rest hp hne := by
    obtain ⟨hunnamed, hnone⟩ := h.passed p rest hp hne
    exact ⟨hunnamed, hg.unnamed p.key hunnamed hnone⟩

theorem Means.aliased {r : Reference} {l : String} (h : Means full g r k) :
    Means full (g.aliased text l) r k := ⟨h.resolved, h.candidate, h.passed⟩

/-- Texts in capitals stand for keys that they may mean. -/
def Faithful (full : Catalog) (g : TypeGraph) : Prop :=
  ∀ t r k, CapitalText t → Reference.ofNormal? t = some r → Assoc.get? t g.aliases = some k →
    Means full g r k

theorem faithful_of_aliases_eq_nil (h : g.aliases = []) : Faithful full g := by
  intro t r k _ _ hk
  rw [h] at hk
  cases hk

/-- A step that keeps a graph faithful, together with what is resolved and what texts stand for. -/
structure Abides (full : Catalog) (g g' : TypeGraph) : Prop where
  faithful : Faithful full g'
  kept : Kept g g'
  aliases : ∀ t r k, CapitalText t → Reference.ofNormal? t = some r →
    Assoc.get? t g.aliases = some k → Assoc.get? t g'.aliases = some k

theorem Abides.trans (h : Abides full g g₁) (h' : Abides full g₁ g₂) : Abides full g g₂ where
  faithful := h'.faithful
  kept := h.kept.trans h'.kept
  aliases t r k ht hr hk := h'.aliases t r k ht hr (h.aliases t r k ht hr hk)

theorem Grows.abides (hf : Faithful full g) (h : Grows full g g') : Abides full g g' where
  faithful t r k ht hr hk := (hf t r k ht hr (h.aliases ▸ hk)).grows h
  kept := h.kept
  aliases _ _ _ _ _ hk := h.aliases ▸ hk

theorem Abides.refl (hf : Faithful full g) : Abides full g g := (refl_of (Grows full) g).abides hf

/-- Noting what a text stands for that stood for nothing. -/
theorem Grows.abides_aliased {r : Reference} (hf : Faithful full g) (h : Grows full g g₁)
    (hread : Reference.ofNormal? text = some r)
    (hfree : CapitalText text → Assoc.get? text g.aliases = none)
    (hmeans : CapitalText text → Means full g₁ r k) : Abides full g (g₁.aliased text k) where
  faithful t r' l ht hr' hl := by
    by_cases heq : t = text
    · subst heq
      rw [hread] at hr'
      cases hr'
      rw [aliased, Assoc.get?_put_self] at hl
      cases hl
      exact (hmeans ht).aliased
    · rw [TypeGraph.aliased, Assoc.get?_put_of_ne heq] at hl
      exact ((h.abides hf).faithful t r' l ht hr' hl).aliased
  kept := h.kept
  aliases t r' l ht hr' hl := by
    have hne : t ≠ text := by
      rintro rfl
      rw [hfree ht] at hl
      cases hl
    rw [aliased, Assoc.get?_put_of_ne hne]
    exact (h.abides hf).aliases t r' l ht hr' hl

/-! ## Resolving a reference -/

/-- The first name that is known is one that the text may mean, if the names before it are not
known. -/
theorem means_of_passed {r : Reference} {passed rest : List QName}
    (hqs : r.candidates full.owner = passed ++ q :: rest)
    (hpassed : ∀ p ∈ passed, full.Unnamed p.key ∧ g.resolved? p.key = none)
    (hq : (g.resolved? q.key).isSome = true) : Means full g r q.key where
  resolved := hq
  candidate := ⟨q, by simp [hqs], rfl⟩
  passed p rest' hp hne := by
    rw [hqs] at hp
    cases passed with
    | nil => exact absurd (congrArg QName.key (List.cons.inj hp).1.symm) hne
    | cons p' passed =>
      obtain ⟨rfl, -⟩ := List.cons.inj hp
      exact hpassed p' List.mem_cons_self

/-- Trying the names that a reference may mean, after those that were passed over. -/
theorem abides_firstKnown (hc : c.Within full) {reference : String} {r : Reference}
    (hread : Reference.ofNormal? text = some r) {passed qs : List QName}
    (hqs : r.candidates full.owner = passed ++ qs) (hf : Faithful full g)
    (hfree : CapitalText text → Assoc.get? text g.aliases = none)
    (hpassed : CapitalText text → ∀ p ∈ passed, full.Unnamed p.key ∧ g.resolved? p.key = none) :
    Ends (firstKnown c reference text qs) g
      (fun node g' => Abides full g g' ∧ g'.resolved? node.key = some node.type ∧
        Assoc.get? text g'.aliases = some node.key)
      (fun _ => Abides full g) := by
  induction qs generalizing g passed with
  | nil => exact Abides.refl hf
  | cons q rest ih =>
    rw [firstKnown, ends_bind, ends_get]
    cases hq : g.resolved? q.key with
    | some d =>
      have hmeans : CapitalText text → Means full g r q.key := fun ht =>
        means_of_passed hqs (hpassed ht) (by simp [hq])
      exact ⟨(refl_of (Grows full) g).abides_aliased hf hread hfree hmeans, hq,
        Assoc.get?_put_self ..⟩
    | none =>
      refine ends_bind.mpr (ends_ask.mpr ?_)
      rcases hcls : c.classify q with e | _ | cls
      · exact Abides.refl hf
      · have hstep : Abides full g { g with asked := g.asked + 1 } :=
          (asks_asked g).grows.abides hf
        cases rest with
        | nil => exact hstep
        | cons q' rest =>
          -- The name is passed over for good, since no other name has its key.
          have hunnamed : CapitalText text → full.Unnamed q.key := fun ht p cls hp hcls' => by
            rw [(Reference.formed_of_ofNormal? ht hread).eq_of_key_eq hqs hp,
              hc.classify hcls] at hcls'
            cases hcls'
          have hpassed' : CapitalText text → ∀ p ∈ passed ++ [q], full.Unnamed p.key ∧
              TypeGraph.resolved? { g with asked := g.asked + 1 } p.key = none := by
            intro ht p hp
            rcases List.mem_append.mp hp with hp | hp
            · exact hpassed ht p hp
            · rw [List.mem_singleton.mp hp]
              exact ⟨hunnamed ht, hq⟩
          refine (ih (by simp [hqs]) hstep.faithful hfree hpassed').mono (fun _ _ h => ?_)
            (fun _ _ h => hstep.trans h)
          exact ⟨hstep.trans h.1, h.2⟩
      · have hinst := ends_bind.mp (grows_installed hc hcls hq)
        refine ends_bind.mpr (hinst.mono (fun raw g₁ h => ends_bind.mpr (h.mono ?_ ?_)) ?_)
        · rintro d g₂ ⟨hgrows, hd⟩
          have hmeans : CapitalText text → Means full g₂ r q.key := fun ht => by
            refine means_of_passed hqs (fun p hp => ?_) (by simp [hd])
            obtain ⟨hunnamed, hnone⟩ := hpassed ht p hp
            exact ⟨hunnamed, hgrows.unnamed p.key hunnamed hnone⟩
          exact ⟨hgrows.abides_aliased hf hread hfree hmeans, hd, Assoc.get?_put_self ..⟩
        · exact fun e g₂ hgrows => hgrows.abides hf
        · exact fun e g₁ hgrows => hgrows.abides hf

/-- A text that stands for a resolved key is answered from there. -/
theorem run_resolve_of_alias {reference : String} {r : Reference} {d : TypeDef}
    (hread : Reference.ofNormal? (normalize reference) = some r)
    (hkey : Assoc.get? (normalize reference) g.aliases = some k) (hd : g.resolved? k = some d) :
    (resolve c reference).run g = (.ok ⟨k, d⟩, g) := by
  rw [← Reference.text_of_ofNormal? hread] at hkey
  have hends : Ends (resolve c reference) g (fun node g' => node = ⟨k, d⟩ ∧ g' = g)
      (fun _ _ => False) := by
    unfold resolve
    rw [Reference.parse_eq_ok_iff.mpr hread]
    refine ends_bind.mpr (ends_get.mpr ?_)
    simp only [hkey, hd, Option.bind_eq_bind, Option.bind_some]
    exact ⟨rfl, rfl⟩
  obtain ⟨node, g', hrun, rfl, rfl⟩ := hends.exists_gives fun _ _ h => h
  exact hrun

/-- A text that stands for nothing yet is answered with the first name, if this is resolved. -/
theorem run_resolve_of_first {reference : String} {r : Reference} {d : TypeDef}
    {rest : List QName} (hread : Reference.ofNormal? (normalize reference) = some r)
    (hkey : Assoc.get? (normalize reference) g.aliases = none)
    (hqs : r.candidates c.owner = q :: rest) (hd : g.resolved? q.key = some d) :
    (resolve c reference).run g =
      (.ok ⟨q.key, d⟩, g.aliased (normalize reference) q.key) := by
  rw [← Reference.text_of_ofNormal? hread] at hkey ⊢
  have hends : Ends (resolve c reference) g
      (fun node g' => node = ⟨q.key, d⟩ ∧ g' = g.aliased r.text q.key) (fun _ _ => False) := by
    unfold resolve
    rw [Reference.parse_eq_ok_iff.mpr hread]
    refine ends_bind.mpr (ends_get.mpr ?_)
    simp only [hkey, Option.bind_eq_bind, Option.bind_none]
    rw [hqs, firstKnown, ends_bind, ends_get, hd]
    exact ⟨rfl, rfl⟩
  obtain ⟨node, g', hrun, rfl, rfl⟩ := hends.exists_gives fun _ _ h => h
  exact hrun

/-- A resolved key is answered with its type, if it reads as a reference that means its name
first. -/
theorem Faithful.resolve_key {r : Reference} {d : TypeDef} {rest : List QName}
    (hf : Faithful full g) (hformed : r.Formed) (htext : r.text = q.key)
    (hqs : r.candidates full.owner = q :: rest) (hd : g.resolved? q.key = some d)
    (howner : c.owner = full.owner) : ∃ g', (resolve c q.key).run g = (.ok ⟨q.key, d⟩, g') ∧
      g'.entries = g.entries ∧ g'.asked = g.asked := by
  have hcapital : CapitalText q.key := htext ▸ hformed.capital
  have hread : Reference.ofNormal? q.key = some r := htext ▸ hformed.ofNormal?_text
  have hnormal : normalize q.key = q.key := hcapital.normalize_eq
  have hread' : Reference.ofNormal? (normalize q.key) = some r := by rwa [hnormal]
  cases hfound : Assoc.get? q.key g.aliases with
  | none =>
    have hfree : Assoc.get? (normalize q.key) g.aliases = none := by rwa [hnormal]
    rw [← howner] at hqs
    exact ⟨_, run_resolve_of_first hread' hfree hqs hd, rfl, rfl⟩
  | some l =>
    -- Were it another key, the name would have been passed over and be unknown.
    have hl : q.key = l := by
      by_contra hne
      have hnone := ((hf q.key r l hcapital hread hfound).passed q rest hqs hne).2
      rw [hd] at hnone
      cases hnone
    have hself : Assoc.get? (normalize q.key) g.aliases = some q.key := by rw [hnormal, hfound, hl]
    exact ⟨g, run_resolve_of_alias hread' hself hd, rfl, rfl⟩

/-- **Resolving a reference keeps a graph faithful.** If it succeeds, the text stands for the key of
the answer, which is resolved. -/
theorem abides_resolve (hc : c.Within full) (howner : c.owner = full.owner)
    (hf : Faithful full g) (reference : String) :
    Ends (resolve c reference) g
      (fun node g' => Abides full g g' ∧ g'.resolved? node.key = some node.type ∧
        Assoc.get? (normalize reference) g'.aliases = some node.key ∧
        ∃ r, Reference.ofNormal? (normalize reference) = some r)
      (fun _ => Abides full g) := by
  unfold resolve
  cases hparse : Reference.parse reference with
  | error e => exact Abides.refl hf
  | ok r =>
    have hread := Reference.parse_eq_ok_iff.mp hparse
    have htext := Reference.text_of_ofNormal? hread
    have hfirst : (CapitalText (normalize reference) →
        Assoc.get? (normalize reference) g.aliases = none) →
        Ends (firstKnown c reference r.text (r.candidates c.owner)) g
          (fun node g' => Abides full g g' ∧ g'.resolved? node.key = some node.type ∧
            Assoc.get? (normalize reference) g'.aliases = some node.key ∧
            ∃ r, Reference.ofNormal? (normalize reference) = some r)
          (fun _ => Abides full g) := by
      intro hfree
      rw [htext, howner]
      refine (abides_firstKnown hc hread (List.nil_append _).symm hf hfree (by simp)).mono
        (fun node g' h => ?_) (fun _ _ h => h)
      exact ⟨h.1, h.2.1, h.2.2, r, hread⟩
    refine ends_bind.mpr (ends_get.mpr ?_)
    cases hkey : Assoc.get? r.text g.aliases with
    | none =>
      rw [htext] at hkey
      exact hfirst fun _ => hkey
    | some key =>
      cases hd : g.resolved? key with
      | none =>
        simp only [Option.bind_eq_bind, Option.bind_some, hd, Option.bind_none]
        rw [htext] at hkey
        refine hfirst fun ht => ?_
        have hmeans := (hf _ r key ht hread hkey).resolved
        rw [hd] at hmeans
        cases hmeans
      | some d =>
        simp only [Option.bind_eq_bind, Option.bind_some, hd]
        exact ⟨.refl hf, hd, htext ▸ hkey, r, hread⟩

/-- How a step changes a graph that was faithful before. -/
def Abiding (full : Catalog) (g g' : TypeGraph) : Prop := Faithful full g → Abides full g g'

instance : IsPreorder TypeGraph (Abiding full) where
  refl _ := Abides.refl
  trans _ _ _ h h' hf := (h hf).trans (h' (h hf).faithful)

theorem moves_abiding {α : Type} {x : Resolve α} (h : Moves (Grows full) x) :
    Moves (Abiding full) x := fun g =>
  (h g).mono (fun _ _ hgrows hf => hgrows.abides hf) (fun _ _ hgrows hf => hgrows.abides hf)

end TypeGraph

/-! ## Any calls -/

/-- **Every call keeps a graph faithful**, whether it succeeds or fails, and the texts of the graph
stand for the same keys as before. -/
theorem GraphCall.abides {full c : Catalog} {g : TypeGraph} (hc : c.Within full)
    (howner : c.owner = full.owner) (hf : Faithful full g) (call : GraphCall) :
    Abides full g (call.after c g) := by
  have hresolve : ∀ reference, Moves (Abiding full) (resolve c reference) := fun reference =>
    moves_imp_iff.mpr fun g₁ hf₁ => (abides_resolve hc howner hf₁ reference).mono
      (fun _ _ h => h.1) (fun _ _ h => h)
  exact call.moves hresolve (fun q => moves_abiding (moves_discover hc q))
    (fun qs => moves_abiding (moves_note qs))
    (fun key => moves_abiding (moves_forgetPending key)) g hf

namespace TypeGraph

variable {full c : Catalog} {times : Set Catalog} {g₀ g g' g₁ : TypeGraph}

/-- Calls lead from one graph to another, where the catalog is at each call one of `times`. -/
def Later (times : Set Catalog) : TypeGraph → TypeGraph → Prop :=
  Relation.ReflTransGen fun g g' => ∃ c ∈ times, ∃ call : GraphCall, g' = call.after c g

theorem Later.abides (hfull : ∀ c ∈ times, c.Within full ∧ c.owner = full.owner)
    (hf : Faithful full g) (h : Later times g g') : Abides full g g' := by
  induction h with
  | refl => exact .refl hf
  | tail _ hcall ih =>
    obtain ⟨c, hc, call, rfl⟩ := hcall
    exact ih.trans (call.abides (hfull c hc).1 (hfull c hc).2 ih.faithful)

/-! ## Stock and its moves -/

/-- Stock, with the type of its moves in a package. -/
def stock : Store where
  owner := "s"
  types := [
    ("S.PKG.MOVE_T", .record [⟨"ITEM", .named { owner := "S", name := "ITEM_T" }⟩]),
    ("S.ITEM_T", .object [⟨"NO", .scalar { name := "NUMBER" }⟩])]
  names := [{ owner := "S", name := "ITEM_T" }]

/-- At one time the attributes of an item cannot be asked for. -/
def stockTimes : Set Catalog := {stock.catalog.failing ["attributes S.ITEM_T"], stock.catalog}

/-- A move was asked for when its item could not be. -/
def stockGivenUp : TypeGraph :=
  (GraphCall.get "pkg.move_t").after (stock.catalog.failing ["attributes S.ITEM_T"]) {}

/-- A move. -/
def moveNode : Node := ⟨"S.PKG.MOVE_T", .record [⟨"ITEM", .named "S.ITEM_T"⟩]⟩

/-- Then it was asked for again. -/
def stockMoved : TypeGraph := (GraphCall.get "pkg.move_t").after stock.catalog stockGivenUp

/-- Then an unknown type was asked for, and everything was scanned. -/
def stockScanned : TypeGraph :=
  (GraphCall.names none none).after stock.catalog
    ((GraphCall.equal "pkg.move_t" "pkg.none").after stock.catalog stockMoved)

theorem within_stock :
    ∀ c ∈ stockTimes, c.Within stock.catalog ∧ c.owner = stock.catalog.owner := by
  rintro c (rfl | rfl)
  · exact ⟨Catalog.within_failing stock.catalog _, rfl⟩
  · exact ⟨.refl stock.catalog, rfl⟩

theorem writtenName_stock : WrittenName stock.catalog.owner :=
  ⟨by decide, by decide, by simp [PlainText, stock, Store.catalog, Text.isBlank]⟩

theorem later_stockGivenUp : Later stockTimes {} stockGivenUp :=
  .single ⟨_, .inl rfl, .get "pkg.move_t", rfl⟩

theorem later_stockScanned : Later stockTimes stockMoved stockScanned :=
  .tail (.single ⟨_, .inr rfl, .equal "pkg.move_t" "pkg.none", rfl⟩)
    ⟨_, .inr rfl, .names none none, rfl⟩

theorem run_resolve_move :
    (resolve stock.catalog "pkg.move_t").run stockGivenUp = (.ok moveNode, stockMoved) := by
  have hok : ((resolve stock.catalog "pkg.move_t").run stockGivenUp).1 = .ok moveNode := by
    decide +kernel
  exact Prod.ext hok rfl

/-! ## Asking again -/

/-- **An answer is given again without asking the catalog.** Once a reference without quotes and
white space was answered, its type stays under its key, and both the reference and the key are
answered with it: whatever calls came in between, and whatever the catalog would say by then. The
first graph is any in which no text stands for a key, such as the empty one or a snapshot's. -/
theorem resolve_again (hfull : ∀ c ∈ times, c.Within full ∧ c.owner = full.owner)
    (howner : WrittenName full.owner) (hnew : g₀.aliases = []) (hg : Later times g₀ g)
    (hc : c ∈ times) {reference : String} (hplain : PlainText reference) {node : Node}
    (hrun : (resolve c reference).run g = (.ok node, g₁)) (hlater : Later times g₁ g') :
    Assoc.get? node.key g'.entries = some (.resolved node.type) ∧
      ∀ c' : Catalog, c'.owner = full.owner → ∀ text ∈ [reference, node.key],
        ∃ g'', (resolve c' text).run g' = (.ok node, g'') ∧ g''.entries = g'.entries ∧
          g''.asked = g'.asked := by
  have hcapital := hplain.capital_normalize
  have hf := (hg.abides hfull (faithful_of_aliases_eq_nil hnew)).faithful
  obtain ⟨hstep, hnode, halias, r, hread⟩ :=
    (abides_resolve (hfull c hc).1 (hfull c hc).2 hf reference).of_gives hrun
  have habides := hlater.abides hfull hstep.faithful
  have hnode' := habides.kept _ _ hnode
  have halias' := habides.aliases _ r _ hcapital hread halias
  refine ⟨resolved?_eq_some_iff.mp hnode', fun c' hc' text htext => ?_⟩
  rcases List.mem_pair.mp htext with rfl | rfl
  · exact ⟨g', run_resolve_of_alias hread halias' hnode', rfl, rfl⟩
  · -- The key reads as a reference that means its name first.
    obtain ⟨q, hq, hkey⟩ := (habides.faithful _ r _ hcapital hread halias').candidate
    obtain ⟨r', rest, hformed, hreads, hqs⟩ :=
      (Reference.formed_of_ofNormal? hcapital hread).exists_reads_key howner hq
    rw [← hkey] at hnode' ⊢
    have hnode_eq : (⟨q.key, node.type⟩ : Node) = node := by rw [hkey]
    rw [← hnode_eq]
    exact habides.faithful.resolve_key hformed hreads hqs hnode' hc'

/-- A move is found by what was asked for and by its key, though a type of an owner `PKG` was looked
for first and a call has failed since; no catalog is asked. -/
theorem stock_move_again : PlainText "pkg.move_t" ∧
    (resolve stock.catalog "pkg.move_t").run stockGivenUp = (.ok moveNode, stockMoved) ∧
    Assoc.get? "S.PKG.MOVE_T" stockScanned.entries = some (.resolved moveNode.type) ∧
    ∀ c : Catalog, c.owner = "s" → ∀ text ∈ ["pkg.move_t", "S.PKG.MOVE_T"],
      ∃ g, (resolve c text).run stockScanned = (.ok moveNode, g) ∧
        g.entries = stockScanned.entries ∧ g.asked = stockScanned.asked := by
  have hplain : PlainText "pkg.move_t" := by simp [PlainText, Text.isBlank]
  exact ⟨hplain, run_resolve_move, resolve_again within_stock writtenName_stock rfl
    later_stockGivenUp (.inr rfl) hplain run_resolve_move later_stockScanned⟩

end TypeGraph

end StoredCall
