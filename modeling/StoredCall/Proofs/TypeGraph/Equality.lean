import StoredCall.Catalog.Store
import StoredCall.Proofs.TypeGraph.Bounds

/-!
# Structural equality is bisimilarity

Types may be cyclic, so that two keys are of the same structure when some relation between keys
accounts for it: related keys are the same, or have definitions of one form whose parts are related
again. Comparing two keys decides whether there is such a relation.

The pairs that a comparison has seen are never taken back. A comparison that succeeds has looked at
all of them, so that they are a relation of this kind themselves; and a comparison of keys that are
related meets related keys only, so that nothing makes it fail.

* `TypeGraph.Bisimulation` and `TypeGraph.Bisimilar`: the relations, and the keys that one relates.
* `TypeGraph.confirms_sameKey`: what a comparison that succeeds has seen accounts for its answer.
* `TypeGraph.affirms_sameKey`: related keys are found the same, if the bound leaves room.
* **`TypeGraph.equal_iff_bisimilar`**: two references are equal exactly if their keys are bisimilar.
-/

namespace StoredCall.TypeGraph

variable {c : Catalog} {g : TypeGraph} {a b : String}

/-! ## Bisimulations -/

section Forms

variable (R : String → String → Prop)

/-- Parts are related: scalars if they are equal, named types if their keys are. -/
inductive RefsRelated : TypeRef → TypeRef → Prop
  | scalar (s : Scalar) : RefsRelated (.scalar s) (.scalar s)
  | named {a b : String} (h : R a b) : RefsRelated (.named a) (.named b)

/-- Fields have one name and related types. -/
structure FieldsRelated (a b : Field) : Prop where
  name : a.name = b.name
  type : RefsRelated R a.type b.type

/-- Definitions are of one form, and their parts are related. -/
inductive DefsRelated : TypeDef → TypeDef → Prop
  | scalar (s : Scalar) : DefsRelated (.scalar s) (.scalar s)
  | record {as bs : List Field} (h : List.Forall₂ (FieldsRelated R) as bs) :
    DefsRelated (.record as) (.record bs)
  | collection {s t : TypeRef} (h : RefsRelated R s t) (indexBy : Option IndexBy) :
    DefsRelated (.collection s indexBy) (.collection t indexBy)

/-- Related keys are the same, or both are resolved and their definitions are related. -/
def Bisimulation (g : TypeGraph) : Prop :=
  ∀ a b, R a b → a = b ∨
    ∃ d e, g.resolved? a = some d ∧ g.resolved? b = some e ∧ DefsRelated R d e

end Forms

/-- Two keys that some bisimulation relates. -/
def Bisimilar (g : TypeGraph) (a b : String) : Prop := ∃ R, Bisimulation R g ∧ R a b

section Mono

variable {R S : String → String → Prop} (h : ∀ a b, R a b → S a b)

include h

theorem RefsRelated.mono {s t : TypeRef} (hr : RefsRelated R s t) : RefsRelated S s t := by
  cases hr with
  | scalar s => exact .scalar s
  | named hab => exact .named (h _ _ hab)

theorem DefsRelated.mono {d e : TypeDef} (hr : DefsRelated R d e) : DefsRelated S d e := by
  cases hr with
  | scalar s => exact .scalar s
  | record hfields => exact .record (hfields.imp fun _ _ hf => ⟨hf.name, hf.type.mono h⟩)
  | collection hst i => exact .collection (hst.mono h) i

end Mono

/-! ## What a comparison that succeeds has seen -/

/-- Keys that are the same, or are taken to be the same once a pair has been seen. -/
def Assumed (seen : Seen) (a b : String) : Prop := a = b ∨ (a, b) ∈ seen

theorem Assumed.mono {seen seen' : Seen} (h : seen ⊆ seen') (a b : String)
    (hab : Assumed seen a b) : Assumed seen' a b := hab.imp_right (@h (a, b))

/-- The definitions of a pair are related by what has been seen. -/
def Backed (g : TypeGraph) (seen : Seen) (p : String × String) : Prop :=
  ∃ d e, g.resolved? p.1 = some d ∧ g.resolved? p.2 = some e ∧ DefsRelated (Assumed seen) d e

theorem Backed.mono {seen seen' : Seen} {p : String × String} (h : seen ⊆ seen')
    (hp : Backed g seen p) : Backed g seen' p := by
  obtain ⟨d, e, hd, he, hde⟩ := hp
  exact ⟨d, e, hd, he, hde.mono (Assumed.mono h)⟩

/-- More pairs have been seen, and what has been seen by now accounts for the new ones. -/
structure SeesOn (g : TypeGraph) (seen seen' : Seen) : Prop where
  kept : seen ⊆ seen'
  backed : ∀ p ∈ seen', p ∈ seen ∨ Backed g seen' p

theorem SeesOn.refl (g : TypeGraph) (seen : Seen) : SeesOn g seen seen :=
  ⟨List.Subset.refl seen, fun _ => .inl⟩

theorem SeesOn.trans {seen seen₁ seen₂ : Seen} (h : SeesOn g seen seen₁)
    (h' : SeesOn g seen₁ seen₂) : SeesOn g seen seen₂ := by
  refine ⟨List.Subset.trans h.kept h'.kept, fun p hp => ?_⟩
  rcases h'.backed p hp with hp | hp
  · exact (h.backed p hp).imp_right (Backed.mono h'.kept)
  · exact .inr hp

/-- Whenever a comparison succeeds, what it has seen accounts for `fact`. -/
def Confirms (g : TypeGraph) (x : StateM Seen Bool) (fact : Seen → Prop) : Prop :=
  ∀ seen, Comes x seen fun same seen' => same = true → SeesOn g seen seen' ∧ fact seen'

theorem confirms_pure {same : Bool} {fact : Seen → Prop} (h : same = true → ∀ seen, fact seen) :
    Confirms g (pure same) fact :=
  fun seen => comes_pure.mpr fun hsame => ⟨.refl g seen, h hsame seen⟩

theorem confirms_false {fact : Seen → Prop} : Confirms g (pure false) fact :=
  confirms_pure fun h => absurd h Bool.false_ne_true

section Parts

variable {same : String → String → StateM Seen Bool}

theorem confirms_sameRef (h : ∀ a b, Confirms g (same a b) fun seen => Assumed seen a b)
    (s t : TypeRef) : Confirms g (sameRef same s t) fun seen => RefsRelated (Assumed seen) s t := by
  cases s with
  | scalar x =>
    cases t with
    | scalar y =>
      refine confirms_pure fun hxy _ => ?_
      rw [eq_of_beq hxy]
      exact .scalar y
    | named y => exact confirms_false
  | named x =>
    cases t with
    | scalar y => exact confirms_false
    | named y => exact fun seen => (h x y seen).mono fun _ _ hr hsame =>
        ⟨(hr hsame).1, .named (hr hsame).2⟩

theorem confirms_sameFields (h : ∀ a b, Confirms g (same a b) fun seen => Assumed seen a b)
    (as bs : List Field) : Confirms g (sameFields same as bs) fun seen =>
      List.Forall₂ (FieldsRelated (Assumed seen)) as bs := by
  induction as generalizing bs with
  | nil =>
    cases bs with
    | nil => exact confirms_pure fun _ _ => .nil
    | cons b bs => exact confirms_false
  | cons a as ih =>
    cases bs with
    | nil => exact confirms_false
    | cons b bs =>
      rw [sameFields]
      by_cases hname : a.name = b.name
      · simp only [hname, ne_eq, not_true_eq_false, if_false]
        intro seen
        refine comes_bind.mpr ((confirms_sameRef h a.type b.type seen).mono ?_)
        intro first seen₁ hfirst
        cases first with
        | false => exact comes_pure.mpr fun hsame => absurd hsame Bool.false_ne_true
        | true =>
          obtain ⟨hsees, htype⟩ := hfirst rfl
          refine (ih bs seen₁).mono fun rest seen₂ hrest hsame => ?_
          obtain ⟨hsees', hfields⟩ := hrest hsame
          exact ⟨hsees.trans hsees', .cons ⟨hname, htype.mono (Assumed.mono hsees'.kept)⟩ hfields⟩
      · simp only [hname, ne_eq, not_false_eq_true, if_true]
        exact confirms_false

theorem confirms_sameDef (h : ∀ a b, Confirms g (same a b) fun seen => Assumed seen a b)
    (d e : TypeDef) : Confirms g (sameDef same d e) fun seen => DefsRelated (Assumed seen) d e := by
  cases d with
  | scalar x =>
    cases e with
    | scalar y =>
      refine confirms_pure fun hxy _ => ?_
      rw [eq_of_beq hxy]
      exact .scalar y
    | record | collection => exact confirms_false
  | record as =>
    cases e with
    | record bs =>
      rw [sameDef]
      by_cases hlength : as.length = bs.length
      · rw [if_pos hlength]
        exact fun seen => (confirms_sameFields h as bs seen).mono fun _ _ hr hsame =>
          ⟨(hr hsame).1, .record (hr hsame).2⟩
      · rw [if_neg hlength]
        exact confirms_false
    | scalar | collection => exact confirms_false
  | collection s i =>
    cases e with
    | collection t j =>
      rw [sameDef]
      by_cases hindex : i = j
      · rw [if_pos hindex, hindex]
        exact fun seen => (confirms_sameRef h s t seen).mono fun _ _ hr hsame =>
          ⟨(hr hsame).1, .collection (hr hsame).2 j⟩
      · rw [if_neg hindex]
        exact confirms_false
    | scalar | record => exact confirms_false

/-- One round: a pair that is new is accounted for by what its definitions were found to be. -/
theorem confirms_sameKeyBy (h : ∀ a b, Confirms g (same a b) fun seen => Assumed seen a b)
    (a b : String) : Confirms g (sameKeyBy g same a b) fun seen => Assumed seen a b := by
  intro seen
  unfold Comes
  by_cases hold : Assumed seen a b
  · rw [run_sameKeyBy_seen hold]
    exact fun _ => ⟨.refl g seen, hold⟩
  · obtain ⟨hab, hnew⟩ := not_or.mp hold
    by_cases hun : g.resolved? a = none ∨ g.resolved? b = none
    · rw [run_sameKeyBy_unresolved hab hnew hun]
      exact fun hsame => absurd hsame Bool.false_ne_true
    · obtain ⟨ha, hb⟩ := not_or.mp hun
      obtain ⟨d, ha⟩ := Option.ne_none_iff_exists'.mp ha
      obtain ⟨e, hb⟩ := Option.ne_none_iff_exists'.mp hb
      rw [run_sameKeyBy_resolved hab hnew ha hb]
      intro hsame
      obtain ⟨hsees, hde⟩ := confirms_sameDef h d e ((a, b) :: seen) hsame
      refine ⟨⟨List.subset_of_cons_subset hsees.kept, fun p hp => ?_⟩,
        .inr (hsees.kept List.mem_cons_self)⟩
      rcases hsees.backed p hp with hp | hp
      · rcases List.mem_cons.mp hp with rfl | hp
        · exact .inr ⟨d, e, ha, hb, hde⟩
        · exact .inl hp
      · exact .inr hp

end Parts

/-- **What a comparison that succeeds has seen accounts for its answer.** -/
theorem confirms_sameKey (g : TypeGraph) (fuel : Nat) (a b : String) :
    Confirms g (sameKey g fuel a b) fun seen => Assumed seen a b := by
  induction fuel generalizing a b with
  | zero => exact confirms_false
  | succ fuel ih => exact confirms_sameKeyBy ih a b

/-- Keys that are found the same are bisimilar. -/
theorem bisimilar_of_sameKeys (h : sameKeys g a b = true) : Bisimilar g a b := by
  obtain ⟨hsees, hab⟩ := confirms_sameKey g _ a b [] h
  refine ⟨_, fun x y hxy => hxy.imp_right fun hmem => ?_, hab⟩
  exact (hsees.backed _ hmem).resolve_left List.not_mem_nil

/-! ## A comparison of related keys -/

/-- A comparison succeeds once certain pairs have been seen, and forgets none of them. -/
def Affirms (base : Seen) (x : StateM Seen Bool) : Prop :=
  ∀ seen, base ⊆ seen → Comes x seen fun same seen' => same = true ∧ base ⊆ seen'

theorem affirms_true (base : Seen) : Affirms base (pure true) := fun _ hseen => ⟨rfl, hseen⟩

section Parts

variable {R : String → String → Prop} {base : Seen} {same : String → String → StateM Seen Bool}

theorem affirms_sameRef (h : ∀ a b, R a b → Affirms base (same a b)) {s t : TypeRef}
    (hst : RefsRelated R s t) : Affirms base (sameRef same s t) := by
  cases hst with
  | scalar x =>
    rw [sameRef, beq_self_eq_true]
    exact affirms_true base
  | named hab => exact h _ _ hab

theorem affirms_sameFields (h : ∀ a b, R a b → Affirms base (same a b)) {as bs : List Field}
    (hfields : List.Forall₂ (FieldsRelated R) as bs) : Affirms base (sameFields same as bs) := by
  induction hfields with
  | nil => exact affirms_true base
  | cons hfirst _ ih =>
    rw [sameFields]
    simp only [hfirst.name, ne_eq, not_true_eq_false, if_false]
    intro seen hseen
    refine comes_bind.mpr ((affirms_sameRef h hfirst.type seen hseen).mono ?_)
    rintro _ seen₁ ⟨rfl, hseen₁⟩
    exact ih seen₁ hseen₁

theorem affirms_sameDef (h : ∀ a b, R a b → Affirms base (same a b)) {d e : TypeDef}
    (hde : DefsRelated R d e) : Affirms base (sameDef same d e) := by
  cases hde with
  | scalar x =>
    rw [sameDef, beq_self_eq_true]
    exact affirms_true base
  | record hfields =>
    rw [sameDef, if_pos hfields.length_eq]
    exact affirms_sameFields h hfields
  | collection hst i =>
    rw [sameDef, if_pos rfl]
    exact affirms_sameRef h hst

/-- **Related keys are found the same**, if the bound leaves room for every pair that has not been
seen. -/
theorem affirms_sameKey (hR : Bisimulation R g) {fuel : Nat} (hroom : Roomy g fuel base)
    (hab : R a b) : Affirms base (sameKey g fuel a b) := by
  induction fuel generalizing base a b with
  | zero => exact absurd hroom not_roomy_zero
  | succ fuel ih =>
    intro seen hseen
    show Comes (sameKeyBy g (sameKey g fuel) a b) seen _
    unfold Comes
    by_cases hold : Assumed seen a b
    · rw [run_sameKeyBy_seen hold]
      exact ⟨rfl, hseen⟩
    · obtain ⟨hne, hnew⟩ := not_or.mp hold
      obtain ⟨d, e, ha, hb, hde⟩ := (hR a b hab).resolve_left hne
      rw [run_sameKeyBy_resolved hne hnew ha hb]
      have hroom' : Roomy g fuel ((a, b) :: seen) :=
        (hroom.mono hseen).cons (mem_doneKeys.mpr (by simp [ha])) (mem_doneKeys.mpr (by simp [hb]))
          hnew
      obtain ⟨hsame, hkept⟩ := affirms_sameDef (fun _ _ => ih hroom') hde _ (List.Subset.refl _)
      exact ⟨hsame, List.Subset.trans hseen (List.subset_of_cons_subset hkept)⟩

end Parts

/-- Comparing keys decides bisimilarity. -/
theorem sameKeys_iff_bisimilar (g : TypeGraph) (a b : String) :
    sameKeys g a b = true ↔ Bisimilar g a b := by
  refine ⟨bisimilar_of_sameKeys, ?_⟩
  rintro ⟨R, hR, hab⟩
  exact (affirms_sameKey hR (roomy_of_card_le (card_doneKeys_le g)) hab [] (List.Subset.refl _)).1

/-! ## References -/

/-- **Two references are equal exactly if their keys are bisimilar.** On every graph, if both can be
resolved, one after the other, the comparison comes to an end and decides bisimilarity in the graph
that they leave. -/
theorem equal_iff_bisimilar {reference reference' : String} {g₁ g₂ : TypeGraph} {m n : Node}
    (hm : Gives (resolve c reference) g m g₁) (hn : Gives (resolve c reference') g₁ n g₂) :
    ∃ same, Gives (equal c reference reference') g same g₂ ∧
      Settles (sameKeyBy g₂) (fun compare => ((compare m.key n.key).run []).1) same ∧
      (same = true ↔ Bisimilar g₂ m.key n.key) := by
  refine ⟨sameKeys g₂ m.key n.key, ?_, settles_sameKeys g₂ _ _, sameKeys_iff_bisimilar g₂ _ _⟩
  refine gives_bind.mpr ⟨m, g₁, hm, gives_bind.mpr ⟨n, g₂, hn, ?_⟩⟩
  exact gives_bind.mpr ⟨g₂, g₂, gives_get.mpr ⟨rfl, rfl⟩, gives_pure.mpr ⟨rfl, rfl⟩⟩

/-- Trees, and the same trees with two types that take turns from one level to the next. -/
def grove : Store where
  owner := "S"
  types :=
    let named (name : String) : AttributeType := .named { owner := "S", name }
    let label : Attribute := ⟨"LABEL", .scalar { name := "VARCHAR2" }⟩
    [("S.TREE_T", .object [label, ⟨"PARTS", named "TREES_T"⟩]),
      ("S.TREES_T", .collection ⟨"", named "TREE_T"⟩ none),
      ("S.EVEN_T", .object [label, ⟨"PARTS", named "ODDS_T"⟩]),
      ("S.ODDS_T", .collection ⟨"", named "ODD_T"⟩ none),
      ("S.ODD_T", .object [label, ⟨"PARTS", named "EVENS_T"⟩]),
      ("S.EVENS_T", .collection ⟨"", named "EVEN_T"⟩ none)]

/-- A tree, as it is resolved. -/
def treeNode : Node :=
  ⟨"S.TREE_T", .record [⟨"LABEL", .scalar { name := "VARCHAR2" }⟩, ⟨"PARTS", .named "S.TREES_T"⟩]⟩

/-- A tree of the second kind. -/
def evenNode : Node :=
  ⟨"S.EVEN_T", .record [⟨"LABEL", .scalar { name := "VARCHAR2" }⟩, ⟨"PARTS", .named "S.ODDS_T"⟩]⟩

/-- Trees have been resolved. -/
def groveTrees : TypeGraph := ((resolve grove.catalog "tree_t").run {}).2

/-- Then trees of the second kind have been. -/
def groveAll : TypeGraph := ((resolve grove.catalog "even_t").run groveTrees).2

/-- Trees are the same as those whose cycle is twice as long. -/
theorem grove_equal : Gives (resolve grove.catalog "tree_t") {} treeNode groveTrees ∧
    Gives (resolve grove.catalog "even_t") groveTrees evenNode groveAll ∧
    Gives (equal grove.catalog "tree_t" "even_t") {} true groveAll ∧
    Bisimilar groveAll "S.TREE_T" "S.EVEN_T" := by
  have hm : Gives (resolve grove.catalog "tree_t") {} treeNode groveTrees :=
    gives_of_fst (by decide +kernel)
  have hn : Gives (resolve grove.catalog "even_t") groveTrees evenNode groveAll :=
    gives_of_fst (by decide +kernel)
  obtain ⟨same, hsame, -, hiff⟩ := equal_iff_bisimilar hm hn
  have htrue : ((equal grove.catalog "tree_t" "even_t").run {}).1 = .ok true := by decide +kernel
  unfold Gives at hsame
  rw [hsame] at htrue
  obtain rfl : same = true := Except.ok.inj htrue
  exact ⟨hm, hn, hsame, hiff.mp rfl⟩

end StoredCall.TypeGraph
