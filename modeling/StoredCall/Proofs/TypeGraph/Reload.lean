import StoredCall.Proofs.TypeGraph.Bounds
import StoredCall.Proofs.TypeGraph.Memo
import StoredCall.Proofs.TypeGraph.Overlay
import StoredCall.Snapshot

/-!
# Graphs that are loaded again

A snapshot keeps the resolved types of a graph and nothing else: neither what texts stand for nor
the keys that a scan has noted. The graph of a snapshot gives all the same answers. What a text
stood for is found again by trying the names that it may mean, since the names that were passed over
are still not known; and noted keys are looked at by scans only.

* `TypeGraph.Agree`: two graphs have the same types resolved and the same keys open. Resolving a
  name comes to the same on both and keeps them in agreement.
* `TypeGraph.Faithful.resolve_eq_firstKnown`: in a faithful graph, a text that stands for a key is
  answered as if it stood for nothing.
* `Question` and `TypeGraph.replies`: what can be asked about types, and the answers to questions
  that are asked one after the other.
* **`TypeGraph.Reached.replies_ofSnapshot`**: a graph and the graph of its snapshot give the same
  answers.
-/

namespace StoredCall

open TypeGraph

-- How a reference is read is known from its normal text, and unfolding it is slow.
attribute [local irreducible] Reference.parse

namespace TypeGraph

variable {c : Catalog} {g g' g₁ g₁' : TypeGraph} {q r : QName} {raw : RawDef} {k text : String}

/-! ## Graphs that agree -/

/-- The same types are resolved and the same keys are open. Keys that a scan has noted, what texts
stand for and how often the catalog was asked may differ. -/
structure Agree (g g' : TypeGraph) : Prop where
  resolved : ∀ k, g.resolved? k = g'.resolved? k
  opened : ∀ k, Assoc.get? k g.entries = some .resolving ↔ Assoc.get? k g'.entries = some .resolving

namespace Agree

theorem refl (g : TypeGraph) : Agree g g := ⟨fun _ => rfl, fun _ => Iff.rfl⟩

theorem symm (h : Agree g g') : Agree g' g :=
  ⟨fun k => (h.resolved k).symm, fun k => (h.opened k).symm⟩

theorem trans {g'' : TypeGraph} (h : Agree g g') (h' : Agree g' g'') : Agree g g'' :=
  ⟨fun k => (h.resolved k).trans (h'.resolved k), fun k => (h.opened k).trans (h'.opened k)⟩

theorem of_entries_eq (h : Agree g g') (hg : g₁.entries = g.entries)
    (hg' : g₁'.entries = g'.entries) : Agree g₁ g₁' where
  resolved k := by
    rw [resolved?_congr (congrArg (Assoc.get? k) hg), resolved?_congr (congrArg (Assoc.get? k) hg')]
    exact h.resolved k
  opened k := by
    rw [hg, hg']
    exact h.opened k

theorem isOpenOrDone_iff (h : Agree g g') : g.isOpenOrDone k = true ↔ g'.isOpenOrDone k = true := by
  rw [isOpenOrDone_iff_resolved_or_resolving, isOpenOrDone_iff_resolved_or_resolving, h.resolved k,
    h.opened k]

/-- A key changes in the same way in both graphs. -/
theorem change (h : Agree g g')
    (hg : ∀ l, l ≠ k → Assoc.get? l g₁.entries = Assoc.get? l g.entries)
    (hg' : ∀ l, l ≠ k → Assoc.get? l g₁'.entries = Assoc.get? l g'.entries)
    (hself : Assoc.get? k g₁.entries = Assoc.get? k g₁'.entries) : Agree g₁ g₁' where
  resolved l := by
    by_cases hl : l = k
    · rw [hl, resolved?_congr hself]
    · rw [resolved?_congr (hg l hl), resolved?_congr (hg' l hl)]
      exact h.resolved l
  opened l := by
    by_cases hl : l = k
    · rw [hl, hself]
    · rw [hg l hl, hg' l hl]
      exact h.opened l

theorem marked (h : Agree g g') (k : String) (e : Entry) : Agree (g.marked k e) (g'.marked k e) :=
  h.change (fun _ hl => get?_marked_of_ne hl e) (fun _ hl => get?_marked_of_ne hl e)
    ((get?_marked_self g k e).trans (get?_marked_self g' k e).symm)

theorem without (h : Agree g g') (k : String) : Agree (g.without k) (g'.without k) :=
  h.change (fun _ hl => get?_without_of_ne hl) (fun _ hl => get?_without_of_ne hl)
    ((get?_without_self g k).trans (get?_without_self g' k).symm)

end Agree

theorem uncounted_agree : Uncounted Agree := fun h => h.of_entries_eq rfl rfl

/-! ## Resolving on graphs that agree -/

section Parts

variable {install : QName → TypeClass → Resolve Unit}

theorem alike_visit (hinst : ∀ {g g' : TypeGraph} (cls : TypeClass), Agree g g' →
    Alike Agree (install r cls) g g') (h : Agree g g') : Alike Agree (visit c install r) g g' := by
  refine alike_bind (alike_ask uncounted_agree h _) fun answer g₁ g₁' _ h₁ => ?_
  cases answer with
  | none => exact alike_throw h₁ _
  | some cls => exact hinst cls h₁

theorem alike_childRef_of_agree (hinst : ∀ {g g' : TypeGraph} (r : QName) (cls : TypeClass),
    Agree g g' → Alike Agree (install r cls) g g') (h : Agree g g') (t : AttributeType) :
    Alike Agree (childRef c install t) g g' := by
  cases t with
  | scalar s => exact alike_pure h _
  | named r =>
    unfold Alike
    by_cases hopen : g.isOpenOrDone r.key = true
    · rw [run_childRef_held hopen, run_childRef_held (h.isOpenOrDone_iff.mp hopen)]
      exact ⟨rfl, h⟩
    · rw [run_childRef_new hopen, run_childRef_new (mt h.isOpenOrDone_iff.mpr hopen)]
      exact alike_bind (alike_visit (hinst r) h) fun _ _ _ _ h₁ => alike_pure h₁ _

theorem alike_fieldRefs_of_agree (hinst : ∀ {g g' : TypeGraph} (r : QName) (cls : TypeClass),
    Agree g g' → Alike Agree (install r cls) g g') (h : Agree g g') (as : List Attribute) :
    Alike Agree (fieldRefs c install as) g g' := by
  induction as generalizing g g' with
  | nil => exact alike_pure h _
  | cons a as ih =>
    refine alike_bind (alike_childRef_of_agree hinst h a.type) fun _ _ _ _ h₁ => ?_
    exact alike_bind (ih h₁) fun _ _ _ _ h₂ => alike_pure h₂ _

theorem alike_build_of_agree (hinst : ∀ {g g' : TypeGraph} (r : QName) (cls : TypeClass),
    Agree g g' → Alike Agree (install r cls) g g') (h : Agree g g') (raw : RawDef) :
    Alike Agree (build c install raw) g g' := by
  cases raw with
  | scalar s => exact alike_pure h _
  | record as =>
    exact alike_bind (alike_fieldRefs_of_agree hinst h as) fun _ _ _ _ h₁ => alike_pure h₁ _
  | collection elem indexBy =>
    exact alike_bind (alike_childRef_of_agree hinst h elem.type) fun _ _ _ _ h₁ => alike_pure h₁ _

end Parts

/-- **Resolving a name comes to the same on graphs that agree.** -/
theorem alike_install {depth : Nat} (h : Agree g g') :
    Alike Agree (install c depth q raw) g g' := by
  induction depth generalizing q raw g g' with
  | zero => exact alike_throw h _
  | succ depth ih =>
    have hnested : ∀ {g g' : TypeGraph} (r : QName) (cls : TypeClass), Agree g g' →
        Alike Agree (nested c depth r cls) g g' := fun r cls h =>
      alike_bind (alike_fetch uncounted_agree h r cls) fun _ _ _ _ h₁ => alike_discard (ih h₁)
    have hbuild := alike_build_of_agree (c := c) hnested (h.marked q.key .resolving) raw
    unfold Alike at hbuild ⊢
    rw [run_install_succ, run_install_succ]
    rcases hg : (build c (nested c depth) raw).run (g.marked q.key .resolving) with ⟨o, g₁⟩
    rcases hg' : (build c (nested c depth) raw).run (g'.marked q.key .resolving) with ⟨o', g₁'⟩
    rw [hg, hg'] at hbuild
    obtain ⟨rfl, h₁⟩ := hbuild
    cases o with
    | error e => exact ⟨rfl, h₁.without q.key⟩
    | ok d => exact ⟨rfl, h₁.marked q.key (.resolved d)⟩

/-- Resolving a name that is not resolved, or trying the names after it. -/
def tryName (c : Catalog) (reference text : String) (q : QName) (rest : List QName) :
    Resolve Node := do
  match ← ask (c.classify q) with
  | none => firstKnown c reference text rest
  | some cls =>
    let raw ← fetch c q cls
    let d ← install c (allowance c) q raw
    remember text q.key
    return ⟨q.key, d⟩

section FirstKnown

variable {reference : String} {rest : List QName}

theorem run_firstKnown_done {d : TypeDef} (h : g.resolved? q.key = some d) :
    (firstKnown c reference text (q :: rest)).run g =
      (.ok ⟨q.key, d⟩, g.aliased text q.key) := by
  rw [firstKnown, run_get_bind, h]
  rfl

theorem run_firstKnown_new (h : g.resolved? q.key = none) :
    (firstKnown c reference text (q :: rest)).run g =
      (tryName c reference text q rest).run g := by
  rw [firstKnown, run_get_bind, h]
  rfl

/-- A name that the catalog does not know is passed over. -/
theorem run_tryName_unknown (h : c.classify q = .ok none) :
    (tryName c reference text q rest).run g =
      (firstKnown c reference text rest).run { g with asked := g.asked + 1 } := by
  rw [tryName, h]
  rfl

theorem alike_firstKnown (h : Agree g g') (qs : List QName) :
    Alike Agree (firstKnown c reference text qs) g g' := by
  induction qs generalizing g g' with
  | nil => exact alike_throw h _
  | cons q rest ih =>
    unfold Alike
    cases hd : g.resolved? q.key with
    | some d =>
      rw [run_firstKnown_done hd, run_firstKnown_done ((h.resolved _).symm.trans hd)]
      exact ⟨rfl, h.of_entries_eq rfl rfl⟩
    | none =>
      rw [run_firstKnown_new hd, run_firstKnown_new ((h.resolved _).symm.trans hd)]
      refine alike_bind (alike_ask uncounted_agree h _) fun answer g₁ g₁' _ h₁ => ?_
      cases answer with
      | none => exact ih h₁
      | some cls =>
        refine alike_bind (alike_fetch uncounted_agree h₁ q cls) fun raw _ _ _ h₂ => ?_
        refine alike_bind (alike_install h₂) fun d _ _ _ h₃ => ?_
        exact ⟨rfl, h₃.of_entries_eq rfl rfl⟩

end FirstKnown

/-! ## What texts stand for -/

section Resolve

variable {reference : String} {r : Reference}

/-- A text that stands for nothing is answered by trying the names that it may mean. -/
theorem run_resolve_of_no_alias (hread : Reference.ofNormal? (normalize reference) = some r)
    (hkey : Assoc.get? (normalize reference) g.aliases = none) :
    (resolve c reference).run g =
      (firstKnown c reference r.text (r.candidates c.owner)).run g := by
  rw [← Reference.text_of_ofNormal? hread] at hkey
  unfold resolve
  rw [Reference.parse_eq_ok_iff.mpr hread]
  refine (run_get_bind _ g).trans ?_
  rw [hkey]
  rfl

/-- The names that are tried before the key that a text stands for are still not known. -/
theorem Means.run_firstKnown (hknows : ∀ q, ∃ answer, c.classify q = .ok answer)
    (h : Means c g r k) {d : TypeDef} (hd : g.resolved? k = some d) (reference text : String) :
    ∃ g₁, (firstKnown c reference text (r.candidates c.owner)).run g = (.ok ⟨k, d⟩, g₁) ∧
      Agree g g₁ := by
  obtain ⟨q, hq, rfl⟩ := h.candidate
  have hlen := r.length_candidates_le c.owner
  have hpassed := h.passed
  cases hqs : r.candidates c.owner with
  | nil => rw [hqs] at hq; cases hq
  | cons p rest =>
    rw [hqs] at hq hlen
    by_cases hp : p.key = q.key
    · rw [← hp] at hd ⊢
      exact ⟨_, run_firstKnown_done hd, .of_entries_eq (.refl g) rfl rfl⟩
    · obtain ⟨hunnamed, hnone⟩ := hpassed p rest hqs hp
      have hclassify : c.classify p = .ok none := by
        obtain ⟨_ | cls, hp⟩ := hknows p
        · exact hp
        · exact absurd hp (hunnamed p cls rfl)
      -- There is only one name left.
      obtain rfl : rest = [q] := by
        have hne : q ≠ p := fun heq => hp (heq ▸ rfl)
        have hrest := (List.mem_cons.mp hq).resolve_left hne
        obtain ⟨p', rfl⟩ : ∃ p', rest = [p'] := List.length_eq_one_iff.mp (by
          have := List.length_pos_of_mem hrest
          simp only [List.length_cons] at hlen
          omega)
        rw [List.mem_singleton.mp hrest]
      rw [run_firstKnown_new hnone, run_tryName_unknown hclassify]
      exact ⟨_, run_firstKnown_done hd, .of_entries_eq (.refl g) rfl rfl⟩

/-- **A text that stands for a key is answered as if it stood for nothing.** -/
theorem Faithful.resolve_eq_firstKnown (hknows : ∀ q, ∃ answer, c.classify q = .ok answer)
    (hf : Faithful c g) (hplain : PlainText reference)
    (hread : Reference.ofNormal? (normalize reference) = some r) :
    ((resolve c reference).run g).1 =
        ((firstKnown c reference r.text (r.candidates c.owner)).run g).1 ∧
      Agree ((resolve c reference).run g).2
        ((firstKnown c reference r.text (r.candidates c.owner)).run g).2 := by
  cases hkey : Assoc.get? (normalize reference) g.aliases with
  | none =>
    rw [run_resolve_of_no_alias hread hkey]
    exact ⟨rfl, .refl _⟩
  | some k =>
    have hmeans := hf _ r k hplain.capital_normalize hread hkey
    obtain ⟨d, hd⟩ := Option.isSome_iff_exists.mp hmeans.resolved
    obtain ⟨g₁, hrun, hg₁⟩ := hmeans.run_firstKnown hknows hd reference r.text
    rw [run_resolve_of_alias hread hkey hd, hrun]
    exact ⟨rfl, hg₁⟩

end Resolve

/-- Graphs that agree, with texts in each that stand for what they may mean. -/
structure Mates (c : Catalog) (g g' : TypeGraph) : Prop where
  agree : Agree g g'
  left : Faithful c g
  right : Faithful c g'

theorem Faithful.after_resolve (hf : Faithful c g) (reference : String) :
    Faithful c ((resolve c reference).run g).2 :=
  Abides.faithful ((abides_resolve (.refl c) rfl hf reference).mono (fun _ _ h => h.1)
    (fun _ _ h => h)).state

/-- **A reference is resolved to the same** in graphs that agree, whatever it stands for there. -/
theorem Mates.alike_resolve (hknows : ∀ q, ∃ answer, c.classify q = .ok answer)
    (h : Mates c g g') {reference : String} (hplain : PlainText reference) :
    Alike (Mates c) (resolve c reference) g g' := by
  have halike : Alike Agree (resolve c reference) g g' := by
    cases hparse : Reference.parse reference with
    | error e =>
      unfold resolve
      rw [hparse]
      exact alike_throw h.agree _
    | ok r =>
      have hread := Reference.parse_eq_ok_iff.mp hparse
      obtain ⟨hanswer, hagree⟩ := h.left.resolve_eq_firstKnown hknows hplain hread
      obtain ⟨hanswer', hagree'⟩ := h.right.resolve_eq_firstKnown hknows hplain hread
      obtain ⟨hfirst, hfirst'⟩ : Alike Agree (firstKnown c reference r.text (r.candidates c.owner))
          g g' := alike_firstKnown h.agree _
      exact ⟨hanswer.trans (hfirst.trans hanswer'.symm), hagree.trans (hfirst'.trans hagree'.symm)⟩
  exact ⟨halike.1, halike.2, h.left.after_resolve reference, h.right.after_resolve reference⟩

end TypeGraph

/-! ## Questions -/

/-- What can be asked about types. -/
inductive Question where
  | get (reference : String)
  | expand (reference : String) (direction : Direction)
  | equal (a b : String)
  deriving DecidableEq, Repr

/-- What a question is answered with. -/
inductive Answer where
  | node (node : Node)
  | shape (shape : Shape)
  | verdict (equal : Bool)

namespace Question

/-- The references that a question names. -/
def references : Question → List String
  | .get reference => [reference]
  | .expand reference _ => [reference]
  | .equal a b => [a, b]

/-- Asking a question of a graph. -/
def ask (c : Catalog) : Question → Resolve Answer
  | .get reference => return .node (← resolve c reference)
  | .expand reference direction => return .shape (← TypeGraph.expand c reference direction)
  | .equal a b => return .verdict (← TypeGraph.equal c a b)

end Question

namespace TypeGraph

variable {c : Catalog} {g g' : TypeGraph}

/-- The answers to questions that are asked one after the other. -/
def replies (c : Catalog) : List Question → TypeGraph → List (Except Error Answer)
  | [], _ => []
  | q :: rest, g => ((q.ask c).run g).1 :: replies c rest ((q.ask c).run g).2

/-- A question is answered with the same in graphs that agree. -/
theorem Mates.alike_ask (hknows : ∀ q, ∃ answer, c.classify q = .ok answer) (h : Mates c g g')
    {q : Question} (hplain : ∀ reference ∈ q.references, PlainText reference) :
    Alike (Mates c) (q.ask c) g g' := by
  cases q with
  | get reference =>
    have href := hplain reference List.mem_cons_self
    exact alike_bind (h.alike_resolve hknows href) fun _ _ _ _ h₁ => alike_pure h₁ _
  | expand reference direction =>
    have href := hplain reference List.mem_cons_self
    refine alike_bind (alike_bind (h.alike_resolve hknows href) fun node g₁ g₁' _ h₁ => ?_)
      fun _ _ _ _ h₂ => alike_pure h₂ _
    exact alike_ofExcept_get h₁ (shapeOf_congr h₁.agree.resolved direction node.key)
  | equal a b =>
    have ha := hplain a List.mem_cons_self
    have hb := hplain b (by simp [Question.references])
    refine alike_bind (alike_bind (h.alike_resolve hknows ha) fun m g₁ g₁' _ h₁ => ?_)
      fun _ _ _ _ h₂ => alike_pure h₂ _
    refine alike_bind (h₁.alike_resolve hknows hb) fun n g₂ g₂' _ h₂ => ?_
    exact ⟨congrArg Except.ok (sameKeys_congr h₂.agree.resolved m.key n.key), h₂⟩

/-- Questions one after the other are answered with the same in graphs that agree. -/
theorem Mates.replies_eq (hknows : ∀ q, ∃ answer, c.classify q = .ok answer) (h : Mates c g g')
    {qs : List Question} (hplain : ∀ q ∈ qs, ∀ reference ∈ q.references, PlainText reference) :
    replies c qs g = replies c qs g' := by
  induction qs generalizing g g' with
  | nil => rfl
  | cons q rest ih =>
    obtain ⟨hanswer, hmates⟩ := h.alike_ask hknows (hplain q List.mem_cons_self)
    rw [replies, replies, hanswer, ih hmates fun q' hq' => hplain q' (List.mem_cons_of_mem q hq')]

/-! ## The graph of a snapshot -/

theorem mem_types {k : String} {d : TypeDef} :
    (k, d) ∈ g.types ↔ (k, Entry.resolved d) ∈ g.entries := by
  rw [types, List.mem_filterMap]
  constructor
  · rintro ⟨⟨l, _ | _ | e⟩, he, hl⟩ <;> cases hl
    exact he
  · exact fun h => ⟨_, h, rfl⟩

theorem mem_entries_ofSnapshot {k : String} {e : Entry} :
    (k, e) ∈ (ofSnapshot g.snapshot).entries ↔
      ∃ d, e = .resolved d ∧ (k, .resolved d) ∈ g.entries := by
  rw [ofSnapshot, List.mem_map]
  constructor
  · rintro ⟨⟨l, d⟩, hd, hl⟩
    cases hl
    exact ⟨d, rfl, mem_types.mp hd⟩
  · rintro ⟨d, rfl, hd⟩
    exact ⟨(k, d), mem_types.mpr hd, rfl⟩

theorem keyed_entries_ofSnapshot (h : Assoc.Keyed g.entries) :
    Assoc.Keyed (ofSnapshot g.snapshot).entries := by
  have hsub : ∀ es : List (String × Entry),
      ((TypeGraph.types { entries := es }).map Prod.fst).Sublist (es.map Prod.fst) := by
    intro es
    induction es with
    | nil => exact .slnil
    | cons e es ih =>
      obtain ⟨k, _ | _ | d⟩ := e
      · exact ih.cons k
      · exact ih.cons k
      · exact ih.cons_cons k
  have hkeys : (ofSnapshot g.snapshot).entries.map Prod.fst = g.types.map Prod.fst := by
    simp only [ofSnapshot, snapshot, List.map_map, Function.comp_def]
  rw [Assoc.Keyed, hkeys]
  exact List.Nodup.sublist (hsub g.entries) h

/-- A graph with nothing open agrees with the graph of its snapshot. -/
theorem agree_ofSnapshot (hkeyed : Assoc.Keyed g.entries)
    (hdone : ∀ k, Assoc.get? k g.entries ≠ some .resolving) : Agree g (ofSnapshot g.snapshot) := by
  have hkeyed' := keyed_entries_ofSnapshot hkeyed
  refine ⟨fun k => Option.ext fun d => ?_, fun k => ?_⟩
  · rw [resolved?_eq_some_iff, resolved?_eq_some_iff, ← Assoc.mem_iff_get? hkeyed,
      ← Assoc.mem_iff_get? hkeyed', mem_entries_ofSnapshot]
    simp
  · rw [← Assoc.mem_iff_get? hkeyed', mem_entries_ofSnapshot]
    simp [hdone]

theorem Reached.faithful (h : Reached {c} g) : Faithful c g := by
  induction h with
  | empty => exact faithful_of_aliases_eq_nil rfl
  | call _ hc call ih =>
    obtain rfl := Set.mem_singleton_iff.mp hc
    exact (call.abides (.refl _) rfl ih).faithful

/-- **A snapshot keeps all that can be asked for.** Where the catalog knows of every name whether it
is that of a type, and its answers do not change, the graph of a snapshot gives the same answers as
the graph that the snapshot was taken of: to every question about references without quotes and
white space, and after any other such questions. -/
theorem Reached.replies_ofSnapshot (hknows : ∀ q, ∃ answer, c.classify q = .ok answer)
    (h : Reached {c} g) {qs : List Question}
    (hplain : ∀ q ∈ qs, ∀ reference ∈ q.references, PlainText reference) :
    replies c qs (ofSnapshot g.snapshot) = replies c qs g := by
  have hsound : Sound c (RefusedAt {c}) [] g :=
    h.sound fun c' hc' => Set.mem_singleton_iff.mp hc' ▸ .refl c
  have hdone : ∀ k, Assoc.get? k g.entries ≠ some .resolving := fun k hk => by
    obtain ⟨p, hp, -⟩ := (hsound.opened k).mp hk
    cases hp
  have hmates : Mates c g (ofSnapshot g.snapshot) :=
    ⟨agree_ofSnapshot hsound.keyed hdone, h.faithful, faithful_of_aliases_eq_nil rfl⟩
  exact (hmates.replies_eq hknows hplain).symm

/-- A depot, with the type of its moves in a package. -/
def depot : Store where
  owner := "s"
  types := [
    ("S.PKG.MOVE_T", .record [⟨"NO", .scalar { name := "NUMBER" }⟩]),
    ("S.ITEM_T", .object [⟨"NO", .scalar { name := "NUMBER" }⟩])]
  names := [{ owner := "S", name := "ITEM_T" }]

/-- A move was asked for, and a scan was given up after it had noted the item. -/
def depotNoted : TypeGraph :=
  (GraphCall.names none (some 0)).after depot.catalog
    ((GraphCall.get "pkg.move_t").after depot.catalog {})

/-- The move is found again, an unknown type is not found, and the item that was only noted is
resolved. -/
def depotQuestions : List Question :=
  [.get "pkg.move_t", .get "pkg.none", .equal "Pkg.Move_t" "item_t", .expand "s.item_t" .input]

/-- The graph of the snapshot has forgotten both the text and the noted key, and answers all
questions as before. -/
theorem depotNoted_replies_ofSnapshot :
    (ofSnapshot depotNoted.snapshot).aliases ≠ depotNoted.aliases ∧
    (ofSnapshot depotNoted.snapshot).entries ≠ depotNoted.entries ∧
    replies depot.catalog depotQuestions (ofSnapshot depotNoted.snapshot) =
      replies depot.catalog depotQuestions depotNoted := by
  have hreached : Reached {depot.catalog} depotNoted :=
    .call (.call .empty (Set.mem_singleton _) _) (Set.mem_singleton _) _
  have hplain : ∀ q ∈ depotQuestions, ∀ reference ∈ q.references, PlainText reference := by
    simp [depotQuestions, Question.references, PlainText, Text.isBlank]
  refine ⟨by decide +kernel, by decide +kernel, ?_⟩
  exact hreached.replies_ofSnapshot (fun q => ⟨_, rfl⟩) hplain

end TypeGraph

end StoredCall
