import StoredCall.Proofs.TypeGraph.Bounds
import StoredCall.Proofs.TypeGraph.Memo

/-!
# Types that unfold

A type unfolds to a tree of scalars, records and tables. It does so exactly if no type that it leads
to contains itself, and each of them is resolved; how often a type is met besides does not matter.

While a type is unfolded, the types that are open lead to the one at hand. So a type that is found
open lies on a cycle, and nothing else makes unfolding fail but a key that is not resolved.

* `TypeGraph.Refers`, `TypeGraph.Reaches`, `TypeGraph.Cyclic`: the keys that a type leads to.
* `TypeGraph.Unfolds`: the tree that a reference stands for, by rules. It is unique.
* `TypeGraph.unfolds_expandKey`: what unfolding comes to follows the rules.
* `TypeGraph.blames_of_expandKey`: where unfolding fails, it names a key that is to blame.
* **`TypeGraph.expand_iff_unfoldable`**: unfolding a reference succeeds exactly for finite types,
  with the tree that the rules give.
-/

namespace StoredCall.TypeGraph

-- How a reference is read does not matter here, and unfolding it is slow.
attribute [local irreducible] Reference.parse

variable {c : Catalog} {g : TypeGraph} {direction : Direction} {key k : String}

/-! ## Cycles -/

/-- A resolved type has a part of the type under another key. -/
def Refers (g : TypeGraph) (k l : String) : Prop :=
  ∃ d, g.resolved? k = some d ∧ .named l ∈ d.refs

/-- A type leads to a key, through parts of parts. -/
def Reaches (g : TypeGraph) : String → String → Prop := Relation.ReflTransGen g.Refers

/-- A type is a part of itself, however deep. -/
def Cyclic (g : TypeGraph) (k : String) : Prop := Relation.TransGen g.Refers k k

/-- Every key that a type leads to is resolved, and none of them is on a cycle. -/
def Unfoldable (g : TypeGraph) (key : String) : Prop :=
  ∀ k, g.Reaches key k → (g.resolved? k).isSome = true ∧ ¬ g.Cyclic k

/-- A type whose parts are all finite is finite. -/
theorem unfoldable_of_parts {d : TypeDef} (hd : g.resolved? key = some d)
    (hparts : ∀ l, .named l ∈ d.refs → Unfoldable g l) : Unfoldable g key := by
  have hstep : ∀ {l}, g.Refers key l → Unfoldable g l := by
    rintro l ⟨e, he, hl⟩
    rw [hd] at he
    cases he
    exact hparts l hl
  intro k hk
  rcases Relation.ReflTransGen.cases_head hk with rfl | ⟨l, hl, hlk⟩
  · refine ⟨by simp [hd], fun hcycle => ?_⟩
    -- The first part on the cycle leads back to the key, which is then on no cycle.
    obtain ⟨l, hl, hback⟩ := Relation.TransGen.head'_iff.mp hcycle
    exact (hstep hl key hback).2 hcycle
  · exact hstep hl k hlk

/-! ## Trees -/

mutual

/-- The tree that a reference stands for. All nodes go in one direction; records and tables bear the
keys of their types. -/
inductive Unfolds (g : TypeGraph) (direction : Direction) : TypeRef → Shape → Prop
  | plain (s : Scalar) : Unfolds g direction (.scalar s) (.scalar s)
  | scalar {key : String} {s : Scalar} (type : g.resolved? key = some (.scalar s)) :
    Unfolds g direction (.named key) (.scalar s)
  | record {key : String} {fields : List Field} {args : List Argument}
    (type : g.resolved? key = some (.record fields))
    (parts : UnfoldsFields g direction 1 fields args) :
    Unfolds g direction (.named key) (.record (some key) args)
  /-- A collection is a table, a nested one unless integers index it. -/
  | collection {key : String} {part : TypeRef} {indexBy : Option IndexBy} {shape : Shape}
    (type : g.resolved? key = some (.collection part indexBy))
    (elem : Unfolds g direction part shape) :
    Unfolds g direction (.named key)
      (.table (some key) (some { name := "", position := 1, direction, shape })
        (indexBy ≠ some .integer) false)

/-- The arguments that fields stand for, in their order and at positions from `position` on. -/
inductive UnfoldsFields (g : TypeGraph) (direction : Direction) :
    (position : Nat) → List Field → List Argument → Prop
  | nil {position : Nat} : UnfoldsFields g direction position [] []
  | cons {position : Nat} {f : Field} {fields : List Field} {shape : Shape} {args : List Argument}
    (first : Unfolds g direction f.type shape)
    (rest : UnfoldsFields g direction (position + 1) fields args) :
    UnfoldsFields g direction position (f :: fields)
      ({ name := f.name, position := .ofNat position, direction, shape } :: args)

end

mutual

/-- A type that unfolds is finite. -/
theorem Unfolds.unfoldable : ∀ {r : TypeRef} {shape : Shape}, Unfolds g direction r shape →
    ∀ l, r = .named l → Unfoldable g l
  | _, _, .plain s, _, hl => by cases hl
  | _, _, .scalar type, _, hl => by
    cases hl
    exact unfoldable_of_parts type fun k hk => absurd hk List.not_mem_nil
  | _, _, .record type parts, _, hl => by
    cases hl
    refine unfoldable_of_parts type fun k hk => ?_
    obtain ⟨f, hf, hfk⟩ := List.mem_map.mp hk
    exact parts.unfoldable f hf k hfk
  | _, _, .collection type elem, _, hl => by
    cases hl
    refine unfoldable_of_parts type fun k hk => elem.unfoldable k ?_
    exact (List.mem_singleton.mp hk).symm

theorem UnfoldsFields.unfoldable : ∀ {position : Nat} {fields : List Field} {args : List Argument},
    UnfoldsFields g direction position fields args →
      ∀ f ∈ fields, ∀ l, f.type = .named l → Unfoldable g l
  | _, _, _, .nil, _, hf => absurd hf List.not_mem_nil
  | _, _, _, .cons first rest, f, hf => by
    rcases List.mem_cons.mp hf with rfl | hf
    · exact first.unfoldable
    · exact rest.unfoldable f hf

end

mutual

/-- A reference stands for one tree. -/
theorem Unfolds.unique : ∀ {r : TypeRef} {shape shape' : Shape}, Unfolds g direction r shape →
    Unfolds g direction r shape' → shape = shape'
  | _, _, _, .plain s, h' => by
    cases h'
    rfl
  | _, _, _, .scalar type, h' => by
    cases h' with
    | scalar type' =>
      rw [type] at type'
      cases type'
      rfl
    | record type' | collection type' =>
      rw [type] at type'
      cases type'
  | _, _, _, .record type parts, h' => by
    cases h' with
    | record type' parts' =>
      rw [type] at type'
      cases type'
      rw [parts.unique parts']
    | scalar type' | collection type' =>
      rw [type] at type'
      cases type'
  | _, _, _, .collection type elem, h' => by
    cases h' with
    | collection type' elem' =>
      rw [type] at type'
      cases type'
      rw [elem.unique elem']
    | scalar type' | record type' =>
      rw [type] at type'
      cases type'

theorem UnfoldsFields.unique : ∀ {position : Nat} {fields : List Field}
    {args args' : List Argument}, UnfoldsFields g direction position fields args →
      UnfoldsFields g direction position fields args' → args = args'
  | _, _, _, _, .nil, h' => by
    cases h'
    rfl
  | _, _, _, _, .cons first rest, h' => by
    cases h' with
    | cons first' rest' => rw [first.unique first', rest.unique rest']

end

/-! ## What unfolding comes to -/

section Parts

variable {inner : String → Except Error Shape}

theorem unfolds_expandRef
    (h : ∀ k shape, inner k = .ok shape → Unfolds g direction (.named k) shape) {r : TypeRef}
    {shape : Shape} (hr : expandRef inner r = .ok shape) : Unfolds g direction r shape := by
  cases r with
  | scalar s =>
    cases hr
    exact .plain s
  | named k => exact h k shape hr

theorem unfolds_expandFields
    (h : ∀ k shape, inner k = .ok shape → Unfolds g direction (.named k) shape)
    {position : Nat} {fields : List Field} {args : List Argument}
    (hargs : expandFields inner direction (.ofNat position) fields = .ok args) :
    UnfoldsFields g direction position fields args := by
  induction fields generalizing position args with
  | nil =>
    cases hargs
    exact .nil
  | cons f rest ih =>
    obtain ⟨shape, hshape, hargs⟩ := except_bind_eq_ok.mp hargs
    obtain ⟨more, hmore, hargs⟩ := except_bind_eq_ok.mp hargs
    cases hargs
    have hnext : UInt32.ofNat position + 1 = .ofNat (position + 1) :=
      (UInt32.ofNat_add position 1).symm
    rw [hnext] at hmore
    exact .cons (unfolds_expandRef h hshape) (ih hmore)

theorem unfolds_expandDef
    (h : ∀ k shape, inner k = .ok shape → Unfolds g direction (.named k) shape) {d : TypeDef}
    (hd : g.resolved? key = some d) {shape : Shape}
    (hshape : expandDef inner direction key d = .ok shape) :
    Unfolds g direction (.named key) shape := by
  cases d with
  | scalar s =>
    cases hshape
    exact .scalar hd
  | record fields =>
    obtain ⟨args, hargs, hshape⟩ := except_bind_eq_ok.mp hshape
    cases hshape
    exact .record hd (unfolds_expandFields h hargs)
  | collection part indexBy =>
    obtain ⟨elem, helem, hshape⟩ := except_bind_eq_ok.mp hshape
    cases hshape
    have hnested : (indexBy != some .integer) = decide (indexBy ≠ some .integer) := by
      rw [Bool.eq_iff_iff, bne_iff_ne, decide_eq_true_iff]
    rw [hnested]
    exact .collection hd (unfolds_expandRef h helem)

/-- A definition that cannot be unfolded has a part that cannot be. -/
theorem exists_of_expandRef_error {r : TypeRef} {e : Error} (h : expandRef inner r = .error e) :
    ∃ k, r = .named k ∧ inner k = .error e := by
  cases r with
  | scalar s => cases h
  | named k => exact ⟨k, rfl, h⟩

theorem exists_of_expandFields_error {position : UInt32} {fields : List Field} {e : Error}
    (h : expandFields inner direction position fields = .error e) :
    ∃ k, .named k ∈ fields.map Field.type ∧ inner k = .error e := by
  induction fields generalizing position with
  | nil => cases h
  | cons f rest ih =>
    rcases except_bind_eq_error.mp h with hfirst | ⟨shape, -, h⟩
    · obtain ⟨k, hk, he⟩ := exists_of_expandRef_error hfirst
      exact ⟨k, hk ▸ List.mem_cons_self, he⟩
    · rcases except_bind_eq_error.mp h with hrest | ⟨more, -, h⟩
      · obtain ⟨k, hk, he⟩ := ih hrest
        exact ⟨k, List.mem_cons_of_mem _ hk, he⟩
      · cases h

theorem exists_of_expandDef_error {d : TypeDef} {e : Error}
    (h : expandDef inner direction key d = .error e) :
    ∃ k, .named k ∈ d.refs ∧ inner k = .error e := by
  cases d with
  | scalar s => cases h
  | record fields =>
    rcases except_bind_eq_error.mp h with hfields | ⟨args, -, h⟩
    · exact exists_of_expandFields_error hfields
    · cases h
  | collection part indexBy =>
    rcases except_bind_eq_error.mp h with hpart | ⟨elem, -, h⟩
    · obtain ⟨k, hk, he⟩ := exists_of_expandRef_error hpart
      exact ⟨k, hk ▸ List.mem_cons_self, he⟩
    · cases h

end Parts

/-- **What unfolding comes to follows the rules**, whatever is open. -/
theorem unfolds_expandKey {fuel : Nat} {stack : List String} {shape : Shape}
    (h : expandKey g direction fuel stack key = .ok shape) :
    Unfolds g direction (.named key) shape := by
  induction fuel generalizing stack key shape with
  | zero => cases h
  | succ fuel ih =>
    rw [expandKey, expandKeyBy] at h
    cases hd : g.resolved? key with
    | none =>
      rw [hd] at h
      cases h
    | some d =>
      simp only [hd] at h
      split at h
      · cases h
      · exact unfolds_expandDef (fun _ _ => ih) hd h

/-- A failure names a key that a type leads to: one that is not resolved, or one on a cycle. -/
def Blames (g : TypeGraph) (key : String) (e : Error) : Prop :=
  ∃ k, g.Reaches key k ∧ (g.resolved? k = none ∧ e = .unknownType k ∨
    g.Cyclic k ∧ e = .notSupported k .recursiveType)

/-- **Where unfolding fails, it names a key that is to blame.** The types that are open are
resolved, are pairwise different and lead to the key, and the bound leaves room for the others. -/
theorem blames_of_expandKey {fuel : Nat} {stack : List String} {e : Error}
    (hnodup : stack.Nodup) (hdone : ∀ k ∈ stack, k ∈ g.doneKeys)
    (hfuel : g.doneKeys.card < fuel + stack.length)
    (hopen : ∀ k ∈ stack, Relation.TransGen g.Refers k key)
    (h : expandKey g direction fuel stack key = .error e) : Blames g key e := by
  induction fuel generalizing stack key with
  | zero =>
    have := length_le_card_doneKeys hnodup hdone
    omega
  | succ fuel ih =>
    rw [expandKey, expandKeyBy] at h
    cases hd : g.resolved? key with
    | none =>
      simp only [hd] at h
      cases h
      exact ⟨key, .refl, .inl ⟨hd, rfl⟩⟩
    | some d =>
      simp only [hd] at h
      split at h
      · rename_i hcontains
        cases h
        exact ⟨key, .refl, .inr ⟨hopen key (List.contains_iff_mem.mp hcontains), rfl⟩⟩
      · rename_i hcontains
        obtain ⟨l, hl, he⟩ := exists_of_expandDef_error h
        have hrefers : g.Refers key l := ⟨d, hd, hl⟩
        have hnew : (key :: stack).Nodup :=
          List.nodup_cons.mpr ⟨fun hmem => hcontains (List.contains_iff_mem.mpr hmem), hnodup⟩
        have hall : ∀ k ∈ key :: stack, k ∈ g.doneKeys :=
          List.forall_mem_cons.mpr ⟨mem_doneKeys.mpr (by simp [hd]), hdone⟩
        have hroom : g.doneKeys.card < fuel + (key :: stack).length := by
          rw [List.length_cons]
          omega
        have hlead : ∀ k ∈ key :: stack, Relation.TransGen g.Refers k l :=
          List.forall_mem_cons.mpr ⟨.single hrefers, fun k hk => (hopen k hk).tail hrefers⟩
        obtain ⟨k, hk, hblame⟩ := ih hnew hall hroom hlead he
        exact ⟨k, .head hrefers hk, hblame⟩

theorem blames_of_shapeOf {e : Error} (h : shapeOf g direction key = .error e) :
    Blames g key e := by
  have hle := card_doneKeys_le g
  refine blames_of_expandKey List.nodup_nil (by simp) ?_ (by simp) h
  rw [List.length_nil]
  omega

/-- What a key unfolds to is what the rules give. -/
theorem shapeOf_eq_ok_iff {shape : Shape} :
    shapeOf g direction key = .ok shape ↔ Unfolds g direction (.named key) shape := by
  refine ⟨unfolds_expandKey, fun h => ?_⟩
  cases hout : shapeOf g direction key with
  | ok shape' => rw [h.unique (unfolds_expandKey hout)]
  | error e =>
    obtain ⟨k, hk, ⟨hnone, -⟩ | ⟨hcycle, -⟩⟩ := blames_of_shapeOf hout
    · have hsome := (h.unfoldable key rfl k hk).1
      rw [hnone] at hsome
      cases hsome
    · exact absurd hcycle (h.unfoldable key rfl k hk).2

/-- A key can be unfolded exactly if it leads to resolved types only, and none on a cycle. -/
theorem shapeOf_isOk_iff :
    (∃ shape, shapeOf g direction key = .ok shape) ↔ Unfoldable g key := by
  constructor
  · rintro ⟨shape, h⟩
    exact (shapeOf_eq_ok_iff.mp h).unfoldable key rfl
  · intro h
    cases hout : shapeOf g direction key with
    | ok shape => exact ⟨shape, rfl⟩
    | error e =>
      obtain ⟨k, hk, ⟨hnone, -⟩ | ⟨hcycle, -⟩⟩ := blames_of_shapeOf hout
      · have hsome := (h k hk).1
        rw [hnone] at hsome
        cases hsome
      · exact absurd hcycle (h k hk).2

/-! ## References -/

theorem ends_firstKnown_resolved {reference text : String} (qs : List QName) :
    Ends (firstKnown c reference text qs) g
      (fun node g' => g'.resolved? node.key = some node.type) (fun _ _ => True) := by
  induction qs generalizing g with
  | nil => trivial
  | cons q rest ih =>
    rw [firstKnown, ends_bind, ends_get]
    cases hq : g.resolved? q.key with
    | some d => exact hq
    | none =>
      refine ends_bind.mpr (ends_ask.mpr ?_)
      rcases hcls : c.classify q with e | _ | cls
      · trivial
      · exact ih
      · have hinst := ends_bind.mp (grows_installed (.refl c) hcls hq)
        refine ends_bind.mpr (hinst.mono (fun raw g₁ h => ends_bind.mpr (h.mono ?_ ?_)) ?_)
        · exact fun d g₂ hd => hd.2
        · exact fun _ _ _ => trivial
        · exact fun _ _ _ => trivial

/-- A type that is given out is resolved under its key, on whatever graph it was asked for. -/
theorem resolved?_of_gives_resolve {reference : String} {node : Node} {g' : TypeGraph}
    (h : Gives (resolve c reference) g node g') : g'.resolved? node.key = some node.type := by
  have hends : Ends (resolve c reference) g
      (fun node g' => g'.resolved? node.key = some node.type) (fun _ _ => True) := by
    unfold resolve
    cases Reference.parse reference with
    | error e => trivial
    | ok r =>
      refine ends_bind.mpr (ends_get.mpr ?_)
      cases hkey : Assoc.get? r.text g.aliases with
      | none => exact ends_firstKnown_resolved _
      | some key =>
        cases hd : g.resolved? key with
        | none =>
          simp only [Option.bind_eq_bind, Option.bind_some, hd, Option.bind_none]
          exact ends_firstKnown_resolved _
        | some d =>
          simp only [Option.bind_eq_bind, Option.bind_some, hd]
          exact hd
  exact hends.of_gives h

/-- **Unfolding a reference succeeds exactly for finite types.** On every graph, if the reference
can be resolved, unfolding it comes to an end. It succeeds exactly if every key that the type leads
to is resolved and on no cycle, and then with the one tree that the rules give. -/
theorem expand_iff_unfoldable {reference : String} {node : Node} {g' : TypeGraph}
    (h : Gives (resolve c reference) g node g') (direction : Direction) :
    g'.resolved? node.key = some node.type ∧
      ∃ outcome, (expand c reference direction).run g = (outcome, g') ∧
        Settles (expandKeyBy g' direction) (fun unfold => unfold [] node.key) outcome ∧
        ((∃ shape, outcome = .ok shape) ↔ Unfoldable g' node.key) ∧
        ∀ shape, outcome = .ok shape ↔ Unfolds g' direction (.named node.key) shape := by
  refine ⟨resolved?_of_gives_resolve h, shapeOf g' direction node.key, ?_,
    settles_shapeOf g' direction _, shapeOf_isOk_iff, fun _ => shapeOf_eq_ok_iff⟩
  unfold Gives at h
  unfold expand
  rw [run_bind, h]
  exact run_ofExcept _ g'

/-- Trips from one place to another, by stops whose places are of the same type. -/
def travel : Store where
  owner := "S"
  types :=
    let named (name : String) : AttributeType := .named { owner := "S", name }
    [("S.TRIP_T", .record [⟨"START", named "PLACE_T"⟩, ⟨"STOPS", named "PLACES_T"⟩,
        ⟨"GOAL", named "PLACE_T"⟩]),
      ("S.PLACES_T", .collection ⟨"", named "PLACE_T"⟩ (some "pls_integer")),
      ("S.PLACE_T", .object [⟨"NAME", .scalar { name := "VARCHAR2" }⟩])]

/-- A trip, as it is resolved. -/
def tripNode : Node :=
  ⟨"S.TRIP_T", .record [⟨"START", .named "S.PLACE_T"⟩, ⟨"STOPS", .named "S.PLACES_T"⟩,
    ⟨"GOAL", .named "S.PLACE_T"⟩]⟩

/-- Trips have been resolved. -/
def travelTrips : TypeGraph := ((resolve travel.catalog "trip_t").run {}).2

/-- The tree of a trip, which holds that of a place three times. -/
def tripShape : Shape :=
  let place : Shape := .record (some "S.PLACE_T")
    [{ name := "NAME", position := 1, direction := .both, shape := .scalar { name := "VARCHAR2" } }]
  .record (some "S.TRIP_T")
    [{ name := "START", position := 1, direction := .both, shape := place },
      { name := "STOPS", position := 2, direction := .both,
        shape := .table (some "S.PLACES_T")
          (some { name := "", position := 1, direction := .both, shape := place }) false false },
      { name := "GOAL", position := 3, direction := .both, shape := place }]

/-- A type may be met more than once; a trip is finite. -/
theorem trip_unfolds : Gives (resolve travel.catalog "trip_t") {} tripNode travelTrips ∧
    (expand travel.catalog "trip_t" .both).run {} = (.ok tripShape, travelTrips) ∧
    Unfoldable travelTrips "S.TRIP_T" ∧
    Unfolds travelTrips .both (.named "S.TRIP_T") tripShape := by
  have hnode : Gives (resolve travel.catalog "trip_t") {} tripNode travelTrips :=
    gives_of_fst (by decide +kernel)
  obtain ⟨-, outcome, hrun, -, hfinite, htree⟩ := expand_iff_unfoldable hnode .both
  have hplace : travelTrips.resolved? "S.PLACE_T" =
      some (.record [⟨"NAME", .scalar { name := "VARCHAR2" }⟩]) := by decide +kernel
  have hplaces : travelTrips.resolved? "S.PLACES_T" =
      some (.collection (.named "S.PLACE_T") (some .integer)) := by decide +kernel
  have htrip : travelTrips.resolved? "S.TRIP_T" = some tripNode.type := by decide +kernel
  have hunfolds : Unfolds travelTrips .both (.named "S.TRIP_T") tripShape := by
    have hinner : Unfolds travelTrips .both (.named "S.PLACE_T") _ :=
      .record hplace (.cons (.plain _) .nil)
    exact .record htrip (.cons hinner (.cons (.collection hplaces hinner) (.cons hinner .nil)))
  obtain rfl := (htree tripShape).mpr hunfolds
  exact ⟨hnode, hrun, hfinite.mp ⟨tripShape, rfl⟩, hunfolds⟩

end StoredCall.TypeGraph
