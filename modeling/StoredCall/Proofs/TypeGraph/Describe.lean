import StoredCall.Proofs.Program
import StoredCall.TypeGraph

/-!
# What a catalog says about a type

A catalog gives a name a definition through several answers: the class of the name, and what stands
in the first of the places that are looked at for the class.

* `Catalog.Describes`: the definition that the answers make up, one rule for each way.
* `Catalog.Leads`: a name leads to the names that its definition mentions, and so on.
* `Catalog.Within`: a catalog with the answers of another one, some of whose queries fail.
* `TypeGraph.ends_fetch`: fetching gives exactly what the catalog describes.
-/

namespace StoredCall

open Text

/-! ## Definitions -/

/-- The reference to the type of an attribute: a scalar as it is, a name by its key. -/
def AttributeType.ref : AttributeType → TypeRef
  | .scalar s => .scalar s
  | .named q => .named q.key

/-- The field of an attribute. -/
def Attribute.field (a : Attribute) : Field := ⟨a.name, a.type.ref⟩

/-- Of attributes in a row with one name, the first one. -/
def firstsOf (as : List Attribute) : List Attribute := as.destutter fun a b => a.name ≠ b.name

namespace TypeGraph.RawDef

/-- The types that a definition is made of. -/
def parts : RawDef → List AttributeType
  | .scalar _ => []
  | .record as => as.map Attribute.type
  | .collection elem _ => [elem.type]

/-- The definition with references for its parts. -/
def typeDef : RawDef → TypeDef
  | .scalar s => .scalar s
  | .record as => .record (as.map Attribute.field)
  | .collection elem indexBy => .collection elem.type.ref indexBy

end TypeGraph.RawDef

open TypeGraph (RawDef)

/-- How a collection is indexed, from the type of the index as the catalog writes it. -/
inductive IndexedAs : Option String → Option IndexBy → Prop where
  | nested : IndexedAs none none
  | integer {s : String} :
    upper (trim s) ∈ ["", "PLS_INTEGER", "BINARY_INTEGER", "SIMPLE_INTEGER"] →
      IndexedAs (some s) (some .integer)

theorem IndexedAs.unique {s : Option String} {i j : Option IndexBy} (h : IndexedAs s i)
    (h' : IndexedAs s j) : i = j := by
  cases h <;> cases h' <;> rfl

namespace Catalog

/-- The definition that a catalog gives for a name. -/
inductive Describes (c : Catalog) (q : QName) : RawDef → Prop where
  | sealed : c.classify q = .ok (some .sealed) →
    Describes c q (.scalar { name := "OPAQUE", typeName := some q.key })
  | record {as : List Attribute} : c.classify q = .ok (some .record) →
    c.attributes q = .ok as → as ≠ [] → Describes c q (.record (firstsOf as))
  | collection {s : Option String} {elem : Attribute} {indexBy : Option IndexBy} :
    c.classify q = .ok (some (.collection s)) → IndexedAs s indexBy →
    c.element q = .ok (some elem) → Describes c q (.collection elem indexBy)
  | table {as : List Attribute} : c.classify q = .ok (some .table) →
    c.columns q = .ok as → as ≠ [] → Describes c q (.record (firstsOf as))
  | attributes {as : List Attribute} : c.classify q = .ok (some .object) →
    c.attributes q = .ok as → as ≠ [] → Describes c q (.record (firstsOf as))
  | element {elem : Attribute} : c.classify q = .ok (some .object) → c.attributes q = .ok [] →
    c.element q = .ok (some elem) → Describes c q (.collection elem none)
  | columns {as : List Attribute} : c.classify q = .ok (some .object) → c.attributes q = .ok [] →
    c.element q = .ok none → c.columns q = .ok as → as ≠ [] → Describes c q (.record (firstsOf as))

/-- The definition of a name mentions another name. -/
def Mentions (c : Catalog) (q r : QName) : Prop :=
  ∃ raw, c.Describes q raw ∧ .named r ∈ raw.parts

/-- A name leads to another one through definitions. -/
def Leads (c : Catalog) : QName → QName → Prop := Relation.ReflTransGen c.Mentions

/-- A catalog has no definition for a name. -/
def Refuses (c : Catalog) (q : QName) : Prop := ∀ raw, ¬ c.Describes q raw

/-- The answers of a catalog are those of another one, as far as its queries do not fail. -/
structure Within (c full : Catalog) : Prop where
  classify : ∀ {q a}, c.classify q = .ok a → full.classify q = .ok a
  attributes : ∀ {q a}, c.attributes q = .ok a → full.attributes q = .ok a
  element : ∀ {q a}, c.element q = .ok a → full.element q = .ok a
  columns : ∀ {q a}, c.columns q = .ok a → full.columns q = .ok a

theorem Within.refl (c : Catalog) : c.Within c := ⟨id, id, id, id⟩

theorem within_failing (c : Catalog) (fail : List String) : (c.failing fail).Within c :=
  ⟨answerUnless_ok, answerUnless_ok, answerUnless_ok, answerUnless_ok⟩

variable {c full : Catalog}

theorem Within.describes (h : c.Within full) {q : QName} {raw : RawDef} (hd : c.Describes q raw) :
    full.Describes q raw := by
  cases hd with
  | sealed hcls => exact .sealed (h.classify hcls)
  | record hcls has hne => exact .record (h.classify hcls) (h.attributes has) hne
  | collection hcls hindex helem =>
    exact .collection (h.classify hcls) hindex (h.element helem)
  | table hcls has hne => exact .table (h.classify hcls) (h.columns has) hne
  | attributes hcls has hne => exact .attributes (h.classify hcls) (h.attributes has) hne
  | element hcls hnone helem =>
    exact .element (h.classify hcls) (h.attributes hnone) (h.element helem)
  | columns hcls hnone helem has hne =>
    exact .columns (h.classify hcls) (h.attributes hnone) (h.element helem) (h.columns has) hne

/-- A catalog gives a name at most one definition. -/
theorem Describes.unique {q : QName} {raw raw' : RawDef} (h : c.Describes q raw)
    (h' : c.Describes q raw') : raw = raw' := by
  cases h with
  | collection hcls hindex helem =>
    cases h' with
    | collection hcls' hindex' helem' =>
      obtain rfl : _ = _ := by simpa [hcls] using hcls'
      obtain rfl : _ = _ := by simpa [helem] using helem'
      rw [hindex.unique hindex']
    | _ => simp_all
  | _ => cases h' <;> simp_all

theorem refuses_of_classify {q : QName} (h : ∀ cls, c.classify q ≠ .ok (some cls)) :
    c.Refuses q := by
  intro raw hd
  cases hd with
  | sealed hcls | record hcls | collection hcls | table hcls | attributes hcls | element hcls
  | columns hcls => exact h _ hcls

theorem mem_of_mem_firstsOf {as : List Attribute} {a : Attribute} (h : a ∈ firstsOf as) : a ∈ as :=
  (List.destutter_sublist _ as).subset h

/-- The names in a definition are among those that the catalog mentions. -/
theorem Describes.mem_mentioned {q r : QName} {raw : RawDef} (h : c.Describes q raw)
    (hr : .named r ∈ raw.parts) : r.key ∈ c.mentioned := by
  have hkey : ∀ {a : Attribute}, a.type = .named r → a.key? = some r.key := fun {a} ha => by
    simp [Attribute.key?, ha]
  have hrow : ∀ {as : List Attribute}, .named r ∈ (RawDef.record (firstsOf as)).parts →
      ∃ a ∈ as, a.key? = some r.key := fun {as} hr => by
    obtain ⟨a, ha, htype⟩ := List.mem_map.mp hr
    exact ⟨a, mem_of_mem_firstsOf ha, hkey htype⟩
  cases h with
  | sealed => cases hr
  | record _ has _ | attributes _ has _ =>
    obtain ⟨a, ha, hk⟩ := hrow hr
    exact c.attributes_mentioned has ha hk
  | collection _ _ helem | element _ _ helem =>
    exact c.element_mentioned helem (hkey (List.mem_singleton.mp hr).symm)
  | table _ has _ | columns _ _ _ has _ =>
    obtain ⟨a, ha, hk⟩ := hrow hr
    exact c.columns_mentioned has ha hk

end Catalog

/-! ## Fetching -/

namespace TypeGraph

/-- What is kept after the first attribute depends on the name of this attribute only. -/
theorem destutter'_of_name_eq {a b : Attribute} (h : a.name = b.name) (as : List Attribute) :
    ∃ more, as.destutter' (fun a b => a.name ≠ b.name) a = a :: more ∧
      as.destutter' (fun a b => a.name ≠ b.name) b = b :: more := by
  induction as with
  | nil => exact ⟨[], rfl, rfl⟩
  | cons e as ih =>
    by_cases he : b.name = e.name
    · rw [List.destutter'_cons_neg _ (not_not_intro (h.trans he)),
        List.destutter'_cons_neg _ (not_not_intro he)]
      exact ih
    · rw [List.destutter'_cons_pos _ (fun ha => he (h.symm.trans ha)),
        List.destutter'_cons_pos _ he]
      exact ⟨_, rfl, rfl⟩

theorem dropRepeats_cons (a : Attribute) (as : List Attribute) :
    dropRepeats (a :: as) = as.destutter' (fun a b => a.name ≠ b.name) a := by
  induction as generalizing a with
  | nil => rfl
  | cons b as ih =>
    by_cases h : a.name = b.name
    · obtain ⟨more, ha, hb⟩ := destutter'_of_name_eq h as
      rw [List.destutter'_cons_neg _ (not_not_intro h), ha, dropRepeats, ih b, hb]
      simp only [if_pos h]
    · obtain ⟨more, hb, -⟩ := destutter'_of_name_eq (rfl : b.name = b.name) as
      rw [List.destutter'_cons_pos _ h, hb, dropRepeats, ih b, hb]
      simp only [if_neg h]

theorem dropRepeats_eq (as : List Attribute) : dropRepeats as = firstsOf as := by
  cases as with
  | nil => rfl
  | cons a as => exact dropRepeats_cons a as

theorem indexKind_some (key s : String) : indexKind key (some s) =
    if upper (trim s) ∈ ["", "PLS_INTEGER", "BINARY_INTEGER", "SIMPLE_INTEGER"] then
      .ok (some .integer)
    else .error (.notSupported key (.indexedBy (upper (trim s)))) := by
  simp only [indexKind]
  generalize upper (trim s) = t
  split
  · simp
  · simp
  · simp
  · simp
  · next hempty hpls hbinary hsimple =>
    have hnot : t ∉ ["", "PLS_INTEGER", "BINARY_INTEGER", "SIMPLE_INTEGER"] := by
      simpa using ⟨hempty, hpls, hbinary, hsimple⟩
    rw [if_neg hnot]

theorem indexKind_eq_ok_iff {key : String} {s : Option String} {indexBy : Option IndexBy} :
    indexKind key s = .ok indexBy ↔ IndexedAs s indexBy := by
  cases s with
  | none =>
    constructor
    · intro h
      obtain rfl := Except.ok.inj h
      exact .nested
    · rintro ⟨⟩
      rfl
  | some s =>
    rw [indexKind_some]
    constructor
    · intro h
      by_cases hmem : upper (trim s) ∈ ["", "PLS_INTEGER", "BINARY_INTEGER", "SIMPLE_INTEGER"]
      · rw [if_pos hmem] at h
        obtain rfl := Except.ok.inj h
        exact .integer hmem
      · rw [if_neg hmem] at h
        cases h
    · intro h
      cases h with
      | integer hmem => rw [if_pos hmem]

theorem ends_ask {α : Type} {answer : Except Error α} {g : TypeGraph} {ok : α → TypeGraph → Prop}
    {fail : Error → TypeGraph → Prop} : Ends (ask answer) g ok fail ↔
      match answer with
      | .ok a => ok a { g with asked := g.asked + 1 }
      | .error e => fail e g := by
  cases answer <;> rfl

section Fetch

variable {c : Catalog} {q : QName} {indexBy : Option IndexBy} {rest : List Source} {g : TypeGraph}
  {ok : RawDef → TypeGraph → Prop} {fail : Error → TypeGraph → Prop}

/-- What is left when rows were asked for: the next source if there are none. -/
def OnRows (c : Catalog) (q : QName) (indexBy : Option IndexBy) (rest : List Source)
    (g : TypeGraph) (ok : RawDef → TypeGraph → Prop) (fail : Error → TypeGraph → Prop) :
    Except Error (List Attribute) → Prop
  | .error e => fail e g
  | .ok [] => Ends (fetchFrom c q indexBy rest) { g with asked := g.asked + 1 } ok fail
  | .ok (a :: as) => ok (.record (firstsOf (a :: as))) { g with asked := g.asked + 1 }

theorem ends_fetchFrom_attributes : Ends (fetchFrom c q indexBy (.attributes :: rest)) g ok fail ↔
    OnRows c q indexBy rest g ok fail (c.attributes q) := by
  rw [fetchFrom, ends_bind, ends_ask]
  rcases c.attributes q with e | _ | ⟨a, as⟩
  · exact Iff.rfl
  · exact Iff.rfl
  · rw [OnRows, ← dropRepeats_eq]
    exact Iff.rfl

theorem ends_fetchFrom_columns : Ends (fetchFrom c q indexBy (.columns :: rest)) g ok fail ↔
    OnRows c q indexBy rest g ok fail (c.columns q) := by
  rw [fetchFrom, ends_bind, ends_ask]
  rcases c.columns q with e | _ | ⟨a, as⟩
  · exact Iff.rfl
  · exact Iff.rfl
  · rw [OnRows, ← dropRepeats_eq]
    exact Iff.rfl

theorem ends_fetchFrom_element : Ends (fetchFrom c q indexBy (.element :: rest)) g ok fail ↔
    match c.element q with
    | .error e => fail e g
    | .ok none => Ends (fetchFrom c q indexBy rest) { g with asked := g.asked + 1 } ok fail
    | .ok (some elem) => ok (.collection elem indexBy) { g with asked := g.asked + 1 } := by
  rw [fetchFrom, ends_bind, ends_ask]
  rcases c.element q with e | _ | elem <;> exact Iff.rfl

/-- **Fetching gives what the catalog describes**, and fails only where it describes nothing. -/
theorem ends_fetch {cls : TypeClass} (hcls : c.classify q = .ok (some cls)) (g : TypeGraph) :
    Ends (fetch c q cls) g (fun raw g' => g'.entries = g.entries ∧ c.Describes q raw)
      (fun _ g' => g'.entries = g.entries ∧ c.Refuses q) := by
  cases cls with
  | sealed => exact ⟨rfl, .sealed hcls⟩
  | record =>
    refine ends_fetchFrom_attributes.mpr ?_
    rcases has : c.attributes q with e | _ | ⟨a, as⟩
    · exact ⟨rfl, fun raw h => by cases h <;> simp_all⟩
    · exact ⟨rfl, fun raw h => by cases h <;> simp_all⟩
    · exact ⟨rfl, .record hcls has (by simp)⟩
  | table =>
    refine ends_fetchFrom_columns.mpr ?_
    rcases has : c.columns q with e | _ | ⟨a, as⟩
    · exact ⟨rfl, fun raw h => by cases h <;> simp_all⟩
    · exact ⟨rfl, fun raw h => by cases h <;> simp_all⟩
    · exact ⟨rfl, .table hcls has (by simp)⟩
  | collection s =>
    rw [fetch, ends_bind]
    cases hindex : indexKind q.key s with
    | error e =>
      refine ⟨rfl, fun raw h => ?_⟩
      cases h with
      | collection hcls' hindexed helem =>
        rw [hcls] at hcls'
        cases hcls'
        rw [indexKind_eq_ok_iff.mpr hindexed] at hindex
        cases hindex
      | _ => simp_all
    | ok indexBy =>
      refine ends_fetchFrom_element.mpr ?_
      rcases helem : c.element q with e | _ | elem
      · exact ⟨rfl, fun raw h => by cases h <;> simp_all⟩
      · exact ⟨rfl, fun raw h => by cases h <;> simp_all⟩
      · exact ⟨rfl, .collection hcls (indexKind_eq_ok_iff.mp hindex) helem⟩
  | object =>
    refine ends_fetchFrom_attributes.mpr ?_
    rcases has : c.attributes q with e | _ | ⟨a, as⟩
    · exact ⟨rfl, fun raw h => by cases h <;> simp_all⟩
    · refine ends_fetchFrom_element.mpr ?_
      rcases helem : c.element q with e | _ | elem
      · exact ⟨rfl, fun raw h => by cases h <;> simp_all⟩
      · refine ends_fetchFrom_columns.mpr ?_
        rcases hcolumns : c.columns q with e | _ | ⟨a, as⟩
        · exact ⟨rfl, fun raw h => by cases h <;> simp_all⟩
        · exact ⟨rfl, fun raw h => by cases h <;> simp_all⟩
        · exact ⟨rfl, .columns hcls has helem hcolumns (by simp)⟩
      · exact ⟨rfl, .element hcls has helem⟩
    · exact ⟨rfl, .attributes hcls has (by simp)⟩

end Fetch

end TypeGraph

end StoredCall
