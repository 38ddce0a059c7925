import StoredCall.Proofs.TypeGraph.Reached

/-!
# Rules of resolving

Resolving a name resolves the names of its definition, these in turn those of theirs, and so on. The
rules here say so without an allowance: a run is a finite tree of rules, together with the queries
that it makes, in their order and including those that are not answered.

* `TypeGraph.Looks`: looking up the definition of a name, which only asks (`TypeGraph.Asks`).
* `TypeGraph.Does c task g log o g'`: resolving a name, or the parts of a definition, makes the
  queries `log`, comes to `o` and leaves the graph `g'`.
* `TypeGraph.Gets` and `TypeGraph.Surveys`: the same for a reference and for a scan.
* `TypeGraph.Does.unique` and its like: a graph leaves no choice, there is one run at most.
* `TypeGraph.Does.counts` and its like: the graph counts the queries that are answered.
-/

namespace StoredCall.TypeGraph

-- How a reference is read plays no part here, and unfolding it is slow.
attribute [local irreducible] Reference.parse

variable {c : Catalog} {q : QName} {raw : RawDef} {g g' g₁ g₂ : TypeGraph} {k : String}

/-! ## Steps that only ask -/

/-- Nothing has changed but the number of queries. -/
structure Asks (g g' : TypeGraph) : Prop where
  entries : g'.entries = g.entries
  aliases : g'.aliases = g.aliases

instance : IsPreorder TypeGraph Asks where
  refl _ := ⟨rfl, rfl⟩
  trans _ _ _ h h' := ⟨h'.entries.trans h.entries, h'.aliases.trans h.aliases⟩

theorem Asks.resolved?_eq (h : Asks g g') (k : String) : g'.resolved? k = g.resolved? k :=
  resolved?_congr (by rw [h.entries])

theorem Asks.marked (h : Asks g g') (key : String) (e : Entry) :
    Asks (g.marked key e) (g'.marked key e) :=
  ⟨by simp only [TypeGraph.marked, h.entries], h.aliases⟩

theorem asks_asked (g : TypeGraph) : Asks g { g with asked := g.asked + 1 } := ⟨rfl, rfl⟩

theorem moves_ask {α : Type} (answer : Except Error α) : Moves Asks (ask answer) := by
  cases answer with
  | error e => exact moves_throw e
  | ok a => exact asks_asked

theorem moves_fetchFrom (c : Catalog) (q : QName) (indexBy : Option IndexBy)
    (sources : List Source) : Moves Asks (fetchFrom c q indexBy sources) := by
  induction sources with
  | nil => exact moves_throw _
  | cons source rest ih =>
    cases source with
    | attributes | columns =>
      refine (moves_ask _).bind fun as => ?_
      cases as with
      | nil => exact ih
      | cons a as => exact moves_pure _
    | element =>
      refine (moves_ask _).bind fun elem => ?_
      cases elem with
      | none => exact ih
      | some elem => exact moves_pure _

theorem moves_fetch (c : Catalog) (q : QName) (cls : TypeClass) :
    Moves Asks (fetch c q cls) := by
  cases cls with
  | sealed => exact moves_pure _
  | collection indexBy => exact (moves_ofExcept _).bind fun kind => moves_fetchFrom c q kind _
  | record => exact moves_fetchFrom c q none _
  | table => exact moves_fetchFrom c q none _
  | object => exact moves_fetchFrom c q none _

/-! ## Queries -/

/-- A query that was made, and whether the catalog answered it. -/
structure Asked where
  query : String
  answered : Bool

/-- A query about a name. -/
def asking {α : Type} (query : Query) (q : QName) (answer : Except Error α) : Asked :=
  ⟨query.text q, answer.isOk⟩

/-- How many of the queries were answered. -/
def answeredIn (log : List Asked) : Nat := log.countP Asked.answered

theorem answeredIn_append (log log' : List Asked) :
    answeredIn (log ++ log') = answeredIn log + answeredIn log' := List.countP_append

/-- The queries for a definition: one source after the other, as long as they are empty. -/
def sourceQueries (c : Catalog) (q : QName) : List Source → List Asked
  | [] => []
  | .attributes :: rest => asking .attributes q (c.attributes q) ::
    match c.attributes q with
    | .ok [] => sourceQueries c q rest
    | _ => []
  | .element :: rest => asking .element q (c.element q) ::
    match c.element q with
    | .ok none => sourceQueries c q rest
    | _ => []
  | .columns :: rest => asking .columns q (c.columns q) ::
    match c.columns q with
    | .ok [] => sourceQueries c q rest
    | _ => []

/-- The queries for the definition of a name of a class. A collection with an index that is not
supported is given up before any. -/
def fetchQueries (c : Catalog) (q : QName) : TypeClass → List Asked
  | .collection indexBy =>
    match indexKind q.key indexBy with
    | .ok _ => sourceQueries c q (sourcesOf (.collection indexBy))
    | .error _ => []
  | cls => sourceQueries c q (sourcesOf cls)

theorem length_sourceQueries_le (c : Catalog) (q : QName) (sources : List Source) :
    (sourceQueries c q sources).length ≤ sources.length := by
  induction sources with
  | nil => exact Nat.le_refl 0
  | cons source rest ih =>
    cases source with
    | attributes | element | columns =>
      simp only [sourceQueries, List.length_cons]
      refine Nat.succ_le_succ ?_
      split
      · exact ih
      · exact Nat.zero_le _

theorem length_fetchQueries_le (c : Catalog) (q : QName) (cls : TypeClass) :
    (fetchQueries c q cls).length ≤ 3 := by
  have hsources : ∀ cls, (sourceQueries c q (sourcesOf cls)).length ≤ 3 := fun cls =>
    (length_sourceQueries_le c q _).trans (by cases cls <;> simp [sourcesOf])
  cases cls with
  | collection indexBy =>
    simp only [fetchQueries]
    split
    · exact hsources _
    · simp
  | record | table | sealed | object => exact hsources _

/-- Every query that is answered is counted, and no other. -/
def Counts (log : List Asked) (g g' : TypeGraph) : Prop := g'.asked = g.asked + answeredIn log

theorem Counts.append {log log' : List Asked} (h : Counts log g g₁) (h' : Counts log' g₁ g₂) :
    Counts (log ++ log') g g₂ := by
  unfold Counts at *
  rw [h', h, answeredIn_append, Nat.add_assoc]

theorem counts_nil (g : TypeGraph) : Counts [] g g := rfl

theorem counts_answered {α : Type} (query : Query) (q : QName) (a : α) (g : TypeGraph) :
    Counts [asking query q (.ok a)] g { g with asked := g.asked + 1 } := rfl

theorem counts_unanswered {α : Type} (query : Query) (q : QName) (e : Error) (g : TypeGraph) :
    Counts [asking query q (.error e : Except Error α)] g g := rfl

theorem counts_fetchFrom (q : QName) (indexBy : Option IndexBy) (sources : List Source)
    (g : TypeGraph) : Ends (fetchFrom c q indexBy sources) g
      (fun _ => Counts (sourceQueries c q sources) g)
      (fun _ => Counts (sourceQueries c q sources) g) := by
  induction sources generalizing g with
  | nil => exact counts_nil g
  | cons source rest ih =>
    -- An empty answer leaves the other sources to be asked.
    have hnext : ∀ {first : Asked}, Counts [first] g { g with asked := g.asked + 1 } →
        Ends (fetchFrom c q indexBy rest) { g with asked := g.asked + 1 }
          (fun _ => Counts (first :: sourceQueries c q rest) g)
          (fun _ => Counts (first :: sourceQueries c q rest) g) := fun hfirst =>
      (ih _).mono (fun _ _ h => hfirst.append h) (fun _ _ h => hfirst.append h)
    cases source with
    | attributes =>
      refine ends_fetchFrom_attributes.mpr ?_
      simp only [sourceQueries]
      rcases c.attributes q with e | _ | ⟨a, as⟩
      · exact counts_unanswered .attributes q e g
      · exact hnext (counts_answered .attributes q _ g)
      · exact counts_answered .attributes q _ g
    | columns =>
      refine ends_fetchFrom_columns.mpr ?_
      simp only [sourceQueries]
      rcases c.columns q with e | _ | ⟨a, as⟩
      · exact counts_unanswered .columns q e g
      · exact hnext (counts_answered .columns q _ g)
      · exact counts_answered .columns q _ g
    | element =>
      refine ends_fetchFrom_element.mpr ?_
      simp only [sourceQueries]
      rcases c.element q with e | _ | elem
      · exact counts_unanswered .element q e g
      · exact hnext (counts_answered .element q _ g)
      · exact counts_answered .element q _ g

theorem counts_fetch (q : QName) (cls : TypeClass) (g : TypeGraph) : Ends (fetch c q cls) g
    (fun _ => Counts (fetchQueries c q cls) g) (fun _ => Counts (fetchQueries c q cls) g) := by
  cases cls with
  | sealed => exact counts_nil g
  | collection indexBy =>
    rw [fetch, ends_bind]
    simp only [fetchQueries]
    cases hindex : indexKind q.key indexBy with
    | error e => exact counts_nil g
    | ok kind => exact counts_fetchFrom q kind _ g
  | record | table | object => exact counts_fetchFrom q none _ g

/-! ## Rules -/

/-- Looking up the definition of a name makes the queries of a log, gives a definition or a failure,
and leaves another graph. -/
inductive Looks (c : Catalog) (q : QName) (g : TypeGraph) :
    List Asked → Except Error RawDef → TypeGraph → Prop where
  | unanswered {e : Error} : c.classify q = .error e →
    Looks c q g [asking .classify q (c.classify q)] (.error e) g
  | unknown : c.classify q = .ok none →
    Looks c q g [asking .classify q (c.classify q)] (.error (.unknownType q.key))
      { g with asked := g.asked + 1 }
  | fetched {cls : TypeClass} {o : Except Error RawDef} {g₁ : TypeGraph} :
    c.classify q = .ok (some cls) →
    (fetch c q cls).run { g with asked := g.asked + 1 } = (o, g₁) →
    Looks c q g (asking .classify q (c.classify q) :: fetchQueries c q cls) o g₁

/-- What there is to do: resolve a name, see to a part of a definition, or to several in turn. -/
inductive Task where
  | name (q : QName)
  | part (t : AttributeType)
  | parts (ts : List AttributeType)

/-- Carrying out a task makes the queries of a log, comes to success or a failure, and leaves
another graph. -/
inductive Does (c : Catalog) :
    Task → TypeGraph → List Asked → Except Error Unit → TypeGraph → Prop where
  | undefined {q : QName} {g g₁ : TypeGraph} {log : List Asked} {e : Error} :
    Looks c q g log (.error e) g₁ → Does c (.name q) g log (.error e) g₁
  /-- A name is open while its parts are seen to. -/
  | resolved {q : QName} {g g₁ g₂ : TypeGraph} {raw : RawDef} {log log' : List Asked} :
    Looks c q g log (.ok raw) g₁ →
    Does c (.parts raw.parts) (g₁.marked q.key .resolving) log' (.ok ()) g₂ →
    Does c (.name q) g (log ++ log') (.ok ()) (g₂.marked q.key (.resolved raw.typeDef))
  | dropped {q : QName} {g g₁ g₂ : TypeGraph} {raw : RawDef} {log log' : List Asked} {e : Error} :
    Looks c q g log (.ok raw) g₁ →
    Does c (.parts raw.parts) (g₁.marked q.key .resolving) log' (.error e) g₂ →
    Does c (.name q) g (log ++ log') (.error e) (g₂.without q.key)
  | scalar {s : Scalar} {g : TypeGraph} : Does c (.part (.scalar s)) g [] (.ok ()) g
  /-- A name that is open is not gone into again. -/
  | held {r : QName} {g : TypeGraph} : g.isOpenOrDone r.key = true →
    Does c (.part (.named r)) g [] (.ok ()) g
  | visited {r : QName} {g g' : TypeGraph} {log : List Asked} {o : Except Error Unit} :
    g.isOpenOrDone r.key = false → Does c (.name r) g log o g' →
    Does c (.part (.named r)) g log o g'
  | nothing {g : TypeGraph} : Does c (.parts []) g [] (.ok ()) g
  | next {t : AttributeType} {ts : List AttributeType} {g g₁ g' : TypeGraph}
      {log log' : List Asked} {o : Except Error Unit} : Does c (.part t) g log (.ok ()) g₁ →
    Does c (.parts ts) g₁ log' o g' → Does c (.parts (t :: ts)) g (log ++ log') o g'
  /-- What is left after a failure is not seen to. -/
  | stop {t : AttributeType} {ts : List AttributeType} {g g' : TypeGraph} {log : List Asked}
      {e : Error} : Does c (.part t) g log (.error e) g' →
    Does c (.parts (t :: ts)) g log (.error e) g'

variable {task : Task} {log log' : List Asked} {o o' : Except Error Unit}

section Looks

variable {found found' : Except Error RawDef}

theorem Looks.unique (h : Looks c q g log found g₁) (h' : Looks c q g log' found' g₂) :
    log' = log ∧ found' = found ∧ g₂ = g₁ := by
  cases h with
  | unanswered hcls | unknown hcls => cases h' <;> simp_all
  | fetched hcls hrun =>
    cases h' with
    | unanswered hcls' | unknown hcls' => simp_all
    | fetched hcls' hrun' =>
      obtain rfl : _ = _ := by simpa [hcls] using hcls'
      rw [hrun, Prod.mk.injEq] at hrun'
      exact ⟨rfl, hrun'.1.symm, hrun'.2.symm⟩

theorem Looks.length_le (h : Looks c q g log found g₁) : log.length ≤ 4 := by
  cases h with
  | unanswered | unknown => simp
  | fetched => exact Nat.succ_le_succ (length_fetchQueries_le c q _)

theorem Looks.counts (h : Looks c q g log found g₁) : Counts log g g₁ := by
  cases h with
  | unanswered hcls =>
    rw [hcls]
    exact counts_unanswered .classify q _ g
  | unknown hcls =>
    rw [hcls]
    exact counts_answered .classify q _ g
  | @fetched cls _ _ hcls hrun =>
    rw [hcls]
    refine (counts_answered .classify q (some cls) g).append ?_
    have hstate := (counts_fetch (c := c) q cls { g with asked := g.asked + 1 }).state
    rwa [hrun] at hstate

theorem Looks.asks (h : Looks c q g log found g₁) : Asks g g₁ := by
  cases h with
  | unanswered => exact refl_of Asks g
  | unknown => exact asks_asked g
  | @fetched cls _ _ _ hrun =>
    have hfetch := (moves_fetch c q cls { g with asked := g.asked + 1 }).state
    rw [hrun] at hfetch
    exact trans_of Asks (asks_asked g) hfetch

theorem Looks.exists_classify (h : Looks c q g log (.ok raw) g₁) :
    ∃ cls, c.classify q = .ok (some cls) := by
  cases h with
  | fetched hcls => exact ⟨_, hcls⟩

theorem Looks.describes (h : Looks c q g log (.ok raw) g₁) : c.Describes q raw := by
  cases h with
  | fetched hcls hrun => exact ((ends_fetch hcls _).of_gives hrun).2

end Looks

/-- The name of a task is not resolved. -/
def Task.New (g : TypeGraph) : Task → Prop
  | .name q => g.resolved? q.key = none
  | .part _ | .parts _ => True

theorem resolved?_eq_none_of_isOpenOrDone (h : g.isOpenOrDone k = false) :
    g.resolved? k = none := by
  by_contra hsome
  have hdone : g.isOpenOrDone k = true :=
    isOpenOrDone_iff_resolved_or_resolving.mpr (.inl (Option.isSome_iff_ne_none.mpr hsome))
  rw [h] at hdone
  cases hdone

/-- The queries that are answered are those that the graph counts. -/
theorem Does.counts (h : Does c task g log o g') : Counts log g g' := by
  induction h with
  | undefined hlook => exact hlook.counts
  | resolved hlook _ ih | dropped hlook _ ih => exact hlook.counts.append ih
  | scalar | held | nothing => exact counts_nil _
  | visited _ _ ih | stop _ ih => exact ih
  | next _ _ ih ih' => exact ih.append ih'

/-- A graph leaves no choice: a task has at most one run. -/
theorem Does.unique (h : Does c task g log o g₁) (h' : Does c task g log' o' g₂) :
    log' = log ∧ o' = o ∧ g₂ = g₁ := by
  induction h generalizing log' o' g₂ with
  | undefined hlook =>
    cases h' with
    | undefined hlook' =>
      obtain ⟨rfl, hsame, rfl⟩ := hlook.unique hlook'
      rw [Except.error.inj hsame]
      exact ⟨rfl, rfl, rfl⟩
    | resolved hlook' | dropped hlook' => exact absurd (hlook.unique hlook').2.1 (by simp)
  | resolved hlook _ ih =>
    cases h' with
    | undefined hlook' => exact absurd (hlook.unique hlook').2.1 (by simp)
    | resolved hlook' hparts =>
      obtain ⟨rfl, hraw, rfl⟩ := hlook.unique hlook'
      cases hraw
      obtain ⟨rfl, -, rfl⟩ := ih hparts
      exact ⟨rfl, rfl, rfl⟩
    | dropped hlook' hparts =>
      obtain ⟨rfl, hraw, rfl⟩ := hlook.unique hlook'
      cases hraw
      exact absurd (ih hparts).2.1 (by simp)
  | dropped hlook _ ih =>
    cases h' with
    | undefined hlook' => exact absurd (hlook.unique hlook').2.1 (by simp)
    | resolved hlook' hparts =>
      obtain ⟨rfl, hraw, rfl⟩ := hlook.unique hlook'
      cases hraw
      exact absurd (ih hparts).2.1 (by simp)
    | dropped hlook' hparts =>
      obtain ⟨rfl, hraw, rfl⟩ := hlook.unique hlook'
      cases hraw
      obtain ⟨rfl, hsame, rfl⟩ := ih hparts
      cases hsame
      exact ⟨rfl, rfl, rfl⟩
  | scalar =>
    cases h'
    exact ⟨rfl, rfl, rfl⟩
  | held hopen =>
    cases h' with
    | held => exact ⟨rfl, rfl, rfl⟩
    | visited hnew => exact absurd hopen (by simp [hnew])
  | visited hnew _ ih =>
    cases h' with
    | held hopen => exact absurd hopen (by simp [hnew])
    | visited _ hname => exact ih hname
  | nothing =>
    cases h'
    exact ⟨rfl, rfl, rfl⟩
  | next _ _ ih ih' =>
    cases h' with
    | next hfirst hrest =>
      obtain ⟨rfl, -, rfl⟩ := ih hfirst
      obtain ⟨rfl, rfl, rfl⟩ := ih' hrest
      exact ⟨rfl, rfl, rfl⟩
    | stop hfirst => exact absurd (ih hfirst).2.1 (by simp)
  | stop _ ih =>
    cases h' with
    | next hfirst _ => exact absurd (ih hfirst).2.1 (by simp)
    | stop hfirst => exact ih hfirst

theorem Does.classify_ne_none (h : Does c (.name q) g log (.ok ()) g₁) :
    c.classify q ≠ .ok none := by
  cases h with
  | resolved hlook _ =>
    obtain ⟨cls, hcls⟩ := hlook.exists_classify
    simp [hcls]

/-! ## References -/

/-- The graph with a text that stands for a key. -/
def aliased (g : TypeGraph) (text key : String) : TypeGraph :=
  { g with aliases := Assoc.put text key g.aliases }

/-- Trying the names that a reference may mean makes the queries of a log, gives a type or a
failure, and leaves another graph. -/
inductive Tries (c : Catalog) (reference text : String) :
    List QName → TypeGraph → List Asked → Except Error Node → TypeGraph → Prop where
  | unknown {g : TypeGraph} :
    Tries c reference text [] g [] (.error (.unknownType reference)) g
  | kept {q : QName} {rest : List QName} {g : TypeGraph} {d : TypeDef} :
    g.resolved? q.key = some d →
    Tries c reference text (q :: rest) g [] (.ok ⟨q.key, d⟩) (g.aliased text q.key)
  | passed {q : QName} {rest : List QName} {g g' : TypeGraph} {log : List Asked}
      {o : Except Error Node} : g.resolved? q.key = none → c.classify q = .ok none →
    Tries c reference text rest { g with asked := g.asked + 1 } log o g' →
    Tries c reference text (q :: rest) g (asking .classify q (c.classify q) :: log) o g'
  | resolved {q : QName} {rest : List QName} {g g' : TypeGraph} {log : List Asked}
      {d : TypeDef} : g.resolved? q.key = none → Does c (.name q) g log (.ok ()) g' →
    g'.resolved? q.key = some d →
    Tries c reference text (q :: rest) g log (.ok ⟨q.key, d⟩) (g'.aliased text q.key)
  | failed {q : QName} {rest : List QName} {g g' : TypeGraph} {log : List Asked} {e : Error} :
    g.resolved? q.key = none → c.classify q ≠ .ok none → Does c (.name q) g log (.error e) g' →
    Tries c reference text (q :: rest) g log (.error e) g'

/-- Asking for a reference makes the queries of a log, gives a type or a failure, and leaves another
graph. -/
inductive Gets (c : Catalog) (reference : String) (g : TypeGraph) :
    List Asked → Except Error Node → TypeGraph → Prop where
  | unread {e : MalformedReference} : Reference.parse reference = .error e →
    Gets c reference g [] (.error (.unknownType e.message)) g
  | remembered {r : Reference} {key : String} {d : TypeDef} : Reference.parse reference = .ok r →
    Assoc.get? r.text g.aliases = some key → g.resolved? key = some d →
    Gets c reference g [] (.ok ⟨key, d⟩) g
  | tried {r : Reference} {log : List Asked} {o : Except Error Node} {g' : TypeGraph} :
    Reference.parse reference = .ok r →
    (∀ key, Assoc.get? r.text g.aliases = some key → g.resolved? key = none) →
    Tries c reference r.text (r.candidates c.owner) g log o g' → Gets c reference g log o g'

section References

variable {reference text : String} {qs : List QName} {answer answer' : Except Error Node}

theorem Tries.unique (h : Tries c reference text qs g log answer g₁)
    (h' : Tries c reference text qs g log' answer' g₂) :
    log' = log ∧ answer' = answer ∧ g₂ = g₁ := by
  induction h generalizing log' answer' g₂ with
  | unknown =>
    cases h'
    exact ⟨rfl, rfl, rfl⟩
  | kept hd => cases h' <;> simp_all
  | passed hq hcls _ ih =>
    cases h' with
    | kept hd => exact absurd hd (by simp [hq])
    | passed _ _ hrest =>
      obtain ⟨rfl, rfl, rfl⟩ := ih hrest
      exact ⟨rfl, rfl, rfl⟩
    | resolved _ hdoes => exact absurd hcls hdoes.classify_ne_none
    | failed _ hknown => exact absurd hcls hknown
  | resolved hq hdoes hd =>
    cases h' with
    | kept hd => exact absurd hd (by simp [hq])
    | passed _ hcls => exact absurd hcls hdoes.classify_ne_none
    | resolved _ hdoes' hd' =>
      obtain ⟨rfl, -, rfl⟩ := hdoes.unique hdoes'
      obtain rfl : _ = _ := Option.some.inj (hd.symm.trans hd')
      exact ⟨rfl, rfl, rfl⟩
    | failed _ _ hdoes' => exact absurd (hdoes.unique hdoes').2.1 (by simp)
  | failed hq hknown hdoes =>
    cases h' with
    | kept hd => exact absurd hd (by simp [hq])
    | passed _ hcls => exact absurd hcls hknown
    | resolved _ hdoes' => exact absurd (hdoes.unique hdoes').2.1 (by simp)
    | failed _ _ hdoes' =>
      obtain ⟨rfl, hsame, rfl⟩ := hdoes.unique hdoes'
      cases hsame
      exact ⟨rfl, rfl, rfl⟩

theorem Tries.counts (h : Tries c reference text qs g log answer g') : Counts log g g' := by
  induction h with
  | unknown | kept => exact counts_nil _
  | passed _ hcls _ ih =>
    rw [hcls]
    exact (counts_answered .classify _ none _).append ih
  | resolved _ hdoes _ | failed _ _ hdoes => exact hdoes.counts

theorem Gets.unique (h : Gets c reference g log answer g₁)
    (h' : Gets c reference g log' answer' g₂) : log' = log ∧ answer' = answer ∧ g₂ = g₁ := by
  cases h with
  | unread hread | remembered hread => cases h' <;> simp_all
  | tried hread hnone htries =>
    cases h' with
    | unread hread' | remembered hread' => simp_all
    | tried hread' _ htries' =>
      obtain rfl := Except.ok.inj (hread.symm.trans hread')
      exact htries.unique htries'

theorem Gets.counts (h : Gets c reference g log answer g') : Counts log g g' := by
  cases h with
  | unread | remembered => exact counts_nil g
  | tried _ _ htries => exact htries.counts

end References

/-! ## Scans -/

/-- Handling names one after the other makes the queries of a log, comes to an outcome for each
name, and leaves another graph. -/
inductive Discovers (c : Catalog) :
    Option Nat → List QName → TypeGraph → List Asked → List (String × Outcome) → TypeGraph →
      Prop where
  | nil {budget : Option Nat} {g : TypeGraph} : Discovers c budget [] g [] [] g
  | cancelled {q : QName} {rest : List QName} {g g' : TypeGraph} {log : List Asked}
      {outcomes : List (String × Outcome)} : Discovers c (some 0) rest g log outcomes g' →
    Discovers c (some 0) (q :: rest) g log ((q.key, none) :: outcomes) g'
  | done {budget : Option Nat} {q : QName} {rest : List QName} {g g' : TypeGraph}
      {log : List Asked} {outcomes : List (String × Outcome)} : budget ≠ some 0 →
    (g.resolved? q.key).isSome = true → Discovers c (budget.map (· - 1)) rest g log outcomes g' →
    Discovers c budget (q :: rest) g log ((q.key, some (.ok ())) :: outcomes) g'
  | visited {budget : Option Nat} {q : QName} {rest : List QName} {g g₁ g' : TypeGraph}
      {log log' : List Asked} {o : Except Error Unit} {outcomes : List (String × Outcome)} :
    budget ≠ some 0 → g.resolved? q.key = none → Does c (.name q) g log o g₁ →
    Discovers c (budget.map (· - 1)) rest g₁ log' outcomes g' →
    Discovers c budget (q :: rest) g (log ++ log') ((q.key, some o) :: outcomes) g'

/-- The names of a scan: all that are listed, or those whose keys are in `only`. -/
def scanned (only : Option (List String)) (all : List QName) : List QName :=
  all.filter fun q => (only.map fun keys => keys.contains q.key).getD true

/-- The names that a graph has no resolved type for. -/
def unresolved (g : TypeGraph) (qs : List QName) : List QName :=
  qs.filter fun q => (g.resolved? q.key).isNone

/-- A scan makes the queries of a log, gives keys or a failure, and leaves another graph. Outcomes
are settled without a query. -/
inductive Surveys (c : Catalog) (only : Option (List String)) (budget : Option Nat)
    (g : TypeGraph) : List Asked → Except Error (List String) → TypeGraph → Prop where
  | unlisted {e : Error} : c.typeNames = .error e →
    Surveys c only budget g [⟨allNamesQuery, false⟩] (.error e) g
  | listed {all : List QName} {log : List Asked} {outcomes : List (String × Outcome)}
      {g₁ g' : TypeGraph} {answer : Except Error (List String)} : c.typeNames = .ok all →
    Discovers c budget (g.unresolved (scanned only all))
      (g.noting (g.unresolved (scanned only all))) log outcomes g₁ →
    (settle (sortedSet ((scanned only all).map QName.key)) outcomes).run g₁ = (answer, g') →
    Surveys c only budget g (⟨allNamesQuery, true⟩ :: log) answer g'

section Scans

variable {budget : Option Nat} {only : Option (List String)} {qs : List QName}
  {outcomes outcomes' : List (String × Outcome)} {answer answer' : Except Error (List String)}

theorem Discovers.unique (h : Discovers c budget qs g log outcomes g₁)
    (h' : Discovers c budget qs g log' outcomes' g₂) :
    log' = log ∧ outcomes' = outcomes ∧ g₂ = g₁ := by
  induction h generalizing log' outcomes' g₂ with
  | nil =>
    cases h'
    exact ⟨rfl, rfl, rfl⟩
  | cancelled _ ih =>
    cases h' with
    | cancelled hrest =>
      obtain ⟨rfl, rfl, rfl⟩ := ih hrest
      exact ⟨rfl, rfl, rfl⟩
    | done hbudget | visited hbudget => exact absurd rfl hbudget
  | done hbudget hdone _ ih =>
    cases h' with
    | cancelled => exact absurd rfl hbudget
    | done _ _ hrest =>
      obtain ⟨rfl, rfl, rfl⟩ := ih hrest
      exact ⟨rfl, rfl, rfl⟩
    | visited _ hnew => exact absurd hdone (by simp [hnew])
  | visited hbudget hnew hdoes _ ih =>
    cases h' with
    | cancelled => exact absurd rfl hbudget
    | done _ hdone => exact absurd hdone (by simp [hnew])
    | visited _ _ hdoes' hrest =>
      obtain ⟨rfl, rfl, rfl⟩ := hdoes.unique hdoes'
      obtain ⟨rfl, rfl, rfl⟩ := ih hrest
      exact ⟨rfl, rfl, rfl⟩

theorem Discovers.counts (h : Discovers c budget qs g log outcomes g') : Counts log g g' := by
  induction h with
  | nil => exact counts_nil _
  | cancelled _ ih | done _ _ _ ih => exact ih
  | visited _ _ hdoes _ ih => exact hdoes.counts.append ih

theorem Surveys.unique (h : Surveys c only budget g log answer g₁)
    (h' : Surveys c only budget g log' answer' g₂) :
    log' = log ∧ answer' = answer ∧ g₂ = g₁ := by
  cases h with
  | unlisted hall => cases h' <;> simp_all
  | listed hall hdiscovers hsettle =>
    cases h' with
    | unlisted hall' => simp_all
    | listed hall' hdiscovers' hsettle' =>
      obtain rfl := Except.ok.inj (hall.symm.trans hall')
      obtain ⟨rfl, rfl, rfl⟩ := hdiscovers.unique hdiscovers'
      rw [hsettle, Prod.mk.injEq] at hsettle'
      exact ⟨rfl, hsettle'.1.symm, hsettle'.2.symm⟩

instance : IsPreorder TypeGraph (Counts []) where
  refl := counts_nil
  trans _ _ _ h h' := h.append h'

/-- Settling outcomes asks for nothing. -/
theorem counts_settle (ns : List String) (outcomes : List (String × Outcome)) :
    Moves (Counts []) (settle ns outcomes) := by
  refine moves_settle (fun key g => ends_modify.mpr ?_) ns outcomes
  split <;> exact counts_nil g

/-- The query that lists the names is not counted, all others are. -/
theorem Surveys.counts (h : Surveys c only budget g log answer g') : Counts log.tail g g' := by
  cases h with
  | unlisted => exact counts_nil g
  | @listed all log outcomes g₁ _ _ _ hdiscovers hsettle =>
    have hcounts : Counts log g g₁ := hdiscovers.counts
    have hsettled : Counts [] g₁ g' := by
      have hstate :=
        (counts_settle (sortedSet ((scanned only all).map QName.key)) outcomes g₁).state
      rwa [hsettle] at hstate
    simpa using hcounts.append hsettled

end Scans

end StoredCall.TypeGraph
