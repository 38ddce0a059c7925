import StoredCall.Proofs.TypeGraph.Overlay
import StoredCall.Proofs.TypeGraph.Rules

/-!
# Resolving comes to an end

Types may refer to each other in cycles, and a type that fails is dropped again, so that its key can
be opened once more. Still every run is finite. Opening a name takes its key out of the keys that
are free. Only a failure gives a key back, and a failure ends the run.

* `TypeGraph.Does.cost`: how many queries a run can make. Each name that is opened costs at most
  four.
* `TypeGraph.performsBelow_nested`: the allowance is never used up, the program keeps to the rules.
* **`TypeGraph.runs_end`**: for every catalog and every graph, a reference and a scan have exactly
  one run by the rules. The program comes to what the run comes to, and the queries of the run are
  bounded by the size of the catalog.
-/

namespace StoredCall

/-- A reference may mean one of two names at most. -/
theorem Reference.length_candidates_le (owner : String) (r : Reference) :
    (r.candidates owner).length ≤ 2 := by
  cases r <;> simp [candidates]

/-- The names that a catalog lists. -/
def Catalog.allNames (c : Catalog) : List QName := c.typeNames.toOption.getD []

namespace TypeGraph

-- How a reference is read plays no part here, and unfolding it is slow.
attribute [local irreducible] Reference.parse

variable {c : Catalog} {q : QName} {raw : RawDef} {cls : TypeClass} {g g' g₁ g₂ : TypeGraph}
  {k : String} {e : Entry} {task : Task} {log : List Asked} {o : Except Error Unit}

/-! ## The price of a run -/

/-- How many keys that a catalog mentions are neither open nor resolved. -/
def free (c : Catalog) (g : TypeGraph) : Nat := untaken c g.isOpenOrDone

theorem isOpenOrDone_congr (h : g'.entries = g.entries) (k : String) :
    g'.isOpenOrDone k = g.isOpenOrDone k := by
  unfold isOpenOrDone
  rw [h]

theorem free_congr (h : g'.entries = g.entries) : free c g' = free c g :=
  congrArg (untaken c) (funext (isOpenOrDone_congr h))

theorem isOpenOrDone_marked_self (he : e ≠ .pending) : (g.marked k e).isOpenOrDone k = true := by
  unfold isOpenOrDone
  rw [get?_marked_self]
  cases e with
  | pending => exact absurd rfl he
  | resolving | resolved => rfl

/-- Opening or finishing a name frees no key. -/
theorem isOpenOrDone_marked (he : e ≠ .pending) {l : String} (hl : g.isOpenOrDone l = true) :
    (g.marked k e).isOpenOrDone l = true := by
  by_cases hlk : l = k
  · rw [hlk]
    exact isOpenOrDone_marked_self he
  · unfold isOpenOrDone at hl ⊢
    rwa [get?_marked_of_ne hlk]

theorem free_marked_le (he : e ≠ .pending) : free c (g.marked k e) ≤ free c g :=
  untaken_mono fun _ => isOpenOrDone_marked he

/-- Opening a name takes its key. -/
theorem free_marked_lt (he : e ≠ .pending) (hk : k ∈ c.mentioned)
    (hfree : g.isOpenOrDone k = false) : free c (g.marked k e) < free c g :=
  untaken_lt (fun _ => isOpenOrDone_marked he) hk hfree (isOpenOrDone_marked_self he)

/-- The names of a task are mentioned by the catalog, but for the first one. -/
def Task.Mentioned (c : Catalog) : Task → Prop
  | .name _ => True
  | .part t => ∀ r, t = .named r → r.key ∈ c.mentioned
  | .parts ts => ∀ r, .named r ∈ ts → r.key ∈ c.mentioned

/-- What a task may cost: four queries for itself, if it is a name, and four for each key that is
free then. -/
def Task.price (c : Catalog) (g : TypeGraph) : Task → Nat
  | .name q => 4 + 4 * free c (g.marked q.key .resolving)
  | .part _ | .parts _ => 4 * free c g

/-- The keys that can still be opened: none after a failure. -/
def remaining (c : Catalog) (g : TypeGraph) : Except Error Unit → Nat
  | .ok () => free c g
  | .error _ => 0

theorem Looks.mentioned (h : Looks c q g log (.ok raw) g₁) : (Task.parts raw.parts).Mentioned c :=
  fun _ hr => h.describes.mem_mentioned hr

theorem Looks.free_marked (h : Looks c q g log (.ok raw) g₁) :
    free c (g₁.marked q.key .resolving) = free c (g.marked q.key .resolving) :=
  free_congr (h.asks.marked _ .resolving).entries

/-- **The price of a run.** What was asked and what can still be asked is within the price. -/
theorem Does.cost (h : Does c task g log o g') (hm : task.Mentioned c) :
    log.length + 4 * remaining c g' o ≤ task.price c g := by
  induction h with
  | undefined hlook =>
    have hlook := hlook.length_le
    simp only [Task.price, remaining]
    omega
  | @resolved q g g₁ g₂ raw log log' hlook _ ih =>
    have hparts := ih hlook.mentioned
    have hfinish : free c (g₂.marked q.key (.resolved raw.typeDef)) ≤ free c g₂ :=
      free_marked_le (by simp)
    have hlength := hlook.length_le
    simp only [Task.price, remaining, hlook.free_marked, List.length_append] at hparts ⊢
    omega
  | dropped hlook _ ih =>
    have hparts := ih hlook.mentioned
    have hlength := hlook.length_le
    simp only [Task.price, remaining, hlook.free_marked, List.length_append] at hparts ⊢
    omega
  | scalar | held | nothing => simp [Task.price, remaining]
  | visited hnew _ ih =>
    -- The key that the name takes pays for its own four queries.
    have hname := ih trivial
    have htaken := free_marked_lt (e := .resolving) (by simp) (hm _ rfl) hnew
    simp only [Task.price] at hname ⊢
    omega
  | next _ _ ih ih' =>
    have hfirst := ih fun r hr => hm r (hr ▸ List.mem_cons_self)
    have hrest := ih' fun r hr => hm r (List.mem_cons_of_mem _ hr)
    simp only [Task.price, remaining, List.length_append] at hfirst hrest ⊢
    omega
  | stop _ ih => exact ih fun r hr => hm r (hr ▸ List.mem_cons_self)

theorem Does.length_le (h : Does c (.name q) g log o g') :
    log.length ≤ 4 * c.mentioned.length + 4 := by
  have hcost := h.cost trivial
  have hfree : free c (g.marked q.key .resolving) ≤ c.mentioned.length := untaken_le c _
  simp only [Task.price] at hcost
  omega

/-- A run that succeeds frees no key. -/
theorem Does.isOpenOrDone (h : Does c task g log (.ok ()) g') (hk : g.isOpenOrDone k = true) :
    g'.isOpenOrDone k = true := by
  generalize ho : (Except.ok () : Except Error Unit) = o at h
  induction h with
  | undefined | dropped | stop => cases ho
  | resolved hlook _ ih =>
    refine isOpenOrDone_marked (by simp) (ih (isOpenOrDone_marked (by simp) ?_) ho)
    rwa [isOpenOrDone_congr hlook.asks.entries]
  | scalar | held | nothing => exact hk
  | visited _ _ ih => exact ih hk ho
  | next _ _ ih ih' => exact ih' (ih hk rfl) ho

/-! ## The program keeps to the rules -/

/-- A run that carries out a task by the rules. -/
def Performs {α : Type} (c : Catalog) (task : Task) (x : Resolve α) (g : TypeGraph) : Prop :=
  Ends x g (fun _ g' => ∃ log, Does c task g log (.ok ()) g')
    (fun e g' => ∃ log, Does c task g log (.error e) g')

section Performs

variable {install : QName → TypeClass → Resolve Unit} {stack : List QName}

/-- A way to resolve names that keeps to the rules while the names of `stack` are not free. -/
def PerformsBelow (c : Catalog) (stack : List QName) (install : QName → TypeClass → Resolve Unit) :
    Prop :=
  ∀ {g : TypeGraph} {r : QName}, (∀ p ∈ stack, g.isOpenOrDone p.key = true) →
    r.key ∈ c.mentioned → g.isOpenOrDone r.key = false →
      Performs c (.name r) (visit c install r) g

theorem performs_childRef (hinst : PerformsBelow c stack install) {t : AttributeType}
    (ht : (Task.part t).Mentioned c) (hstack : ∀ p ∈ stack, g.isOpenOrDone p.key = true) :
    Ends (childRef c install t) g
      (fun ref g' => ref = t.ref ∧ ∃ log, Does c (.part t) g log (.ok ()) g')
      (fun e g' => ∃ log, Does c (.part t) g log (.error e) g') := by
  cases t with
  | scalar s => exact ⟨rfl, [], .scalar⟩
  | named r =>
    unfold Ends
    by_cases hopen : g.isOpenOrDone r.key = true
    · rw [run_childRef_held hopen]
      exact ⟨rfl, [], .held hopen⟩
    · have hnew : g.isOpenOrDone r.key = false := by simpa using hopen
      rw [run_childRef_new hopen]
      refine ends_bind.mpr ((hinst hstack (ht r rfl) hnew).mono ?_ ?_)
      · rintro _ g' ⟨log, hdoes⟩
        exact ⟨rfl, log, .visited hnew hdoes⟩
      · rintro e g' ⟨log, hdoes⟩
        exact ⟨log, .visited hnew hdoes⟩

theorem performs_fieldRefs (hinst : PerformsBelow c stack install) (as : List Attribute)
    (has : (Task.parts (as.map Attribute.type)).Mentioned c)
    (hstack : ∀ p ∈ stack, g.isOpenOrDone p.key = true) :
    Ends (fieldRefs c install as) g
      (fun fields g' => fields = as.map Attribute.field ∧
        ∃ log, Does c (.parts (as.map Attribute.type)) g log (.ok ()) g')
      (fun e g' => ∃ log, Does c (.parts (as.map Attribute.type)) g log (.error e) g') := by
  induction as generalizing g with
  | nil => exact ⟨rfl, [], .nothing⟩
  | cons a as ih =>
    have ha : (Task.part a.type).Mentioned c := fun r hr => has r (hr ▸ List.mem_cons_self)
    rw [fieldRefs, ends_bind]
    refine (performs_childRef hinst ha hstack).mono ?_ fun _ _ h => h.imp fun _ => .stop
    rintro ref g₁ ⟨rfl, log, hfirst⟩
    rw [ends_bind]
    refine (ih (fun r hr => has r (List.mem_cons_of_mem _ hr)) fun p hp =>
      hfirst.isOpenOrDone (hstack p hp)).mono ?_ ?_
    · rintro fields g₂ ⟨rfl, log', hrest⟩
      exact ⟨rfl, log ++ log', .next hfirst hrest⟩
    · rintro e g₂ ⟨log', hrest⟩
      exact ⟨log ++ log', .next hfirst hrest⟩

theorem performs_build (hinst : PerformsBelow c stack install)
    (hraw : (Task.parts raw.parts).Mentioned c)
    (hstack : ∀ p ∈ stack, g.isOpenOrDone p.key = true) :
    Ends (build c install raw) g
      (fun d g' => d = raw.typeDef ∧ ∃ log, Does c (.parts raw.parts) g log (.ok ()) g')
      (fun e g' => ∃ log, Does c (.parts raw.parts) g log (.error e) g') := by
  cases raw with
  | scalar s => exact ⟨rfl, [], .nothing⟩
  | record as =>
    rw [build, ends_bind]
    refine (performs_fieldRefs hinst as hraw hstack).mono ?_ fun _ _ h => h
    rintro fields g' ⟨rfl, hdoes⟩
    exact ⟨rfl, hdoes⟩
  | collection elem indexBy =>
    rw [build, ends_bind]
    have helem : (Task.part elem.type).Mentioned c := fun r hr => hraw r (hr ▸ List.mem_cons_self)
    refine (performs_childRef hinst helem hstack).mono ?_ fun _ _ h => h.imp fun _ => .stop
    rintro ref g' ⟨rfl, log, hdoes⟩
    exact ⟨rfl, log ++ [], .next hdoes .nothing⟩

end Performs

/-- A name is opened, its parts are seen to by the rules, and it is finished or dropped. -/
def Completes (c : Catalog) (depth : Nat) (q : QName) (raw : RawDef) (g : TypeGraph) : Prop :=
  Ends (install c depth q raw) g
    (fun d g' => d = raw.typeDef ∧ ∃ log g₂,
      Does c (.parts raw.parts) (g.marked q.key .resolving) log (.ok ()) g₂ ∧
        g' = g₂.marked q.key (.resolved raw.typeDef))
    (fun e g' => ∃ log g₂,
      Does c (.parts raw.parts) (g.marked q.key .resolving) log (.error e) g₂ ∧
        g' = g₂.without q.key)

section Visit

variable {depth : Nat}

theorem performs_fetch_install (hcls : c.classify q = .ok (some cls))
    (hinst : ∀ {raw g₁}, c.Describes q raw → g₁.entries = g.entries → Completes c depth q raw g₁) :
    Ends (do
        let raw ← fetch c q cls
        install c depth q raw) { g with asked := g.asked + 1 }
      (fun d g' => g'.resolved? q.key = some d ∧ ∃ log, Does c (.name q) g log (.ok ()) g')
      (fun e g' => ∃ log, Does c (.name q) g log (.error e) g') := by
  refine ends_bind.mpr ((ends_run (fetch c q cls) _).mono ?_ ?_)
  · intro raw g₁ hrun
    have hlook : Looks c q g _ (.ok raw) g₁ := .fetched hcls hrun
    refine (hinst hlook.describes hlook.asks.entries).mono ?_ ?_
    · rintro d g' ⟨rfl, log, g₂, hparts, rfl⟩
      exact ⟨resolved?_eq_some_iff.mpr (get?_marked_self _ _ _), _, .resolved hlook hparts⟩
    · rintro e g' ⟨log, g₂, hparts, rfl⟩
      exact ⟨_, .dropped hlook hparts⟩
  · exact fun e g₁ hrun => ⟨_, .undefined (.fetched hcls hrun)⟩

theorem performs_visit
    (hinst : ∀ {raw g₁}, c.Describes q raw → g₁.entries = g.entries → Completes c depth q raw g₁) :
    Performs c (.name q) (visit c (nested c depth) q) g := by
  unfold Performs visit
  rw [ends_bind, ends_ask]
  rcases hcls : c.classify q with e | _ | cls
  · exact ⟨_, .undefined (.unanswered hcls)⟩
  · exact ⟨_, .undefined (.unknown hcls)⟩
  · exact ends_bind_discard.mpr ((performs_fetch_install hcls hinst).mono (fun _ _ h => h.2)
      (fun _ _ h => h))

/-- A name is resolved by the rules if its parts are, once it is open. -/
theorem PerformsBelow.completes {stack : List QName}
    (hbelow : PerformsBelow c (q :: stack) (nested c depth)) (hraw : c.Describes q raw)
    (hstack : ∀ p ∈ stack, g.isOpenOrDone p.key = true) : Completes c (depth + 1) q raw g := by
  have hopened : ∀ p ∈ q :: stack, (g.marked q.key .resolving).isOpenOrDone p.key = true := by
    refine List.forall_mem_cons.mpr ⟨isOpenOrDone_marked_self (by simp), fun p hp => ?_⟩
    exact isOpenOrDone_marked (by simp) (hstack p hp)
  refine ends_install_succ.mpr (ends_bind.mpr ((performs_build hbelow
    (fun r hr => hraw.mem_mentioned hr) hopened).mono ?_ ?_))
  · rintro d g₂ ⟨rfl, log, hparts⟩
    exact ⟨rfl, log, g₂, hparts, rfl⟩
  · rintro e g₂ ⟨log, hparts⟩
    exact ⟨log, g₂, hparts, rfl⟩

/-- A name whose key is free can be opened below names whose keys are not. -/
theorem opens_of_free {stack : List QName} {r : QName}
    (hstack : ∀ p ∈ stack, g.isOpenOrDone p.key = true) (hr : r.key ∈ c.mentioned)
    (hfree : g.isOpenOrDone r.key = false) : Opens c stack r := by
  refine ⟨hr, fun p hp hpr => ?_⟩
  rw [← hpr, hstack p hp] at hfree
  cases hfree

/-- **The allowance is no part of what happens**: where there is room, parts are resolved by the
rules. -/
theorem performsBelow_nested {stack : List QName} (hroom : room c stack ≤ depth) :
    PerformsBelow c stack (nested c depth) := by
  refine room_induction (P := fun stack depth => PerformsBelow c stack (nested c depth)) ?_ ?_ hroom
  · intro stack hfull g r hstack hr hfree
    exact absurd (opens_of_free hstack hr hfree) (hfull r)
  · intro stack depth hopen g r hstack hr hfree
    have hbelow : PerformsBelow c (r :: stack) (nested c depth) :=
      (hopen r (opens_of_free hstack hr hfree)).2
    refine performs_visit fun hraw hsame => hbelow.completes hraw fun p hp => ?_
    rw [isOpenOrDone_congr hsame]
    exact hstack p hp

theorem completes_allowance (hraw : c.Describes q raw) : Completes c (allowance c) q raw g := by
  have hbelow : PerformsBelow c [q] (nested c c.mentioned.length) :=
    performsBelow_nested (room_le c [q])
  exact hbelow.completes hraw (by simp)

end Visit

/-! ## References -/

section References

variable {reference text : String} {qs : List QName} {answer : Except Error Node}

theorem Tries.length_le (h : Tries c reference text qs g log answer g') :
    log.length ≤ qs.length + 4 * c.mentioned.length + 3 := by
  induction h with
  | unknown | kept => simp
  | passed _ _ _ ih =>
    simp only [List.length_cons]
    omega
  | resolved _ hdoes _ | failed _ _ hdoes =>
    have hlength := hdoes.length_le
    simp only [List.length_cons]
    omega

theorem Gets.length_le (h : Gets c reference g log answer g') :
    log.length ≤ 4 * c.mentioned.length + 5 := by
  cases h with
  | unread | remembered => simp
  | @tried r _ _ _ _ _ htries =>
    have hlength := htries.length_le
    have hnames := r.length_candidates_le c.owner
    omega

theorem tries_firstKnown (c : Catalog) (reference text : String) (qs : List QName)
    (g : TypeGraph) : Ends (firstKnown c reference text qs) g
      (fun node g' => ∃ log, Tries c reference text qs g log (.ok node) g')
      (fun e g' => ∃ log, Tries c reference text qs g log (.error e) g') := by
  induction qs generalizing g with
  | nil => exact ⟨[], .unknown⟩
  | cons q rest ih =>
    rw [firstKnown, ends_bind, ends_get]
    cases hq : g.resolved? q.key with
    | some d => exact ⟨[], .kept hq⟩
    | none =>
      refine ends_bind.mpr (ends_ask.mpr ?_)
      rcases hcls : c.classify q with e | _ | cls
      · exact ⟨_, .failed hq (by simp [hcls]) (.undefined (.unanswered hcls))⟩
      · refine (ih _).mono ?_ ?_
        · rintro node g' ⟨log, htries⟩
          exact ⟨_, .passed hq hcls htries⟩
        · rintro e g' ⟨log, htries⟩
          exact ⟨_, .passed hq hcls htries⟩
      · have hinst := ends_bind.mp
          (performs_fetch_install (g := g) hcls fun hraw _ => completes_allowance hraw)
        refine ends_bind.mpr (hinst.mono (fun raw g₁ h => ends_bind.mpr (h.mono ?_ ?_)) ?_)
        · rintro d g₂ ⟨hd, log, hdoes⟩
          exact ⟨log, .resolved hq hdoes hd⟩
        · exact fun _ _ h => h.imp fun _ => .failed hq (by simp [hcls])
        · exact fun _ _ h => h.imp fun _ => .failed hq (by simp [hcls])

theorem gets_resolve (c : Catalog) (reference : String) (g : TypeGraph) :
    Ends (resolve c reference) g (fun node g' => ∃ log, Gets c reference g log (.ok node) g')
      (fun e g' => ∃ log, Gets c reference g log (.error e) g') := by
  unfold resolve
  cases hread : Reference.parse reference with
  | error e => exact ⟨[], .unread hread⟩
  | ok r =>
    have htried : (∀ key, Assoc.get? r.text g.aliases = some key → g.resolved? key = none) →
        Ends (firstKnown c reference r.text (r.candidates c.owner)) g
          (fun node g' => ∃ log, Gets c reference g log (.ok node) g')
          (fun e g' => ∃ log, Gets c reference g log (.error e) g') := fun hnone =>
      (tries_firstKnown c reference r.text _ g).mono
        (fun _ _ h => h.imp fun _ => .tried hread hnone)
        (fun _ _ h => h.imp fun _ => .tried hread hnone)
    refine ends_bind.mpr (ends_get.mpr ?_)
    cases hkey : Assoc.get? r.text g.aliases with
    | none => exact htried (by simp [hkey])
    | some key =>
      cases hd : g.resolved? key with
      | none =>
        simp only [Option.bind_eq_bind, Option.bind_some, hd, Option.bind_none]
        exact htried (by simp [hkey, hd])
      | some d =>
        simp only [Option.bind_eq_bind, Option.bind_some, hd]
        exact ⟨[], .remembered hread hkey hd⟩

end References

/-! ## Scans -/

section Scans

variable {budget : Option Nat} {only : Option (List String)} {qs all : List QName}
  {outcomes : List (String × Outcome)} {answer : Except Error (List String)}

theorem Discovers.length_le (h : Discovers c budget qs g log outcomes g') :
    log.length ≤ qs.length * (4 * c.mentioned.length + 4) := by
  induction h with
  | nil => simp
  | cancelled _ ih | done _ _ _ ih =>
    rw [List.length_cons, Nat.succ_mul]
    omega
  | visited _ _ hdoes _ ih =>
    have hfirst := hdoes.length_le
    rw [List.length_cons, Nat.succ_mul, List.length_append]
    omega

theorem Surveys.length_le (h : Surveys c only budget g log answer g') :
    log.length ≤ c.allNames.length * (4 * c.mentioned.length + 4) + 1 := by
  cases h with
  | unlisted => simp
  | @listed all log _ _ _ _ hall hdiscovers _ =>
    have hfew : (g.unresolved (scanned only all)).length ≤ c.allNames.length := by
      rw [Catalog.allNames, hall]
      exact (List.length_filter_le _ _).trans (List.length_filter_le _ _)
    exact Nat.succ_le_succ (hdiscovers.length_le.trans (Nat.mul_le_mul_right _ hfew))

theorem discovers_discoverAll (c : Catalog) (budget : Option Nat) (qs : List QName)
    (g : TypeGraph) : ∃ log, Discovers c budget qs g log ((discoverAll c budget qs).run g).1
      ((discoverAll c budget qs).run g).2 := by
  induction qs generalizing budget g with
  | nil => exact ⟨[], by cases budget <;> exact .nil⟩
  | cons q rest ih =>
    by_cases hbudget : budget = some 0
    · subst hbudget
      obtain ⟨log, hrest⟩ := ih (some 0) g
      exact ⟨log, .cancelled hrest⟩
    · obtain ⟨log', hrest⟩ := ih (budget.map (· - 1)) ((discover c q).run g).2
      have hrun : (discoverAll c budget (q :: rest)).run g =
          ((q.key, some ((discover c q).run g).1) ::
            ((discoverAll c (budget.map (· - 1)) rest).run ((discover c q).run g).2).1,
            ((discoverAll c (budget.map (· - 1)) rest).run ((discover c q).run g).2).2) := by
        match budget with
        | some 0 => exact absurd rfl hbudget
        | some (n + 1) => rfl
        | none => rfl
      rw [hrun]
      by_cases hdone : (g.resolved? q.key).isSome = true
      · rw [run_discover_done hdone] at hrest ⊢
        exact ⟨log', .done hbudget hdone hrest⟩
      · have hnew : g.resolved? q.key = none := by simpa using hdone
        rw [run_discover_new hnew] at hrest ⊢
        have hvisit : Performs c (.name q) (visit c (nested c (allowance c)) q) g :=
          performs_visit fun hraw _ => completes_allowance hraw
        obtain ⟨log, hfirst⟩ := Ends.result (P := fun o g' => ∃ log, Does c (.name q) g log o g')
          hvisit
        exact ⟨log ++ log', .visited hbudget hnew hfirst hrest⟩

theorem run_names (hall : c.typeNames = .ok all) : (names c only budget).run g =
    (settle (sortedSet ((scanned only all).map QName.key))
      ((discoverAll c budget (g.unresolved (scanned only all))).run
        (g.noting (g.unresolved (scanned only all)))).1).run
      ((discoverAll c budget (g.unresolved (scanned only all))).run
        (g.noting (g.unresolved (scanned only all)))).2 := by
  unfold names
  rw [hall]
  rfl

theorem surveys_names (c : Catalog) (only : Option (List String)) (budget : Option Nat)
    (g : TypeGraph) : ∃ log, Surveys c only budget g log ((names c only budget).run g).1
      ((names c only budget).run g).2 := by
  cases hall : c.typeNames with
  | error e =>
    have hrun : (names c only budget).run g = (.error e, g) := by
      unfold names
      rw [hall]
      rfl
    rw [hrun]
    exact ⟨_, .unlisted hall⟩
  | ok all =>
    obtain ⟨log, hdiscovers⟩ := discovers_discoverAll c budget (g.unresolved (scanned only all))
      (g.noting (g.unresolved (scanned only all)))
    rw [run_names hall]
    exact ⟨_, .listed hall hdiscovers rfl⟩

end Scans

/-! ## Every call ends -/

/-- **Resolving comes to an end.** On every graph and with every catalog, whatever cycles its types
form and whichever of its queries fail, there is exactly one run by the rules for a reference and
for a scan. The program comes to what the run comes to. The queries of the run are bounded by the
size of the catalog, and those that are answered are the ones that the graph counts. -/
theorem runs_end (c : Catalog) (g : TypeGraph) :
    (∀ reference, ∃ log,
      (∀ log' o g', Gets c reference g log' o g' ↔
        log' = log ∧ (resolve c reference).run g = (o, g')) ∧
      log.length ≤ 4 * c.mentioned.length + 5 ∧
      ((resolve c reference).run g).2.asked = g.asked + answeredIn log) ∧
    ∀ only budget, ∃ log,
      (∀ log' o g', Surveys c only budget g log' o g' ↔
        log' = log ∧ (names c only budget).run g = (o, g')) ∧
      log.length ≤ c.allNames.length * (4 * c.mentioned.length + 4) + 1 ∧
      ((names c only budget).run g).2.asked = g.asked + answeredIn log.tail := by
  refine ⟨fun reference => ?_, fun only budget => ?_⟩
  · obtain ⟨log, hgets⟩ := Ends.result (P := fun o g' => ∃ log, Gets c reference g log o g')
      (gets_resolve c reference g)
    refine ⟨log, fun log' o g' => ⟨fun h => ?_, ?_⟩, hgets.length_le, hgets.counts⟩
    · obtain ⟨hlog, rfl, rfl⟩ := hgets.unique h
      exact ⟨hlog, rfl⟩
    · rintro ⟨rfl, hrun⟩
      rwa [hrun] at hgets
  · obtain ⟨log, hsurveys⟩ := surveys_names c only budget g
    refine ⟨log, fun log' o g' => ⟨fun h => ?_, ?_⟩, hsurveys.length_le, hsurveys.counts⟩
    · obtain ⟨hlog, rfl, rfl⟩ := hsurveys.unique h
      exact ⟨hlog, rfl⟩
    · rintro ⟨rfl, hrun⟩
      rwa [hrun] at hsurveys

end TypeGraph

end StoredCall
