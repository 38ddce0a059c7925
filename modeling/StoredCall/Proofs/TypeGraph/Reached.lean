import StoredCall.Proofs.TypeGraph.Resolve
import StoredCall.TypeGraph.Discovery
import StoredCall.TypeGraph.Equality
import StoredCall.TypeGraph.Expansion
import StoredCall.Catalog.Store

/-!
# Graphs that calls lead to

A graph starts empty and is changed by calls. The catalog gives the same answers all the time, but
at each call some of its queries may fail; a call that fails leaves its changes.

* `GraphCall` are the calls, and `TypeGraph.Reached times g` says that calls lead to `g`. Each call
  meets the catalog as it is at one of `times`.
* `GraphCall.moves`: a call keeps to a relation between graphs if its steps do.
* `GraphCall.goes`: every call keeps a graph sound, whether it succeeds or fails.
* **`TypeGraph.Reached.entries_described`**: nothing is left half resolved, and what is resolved has
  the definition of the catalog.
* **`TypeGraph.Reached.resolved_or_dropped`**: a reference of a resolved type is resolved too,
  unless it goes back to a type that was dropped; `TypeGraph.ordersGivenUp` is such a graph.
-/

namespace StoredCall

open TypeGraph

-- How a reference is read plays no part here, and unfolding it is slow.
attribute [local irreducible] Reference.parse

/-- A call that may change a graph. -/
inductive GraphCall where
  | get (reference : String)
  | names (only : Option (List String)) (budget : Option Nat)
  | expand (reference : String) (direction : Direction)
  | equal (a b : String)

/-- The graph after a call, whether it succeeded or failed. -/
def GraphCall.after (c : Catalog) (g : TypeGraph) : GraphCall → TypeGraph
  | .get reference => ((resolve c reference).run g).2
  | .names only budget => ((TypeGraph.names c only budget).run g).2
  | .expand reference direction => ((TypeGraph.expand c reference direction).run g).2
  | .equal a b => ((TypeGraph.equal c a b).run g).2

namespace TypeGraph

/-- The graphs that calls lead to from the empty one, where the catalog is at each call one of
`times`. -/
inductive Reached (times : Set Catalog) : TypeGraph → Prop where
  | empty : Reached times {}
  | call {g : TypeGraph} {c : Catalog} : Reached times g → c ∈ times → (call : GraphCall) →
    Reached times (call.after c g)

variable {full c : Catalog} {refused : QName → Prop} {g g' : TypeGraph}

/-! ## Steps that keep a graph sound -/

/-- Whatever a step comes to, the graph stays sound and keeps what is resolved. -/
def GoesOn {α : Type} (full : Catalog) (refused : QName → Prop) (x : Resolve α) : Prop :=
  ∀ g, Sound full refused [] g →
    Ends x g (fun _ => Goes full refused [] g) (fun _ => Goes full refused [] g)

/-- How a step changes a graph that was sound before. -/
def Onward (full : Catalog) (refused : QName → Prop) (g g' : TypeGraph) : Prop :=
  Sound full refused [] g → Goes full refused [] g g'

instance : IsPreorder TypeGraph (Onward full refused) where
  refl _ := Goes.refl
  trans _ _ _ h h' hs := (h hs).trans (h' (h hs).sound)

theorem goesOn_iff_moves {α : Type} {x : Resolve α} :
    GoesOn full refused x ↔ Moves (Onward full refused) x := moves_imp_iff.symm

/-! ## Resolving a reference -/

/-- Resolving a name that the catalog has classified. -/
theorem ends_installed (hc : c.Within full) (hr : ∀ r, c.Refuses r → refused r)
    (hs : Sound full refused [] g) {q : QName} {cls : TypeClass}
    (hcls : c.classify q = .ok (some cls)) (hq : g.resolved? q.key = none) :
    Ends (do
        let raw ← fetch c q cls
        install c (allowance c) q raw) g
      (fun d g' => Goes full refused [] g g' ∧ g'.resolved? q.key = some d)
      (fun _ g' => Goes full refused [] g g') := by
  refine ends_bind.mpr ((ends_fetch hcls g).mono ?_ ?_)
  · rintro raw g₁ ⟨hsame, hraw⟩
    have hgoes : Goes full refused [] g g₁ := .of_entries_eq hs hsame
    have hnew : Sound.New [] g₁ q.key :=
      ⟨(resolved?_congr (by rw [hsame])).trans hq, by simp⟩
    refine (ends_install hc hr hgoes.sound hnew (by simp) hraw (room_le c [q])).mono ?_ ?_
    · rintro d g₂ ⟨hgoes₂, -, hd⟩
      exact ⟨hgoes.trans hgoes₂, hd⟩
    · rintro e g₂ ⟨hgoes₂, -⟩
      exact hgoes.trans hgoes₂
  · rintro e g₁ ⟨hsame, -⟩
    exact .of_entries_eq hs hsame

theorem ends_firstKnown (hc : c.Within full) (hr : ∀ r, c.Refuses r → refused r)
    (hs : Sound full refused [] g) (reference text : String) (qs : List QName) :
    Ends (firstKnown c reference text qs) g
      (fun node g' => Goes full refused [] g g' ∧ g'.resolved? node.key = some node.type)
      (fun _ g' => Goes full refused [] g g') := by
  induction qs generalizing g with
  | nil => exact Goes.refl hs
  | cons q rest ih =>
    rw [firstKnown, ends_bind, ends_get]
    cases hq : g.resolved? q.key with
    | some d => exact ⟨.of_entries_eq hs rfl, hq⟩
    | none =>
      refine ends_bind.mpr (ends_ask.mpr ?_)
      cases hcls : c.classify q with
      | error e => exact Goes.refl hs
      | ok answer =>
        have hasked : Goes full refused [] g { g with asked := g.asked + 1 } :=
          .of_entries_eq hs rfl
        cases answer with
        | none =>
          refine (ih hasked.sound).mono ?_ ?_
          · rintro node g' ⟨hgoes, hnode⟩
            exact ⟨hasked.trans hgoes, hnode⟩
          · exact fun e g' hgoes => hasked.trans hgoes
        | some cls =>
          have hinst := ends_bind.mp (ends_installed hc hr hasked.sound hcls hq)
          refine ends_bind.mpr (hinst.mono (fun raw g₁ h => ends_bind.mpr (h.mono ?_ ?_)) ?_)
          · rintro d g₂ ⟨hgoes, hd⟩
            exact ⟨(hasked.trans hgoes).trans (.of_entries_eq hgoes.sound rfl), hd⟩
          · exact fun e g₂ hgoes => hasked.trans hgoes
          · exact fun e g₁ hgoes => hasked.trans hgoes

/-- **Resolving a reference** gives a type that is kept under its key. -/
theorem ends_resolve (hc : c.Within full) (hr : ∀ r, c.Refuses r → refused r)
    (hs : Sound full refused [] g) (reference : String) :
    Ends (resolve c reference) g
      (fun node g' => Goes full refused [] g g' ∧ g'.resolved? node.key = some node.type)
      (fun _ g' => Goes full refused [] g g') := by
  unfold resolve
  cases Reference.parse reference with
  | error e => exact Goes.refl hs
  | ok r =>
    refine ends_bind.mpr (ends_get.mpr ?_)
    cases hkey : Assoc.get? r.text g.aliases with
    | none => exact ends_firstKnown hc hr hs reference r.text _
    | some key =>
      cases hd : g.resolved? key with
      | none =>
        simp only [Option.bind_eq_bind, Option.bind_some, hd, Option.bind_none]
        exact ends_firstKnown hc hr hs reference r.text _
      | some d =>
        simp only [Option.bind_eq_bind, Option.bind_some, hd]
        exact ⟨.refl hs, hd⟩

theorem goesOn_resolve (hc : c.Within full) (hr : ∀ r, c.Refuses r → refused r)
    (reference : String) : GoesOn full refused (resolve c reference) :=
  fun _ hs => (ends_resolve hc hr hs reference).mono (fun _ _ h => h.1) (fun _ _ h => h)

/-! ## Scanning the catalog -/

theorem goesOn_discover (hc : c.Within full) (hr : ∀ r, c.Refuses r → refused r) (q : QName) :
    GoesOn full refused (discover c q) := by
  intro g hs
  refine ends_bind.mpr (ends_get.mpr ?_)
  by_cases hq : (g.resolved? q.key).isNone = true
  · rw [if_pos hq]
    refine ends_bind.mpr (ends_ask.mpr ?_)
    cases hcls : c.classify q with
    | error e => exact Goes.refl hs
    | ok answer =>
      have hasked : Goes full refused [] g { g with asked := g.asked + 1 } := .of_entries_eq hs rfl
      cases answer with
      | none => exact hasked
      | some cls =>
        have hinst := ends_bind.mp (ends_installed hc hr hasked.sound hcls
          (Option.isNone_iff_eq_none.mp hq))
        refine ends_bind.mpr (hinst.mono (fun raw g₁ h => ends_discard.mpr (h.mono ?_ ?_)) ?_)
        · rintro d g₂ ⟨hgoes, -⟩
          exact hasked.trans hgoes
        · exact fun e g₂ hgoes => hasked.trans hgoes
        · exact fun e g₁ hgoes => hasked.trans hgoes
  · rw [if_neg hq]
    exact Goes.refl hs

/-- Nothing changes if only pending keys come and go. -/
theorem Goes.of_pending (hs : Sound full refused [] g) (hkeyed : Assoc.Keyed g'.entries)
    (h : ∀ k e, e ≠ .pending →
      (Assoc.get? k g'.entries = some e ↔ Assoc.get? k g.entries = some e)) :
    Goes full refused [] g g' := by
  have hres : ∀ k, g'.resolved? k = g.resolved? k := by
    intro k
    ext d
    rw [resolved?_eq_some_iff, resolved?_eq_some_iff]
    exact h k _ (by simp)
  exact ⟨hs.congr hkeyed hres (fun k => h k _ (by simp)), fun k d hd => (hres k).trans hd⟩

/-- The graph with names noted as pending. -/
def noting (g : TypeGraph) (qs : List QName) : TypeGraph :=
  { g with entries := qs.foldl (fun t q => Assoc.putNew q.key .pending t) g.entries }

theorem get?_noting (g : TypeGraph) (qs : List QName) (k : String) :
    Assoc.get? k (g.noting qs).entries =
      (Assoc.get? k g.entries).or (if ∃ q ∈ qs, q.key = k then some .pending else none) := by
  induction qs generalizing g with
  | nil => simp [noting]
  | cons q qs ih =>
    have hstep : g.noting (q :: qs) = (g.noting [q]).noting qs := rfl
    have hone : Assoc.get? k (g.noting [q]).entries =
        (Assoc.get? k g.entries).or (if q.key = k then some .pending else none) :=
      Assoc.get?_putNew q.key k Entry.pending g.entries
    rw [hstep, ih, hone, Option.or_assoc]
    congr 1
    by_cases hq : q.key = k <;> simp [hq]

/-- What is not pending is as it was. -/
theorem get?_noting_eq_some_iff (g : TypeGraph) (qs : List QName) (k : String) {e : Entry}
    (he : e ≠ .pending) :
    Assoc.get? k (g.noting qs).entries = some e ↔ Assoc.get? k g.entries = some e := by
  rw [get?_noting]
  cases Assoc.get? k g.entries with
  | some e' => rfl
  | none =>
    by_cases hk : ∃ q ∈ qs, q.key = k
    · simp [hk, he.symm]
    · simp [hk]

/-- Notes names as pending. -/
def note (qs : List QName) : Resolve Unit := modify fun g => g.noting qs

theorem goesOn_note (qs : List QName) : GoesOn full refused (note qs) := by
  refine fun g hs => ends_modify.mpr (.of_pending hs ?_ fun k e he =>
    get?_noting_eq_some_iff g qs k he)
  have hkeyed : ∀ t : List (String × Entry), Assoc.Keyed t →
      Assoc.Keyed (qs.foldl (fun t q => Assoc.putNew q.key .pending t) t) := by
    induction qs with
    | nil => exact fun t ht => ht
    | cons q qs ih => exact fun t ht => ih _ (Assoc.keyed_putNew ht q.key .pending)
  exact hkeyed _ hs.keyed

theorem get?_forgetPending (key k : String) {e : Entry} (he : e ≠ .pending) (g : TypeGraph) :
    Assoc.get? k ((forgetPending key).run g).2.entries = some e ↔
      Assoc.get? k g.entries = some e := by
  show Assoc.get? k (if Assoc.get? key g.entries = some .pending then
    { g with entries := Assoc.drop key g.entries } else g : TypeGraph).entries = some e ↔ _
  by_cases hpending : Assoc.get? key g.entries = some .pending
  · rw [if_pos hpending]
    by_cases hk : k = key
    · rw [hk, Assoc.get?_drop_self, hpending]
      simp [he.symm]
    · rw [Assoc.get?_drop_of_ne hk]
  · rw [if_neg hpending]

theorem goesOn_forgetPending (key : String) : GoesOn full refused (forgetPending key) := by
  intro g hs
  have hkeyed : Assoc.Keyed ((forgetPending key).run g).2.entries := by
    show Assoc.Keyed (if Assoc.get? key g.entries = some .pending then
      { g with entries := Assoc.drop key g.entries } else g : TypeGraph).entries
    split
    · exact Assoc.keyed_drop hs.keyed key
    · exact hs.keyed
  exact ends_modify.mpr (.of_pending hs hkeyed fun k e he => get?_forgetPending key k he g)

end TypeGraph

/-! ## Any calls -/

section Calls

variable {R : TypeGraph → TypeGraph → Prop} [IsPreorder TypeGraph R] {c : Catalog}

/-- A scan goes on whatever comes of a name. -/
theorem moves_discoverAll (hdiscover : ∀ q, Moves R (discover c q)) (budget : Option Nat)
    (qs : List QName) : Moves R (liftM (discoverAll c budget qs) : Resolve _) := by
  induction qs generalizing budget with
  | nil => exact fun g => ends_lift.mpr (refl_of R g)
  | cons q rest ih =>
    intro g
    refine ends_lift.mpr ?_
    have hfirst := (hdiscover q g).state
    match budget with
    | some 0 => exact ih (some 0) g
    | some (n + 1) => exact trans_of R hfirst (ih (some n) _)
    | none => exact trans_of R hfirst (ih none _)

theorem moves_settle (hforget : ∀ key, Moves R (forgetPending key)) (names : List String)
    (outcomes : List (String × Outcome)) : Moves R (settle names outcomes) := by
  induction outcomes generalizing names with
  | nil => exact moves_pure names
  | cons outcome rest ih =>
    match outcome with
    | (key, none) => exact ih _
    | (key, some (.ok ())) => exact ih _
    | (key, some (.error e)) =>
      cases e with
      | notSupported => exact (hforget key).bind fun _ => ih _
      | _ => exact moves_throw _

/-- **Every call keeps to a relation that its steps keep to**, whether it succeeds or fails. -/
theorem GraphCall.moves (hresolve : ∀ reference, Moves R (resolve c reference))
    (hdiscover : ∀ q, Moves R (discover c q)) (hnote : ∀ qs, Moves R (note qs))
    (hforget : ∀ key, Moves R (forgetPending key)) (call : GraphCall) (g : TypeGraph) :
    R g (call.after c g) := by
  cases call with
  | get reference => exact (hresolve reference g).state
  | names only budget =>
    have hnames : Moves R (TypeGraph.names c only budget) :=
      (moves_ofExcept _).bind fun _ => moves_get.bind fun _ => (hnote _).bind fun _ =>
        (moves_discoverAll hdiscover budget _).bind fun _ => moves_settle hforget _ _
    exact (hnames g).state
  | expand reference direction =>
    have hexpand : Moves R (TypeGraph.expand c reference direction) :=
      (hresolve reference).bind fun _ => moves_get.bind fun _ => moves_ofExcept _
    exact (hexpand g).state
  | equal a b =>
    have hequal : Moves R (TypeGraph.equal c a b) :=
      (hresolve a).bind fun _ => (hresolve b).bind fun _ => moves_get.bind fun _ => moves_pure _
    exact (hequal g).state

end Calls

/-- **Every call keeps a graph sound**, whether it succeeds or fails. -/
theorem GraphCall.goes {full c : Catalog} {refused : QName → Prop} {g : TypeGraph}
    (hc : c.Within full) (hr : ∀ r, c.Refuses r → refused r) (hs : Sound full refused [] g)
    (call : GraphCall) : Goes full refused [] g (call.after c g) :=
  call.moves (fun reference => goesOn_iff_moves.mp (goesOn_resolve hc hr reference))
    (fun q => goesOn_iff_moves.mp (goesOn_discover hc hr q))
    (fun qs => goesOn_iff_moves.mp (goesOn_note qs))
    (fun key => goesOn_iff_moves.mp (goesOn_forgetPending key)) g hs

namespace TypeGraph

variable {times : Set Catalog} {full : Catalog} {g : TypeGraph}

/-- Some of the catalogs that the calls meet has no definition for a name. -/
def RefusedAt (times : Set Catalog) (q : QName) : Prop := ∃ c ∈ times, c.Refuses q

/-- What calls lead to is sound, with nothing open. -/
theorem Reached.sound (hfull : ∀ c ∈ times, c.Within full) (h : Reached times g) :
    Sound full (RefusedAt times) [] g := by
  induction h with
  | empty => exact sound_empty full _
  | call _ hc call ih =>
    exact (call.goes (hfull _ hc) (fun r hr => ⟨_, hc, hr⟩) ih).sound

theorem Sound.mem_resolved {refused : QName → Prop} {stack : List QName} {k : String}
    {d : TypeDef} (hs : Sound full refused stack g) :
    (k, .resolved d) ∈ g.entries ↔ g.resolved? k = some d := by
  rw [resolved?_eq_some_iff, Assoc.mem_iff_get? hs.keyed]

/-! ## Orders and their lines -/

/-- Orders, whose lines lead back to them. The terms of an order are those of a table, and the rows
of a line say its quantity twice. -/
def orders : Store where
  owner := "S"
  types := [
    ("S.ORDER_T", .record [⟨"LINES", .named { owner := "S", name := "LINES_T" }⟩,
      ⟨"TERMS", .named { owner := "S", name := "TERMS_T" }⟩]),
    ("S.LINES_T", .collection ⟨"", .named { owner := "S", name := "LINE_T" }⟩ (some "pls_integer")),
    ("S.LINE_T", .record [⟨"QTY", .scalar { name := "NUMBER" }⟩,
      ⟨"QTY", .scalar { name := "DATE" }⟩,
      ⟨"PARENT", .named { owner := "S", name := "ORDER_T" }⟩]),
    ("S.TERMS_T", .object [])]
  names := [{ owner := "S", name := "TERMS_T" }, { owner := "S", name := "ORDER_T" }]
  tables := [("S.TERMS_T", [⟨"DAYS", .scalar { name := "NUMBER" }⟩])]

/-- The columns of the terms cannot be asked for at one time. -/
def orderTimes : Set Catalog := {orders.catalog.failing ["columns S.TERMS_T"], orders.catalog}

/-- Orders were asked for when the terms could not be. -/
def ordersGivenUp : TypeGraph :=
  (GraphCall.get "order_t").after (orders.catalog.failing ["columns S.TERMS_T"]) {}

/-- Everything was scanned later on. -/
def ordersScanned : TypeGraph := (GraphCall.names none none).after orders.catalog ordersGivenUp

theorem within_orders : ∀ c ∈ orderTimes, c.Within orders.catalog := by
  rintro c (rfl | rfl)
  · exact Catalog.within_failing orders.catalog _
  · exact .refl orders.catalog

theorem reached_ordersGivenUp : Reached orderTimes ordersGivenUp :=
  .call .empty (.inl rfl) (.get "order_t")

theorem reached_ordersScanned : Reached orderTimes ordersScanned :=
  reached_ordersGivenUp.call (.inr rfl) (.names none none)

/-- The definition of a line. -/
def lineDef : TypeDef :=
  .record [⟨"QTY", .scalar { name := "NUMBER" }⟩, ⟨"PARENT", .named "S.ORDER_T"⟩]

theorem entries_ordersGivenUp : ordersGivenUp.entries = [
    ("S.LINES_T", .resolved (.collection (.named "S.LINE_T") (some .integer))),
    ("S.LINE_T", .resolved lineDef)] := by
  decide +kernel

theorem entries_ordersScanned : ordersScanned.entries = [
    ("S.LINES_T", .resolved (.collection (.named "S.LINE_T") (some .integer))),
    ("S.LINE_T", .resolved lineDef),
    ("S.TERMS_T", .resolved (.record [⟨"DAYS", .scalar { name := "NUMBER" }⟩])),
    ("S.ORDER_T", .resolved (.record [⟨"LINES", .named "S.LINES_T"⟩,
      ⟨"TERMS", .named "S.TERMS_T"⟩]))] := by
  decide +kernel

/-! ## What a graph keeps -/

/-- **What a graph keeps is what the catalog says.** However calls went, each key is there once,
nothing is left half resolved, and what is resolved under a key is the one definition that the
catalog gives for a name with this key. A type that is given out is kept under its key. -/
theorem Reached.entries_described (hfull : ∀ c ∈ times, c.Within full) (h : Reached times g) :
    Assoc.Keyed g.entries ∧
    (∀ e ∈ g.entries, e.2 ≠ .resolving) ∧
    (∀ k d, (k, .resolved d) ∈ g.entries → ∃ q raw, q.key = k ∧
      (∀ raw', full.Describes q raw' ↔ raw' = raw) ∧ d = raw.typeDef) ∧
    ∀ c ∈ times, ∀ reference node g', (resolve c reference).run g = (.ok node, g') →
      (node.key, .resolved node.type) ∈ g'.entries := by
  have hs := h.sound hfull
  refine ⟨hs.keyed, ?_, ?_, ?_⟩
  · rintro ⟨k, e⟩ he hopen
    have hk : Assoc.get? k g.entries = some .resolving :=
      (Assoc.mem_iff_get? hs.keyed).mp (by rwa [← hopen])
    obtain ⟨p, hp, -⟩ := (hs.opened k).mp hk
    cases hp
  · intro k d hd
    obtain ⟨q, raw, hq, hraw, rfl⟩ := hs.defined (hs.mem_resolved.mp hd)
    refine ⟨q, raw, hq, fun raw' => ⟨fun hraw' => hraw'.unique hraw, ?_⟩, rfl⟩
    rintro rfl
    exact hraw
  · intro c hc reference node g' hrun
    have hends := ends_resolve (hfull c hc) (fun r hr => ⟨c, hc, hr⟩ : ∀ r, c.Refuses r →
      RefusedAt times r) hs reference
    unfold Ends at hends
    rw [hrun] at hends
    exact hends.1.sound.mem_resolved.mpr hends.2

/-- A line keeps the first of two rows about its quantity, and its reference to the order. -/
theorem ordersScanned_line_described : ("S.LINE_T", .resolved lineDef) ∈ ordersScanned.entries ∧
    (∀ e ∈ ordersScanned.entries, e.2 ≠ .resolving) ∧ ∃ q raw, q.key = "S.LINE_T" ∧
      (∀ raw', orders.catalog.Describes q raw' ↔ raw' = raw) ∧ lineDef = raw.typeDef := by
  obtain ⟨-, hdone, hdef, -⟩ := reached_ordersScanned.entries_described within_orders
  have hline : ("S.LINE_T", .resolved lineDef) ∈ ordersScanned.entries := by
    simp [entries_ordersScanned]
  exact ⟨hline, hdone, hdef _ _ hline⟩

/-- **References of resolved types.** The type that a resolved type refers to is resolved too,
unless it leads back to the resolved type, and also to a type for which the catalog had no
definition at some time: then it was given up after the resolved type was finished. -/
theorem Reached.resolved_or_dropped (hfull : ∀ c ∈ times, c.Within full) (h : Reached times g)
    {k l : String} {d : TypeDef} (hd : (k, .resolved d) ∈ g.entries) (hl : .named l ∈ d.refs) :
    (∃ e, (l, .resolved e) ∈ g.entries) ∨
      ∃ p q r, p.key = l ∧ q.key = k ∧ full.Leads p q ∧ full.Leads p r ∧
        ∃ c ∈ times, c.Refuses r := by
  have hs := h.sound hfull
  rcases hs.linked (hs.mem_resolved.mp hd) hl with hdone | ⟨p, q, hp, hq, hlead, hopen | hdoom⟩
  · obtain ⟨e, he⟩ := Option.isSome_iff_exists.mp hdone
    exact .inl ⟨e, hs.mem_resolved.mpr he⟩
  · cases hopen
  · obtain ⟨r, hr, hrefused⟩ := hdoom
    exact .inr ⟨p, q, r, hp, hq, hlead, hr, hrefused⟩

/-- A line refers to its order, which is neither resolved nor known at all. -/
theorem ordersGivenUp_line_dangling : (∀ c ∈ orderTimes, c.Within orders.catalog) ∧
    Reached orderTimes ordersGivenUp ∧ ("S.LINE_T", .resolved lineDef) ∈ ordersGivenUp.entries ∧
      .named "S.ORDER_T" ∈ lineDef.refs ∧ ∀ e, ("S.ORDER_T", e) ∉ ordersGivenUp.entries := by
  refine ⟨within_orders, reached_ordersGivenUp, ?_, ?_, ?_⟩
  · simp [entries_ordersGivenUp]
  · simp [lineDef, TypeDef.refs]
  · simp [entries_ordersGivenUp]

/-- The order was given up for its terms, after its lines were finished. -/
theorem ordersGivenUp_line_dropped : ∃ p q r : QName, p.key = "S.ORDER_T" ∧ q.key = "S.LINE_T" ∧
    orders.catalog.Leads p q ∧ orders.catalog.Leads p r ∧ ∃ c ∈ orderTimes, c.Refuses r := by
  have hline : ("S.LINE_T", .resolved lineDef) ∈ ordersGivenUp.entries := by
    simp [entries_ordersGivenUp]
  have hparent : .named "S.ORDER_T" ∈ lineDef.refs := by simp [lineDef, TypeDef.refs]
  refine (reached_ordersGivenUp.resolved_or_dropped within_orders hline hparent).resolve_left ?_
  simp [entries_ordersGivenUp]

end TypeGraph

end StoredCall
