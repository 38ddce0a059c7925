import StoredCall.Proofs.Assoc
import StoredCall.Proofs.Text.Split
import StoredCall.Stub.Block
import StoredCall.Text.Blank

/-!
# What a block does

The meaning of the statements that move data between locals and placeholders. Calls are not among
them.

A name without quotes means the name in capitals, unless the language keeps this word for itself;
one in quotes means itself. A record has the fields of its type and no others. An object is a record
too, but it can be null as a whole: then its fields are read as null, and to assign one of them is
an exception. A table maps integers to elements, and an element that was not there before is new: a
new record is made of new fields, a new object is null, and so is a new scalar. In a table that is
indexed by integers, every element can be assigned. A nested one is null until it is made, and has
room for as many elements as it was extended by. The index of a missing element is null. What cannot
be evaluated or assigned is an exception, here `none`; so is a name that means nothing, with which a
block would not even be compiled.

* `meant?` is the name that a written one means. `IsMeant`: a block that writes a name means it.
* `Datum` is what a local or a placeholder holds, `Memory` what all of them do.
* `Expr.eval` is the value of an expression, `Memory.write` an assignment.
* `Runs` relates statements and a memory to the memory after them. A run of a loop has a run of its
  body for each round, so what has a run terminates.
* `Runs.continues`: a run goes on from where its first statements lead. Hence there is at most one
  run, `Runs.unique`.
* `Memory.write_part`: assigning a part of a record or a table leaves all other parts.
-/

namespace StoredCall

open Text

variable {α : Type}

/-! ## Names -/

/-- Words that the language keeps for itself. They are no names without quotes. -/
def blockWords : List String :=
  ["ALL", "ALTER", "AND", "ANY", "AS", "ASC", "AT", "BEGIN", "BETWEEN", "BY", "CASE", "CHECK",
    "CLUSTER", "CLUSTERS", "COLAUTH", "COLUMNS", "COMPRESS", "CONNECT", "CRASH", "CREATE",
    "CURSOR", "DECLARE", "DEFAULT", "DESC", "DISTINCT", "DROP", "ELSE", "END", "EXCEPTION",
    "EXCLUSIVE", "FETCH", "FOR", "FROM", "FUNCTION", "GOTO", "GRANT", "GROUP", "HAVING",
    "IDENTIFIED", "IF", "IN", "INDEX", "INDEXES", "INSERT", "INTERSECT", "INTO", "IS", "LIKE",
    "LOCK", "MINUS", "MODE", "NOCOMPRESS", "NOT", "NOWAIT", "NULL", "OF", "ON", "OPTION", "OR",
    "ORDER", "OVERLAPS", "PROCEDURE", "PUBLIC", "RESOURCE", "REVOKE", "SELECT", "SHARE", "SIZE",
    "SQL", "START", "SUBTYPE", "TABAUTH", "TABLE", "THEN", "TO", "TYPE", "UNION", "UNIQUE",
    "UPDATE", "VALUES", "VIEW", "VIEWS", "WHEN", "WHERE", "WITH"]

/-- The name that a written one means. -/
def meant? (written : String) : Option String :=
  match written.toList with
  | '"' :: rest =>
    match dropEnd? ['"'] rest with
    | some name => if name = [] ∨ '"' ∈ name then none else some (String.ofList name)
    | none => none
  | _ =>
    if isPlainIdent written ∧ upper written ∉ blockWords then some (upper written) else none

/-- A name that a block means when it writes it. -/
def IsMeant (name : String) : Prop := meant? (blockName name) = some name

instance (name : String) : Decidable (IsMeant name) := inferInstanceAs (Decidable (_ = _))

theorem meant?_of_plain {name : String} (h : isPlainIdent name = true) :
    meant? name = if upper name ∈ blockWords then none else some (upper name) := by
  unfold meant?
  split
  · next rest hname =>
    simp [isPlainIdent, hname, Char.isAlpha, Char.isUpper, Char.isLower] at h
  · simp only [h, true_and, ite_not]

theorem meant?_quotes (name : String) : meant? ("\"" ++ name ++ "\"") =
    if name.toList = [] ∨ '"' ∈ name.toList then none else some name := by
  have hchars : ("\"" ++ name ++ "\"").toList = '"' :: (name.toList ++ ['"']) := by simp
  have hdrop : dropEnd? ['"'] (name.toList ++ ['"']) = some name.toList :=
    dropEnd?_eq_some_iff.mpr rfl
  unfold meant?
  rw [hchars]
  simp only [hdrop, String.ofList_toList]

/-- **Names that a block means when it writes them**: without quotes they are no reserved words and
have no small letter, in quotes there is a name and no quote inside. -/
theorem isMeant_iff {name : String} : IsMeant name ↔
    if isPlainIdent name then name ∉ blockWords ∧ upper name = name
    else name ≠ "" ∧ '"' ∉ name.toList := by
  unfold IsMeant blockName
  split
  · next hplain =>
    rw [meant?_of_plain hplain]
    by_cases h : upper name ∈ blockWords
    · rw [if_pos h]
      constructor
      · intro hnone
        cases hnone
      · intro hname
        exact absurd (hname.2 ▸ h) hname.1
    · rw [if_neg h, Option.some_inj]
      exact ⟨fun hname => ⟨hname ▸ h, hname⟩, And.right⟩
  · rw [meant?_quotes, ← not_or, ← String.toList_eq_nil_iff]
    by_cases h : name.toList = [] ∨ '"' ∈ name.toList <;> simp only [h] <;> simp

/-- A block means the fields that it writes. -/
def AllMeant (fields : List String) : Prop := ∀ name ∈ fields, IsMeant name

theorem allMeant_nil : AllMeant [] := fun _ h => absurd h List.not_mem_nil

/-! ## Data -/

/-- What a local or a placeholder holds. A table knows what a new element of it is, and a nested one
has room for indices up to a number. -/
inductive Datum (α : Type) where
  | null
  | scalar (a : α)
  | index (i : Int)
  | record (fields : List (String × Datum α))
  | table (room : Option Nat) (blank : Datum α) (rows : List (Int × Datum α))

namespace Datum

/-- The field of a record or object. -/
def field? (name : String) : Datum α → Option (Datum α)
  | record fields => Assoc.get? name fields
  | null => some null
  | _ => none

/-- What fields lead to. -/
def select? : List String → Datum α → Option (Datum α)
  | [], d => some d
  | name :: rest, d => (d.field? name).bind (select? rest)

/-- The part that fields lead to. Null has no parts. -/
def part? : List String → Datum α → Option (Datum α)
  | [], d => some d
  | name :: rest, record fields => (Assoc.get? name fields).bind (part? rest)
  | _ :: _, _ => none

theorem select?_of_part? {fields : List String} {d t : Datum α} (h : d.part? fields = some t) :
    d.select? fields = some t := by
  induction fields generalizing d with
  | nil => exact h
  | cons name rest ih =>
    cases d with
    | record fields =>
      obtain ⟨c, hc, hrest⟩ := Option.bind_eq_some_iff.mp h
      exact Option.bind_eq_some_iff.mpr ⟨c, hc, ih hrest⟩
    | _ => cases h

/-- An element of a table. -/
def item? (i : Int) : Datum α → Option (Datum α)
  | table _ _ rows => Assoc.get? i rows
  | _ => none

/-- An index, or null. -/
def ofIndex : Option Int → Datum α
  | some i => index i
  | none => null

/-- The least index of a table. -/
def first? : Datum α → Option (Datum α)
  | table _ _ rows => some (ofIndex (rows.map Prod.fst).min?)
  | _ => none

/-- The greatest index of a table. -/
def last? : Datum α → Option (Datum α)
  | table _ _ rows => some (ofIndex (rows.map Prod.fst).max?)
  | _ => none

/-- The least index of a table after another. -/
def next? (i : Int) : Datum α → Option (Datum α)
  | table _ _ rows => some (ofIndex ((rows.map Prod.fst).filter (i < ·)).min?)
  | _ => none

/-- The number of elements of a table. -/
def count? : Datum α → Option Nat
  | table _ _ rows => some rows.length
  | _ => none

end Datum

/-- A step from a place to a part of it. -/
inductive Access where
  | field (name : String)
  | item (i : Int)

/-- Whether an element can be assigned. -/
def hasRoom (room : Option Nat) (i : Int) : Prop := ∀ n ∈ room, 1 ≤ i ∧ i ≤ n

instance (room : Option Nat) (i : Int) : Decidable (hasRoom room i) :=
  match room with
  | none => isTrue fun _ h => nomatch h
  | some n => decidable_of_iff (1 ≤ i ∧ i ≤ n) (by simp [hasRoom])

theorem hasRoom_none (i : Int) : hasRoom none i := by simp [hasRoom]

/-- A datum with a part replaced. -/
def Datum.put (d : Datum α) : List Access → Datum α → Option (Datum α)
  | [], _ => some d
  | .field name :: rest, record fields =>
    ((Assoc.get? name fields).bind (put d rest)).map fun x => record (Assoc.put name x fields)
  | .item i :: rest, table room blank rows =>
    if hasRoom room i then
      (put d rest ((Assoc.get? i rows).getD blank)).map fun x =>
        table room blank (Assoc.put i x rows)
    else none
  | _, _ => none

/-! ## Memory -/

/-- What the locals and the placeholders hold, and what a new element of a nested table is, by the
name of the table's type. -/
structure Memory (α : Type) where
  locals : String → Datum α
  marks : Nat → Datum α
  fresh : String → Datum α

/-- A local or a placeholder. -/
inductive Root where
  | var (name : String)
  | mark (position : Nat)

namespace Memory

/-- What a local or a placeholder holds. -/
def get (m : Memory α) : Root → Datum α
  | .var x => m.locals x
  | .mark p => m.marks p

/-- The memory after a local or a placeholder was assigned. -/
def set (m : Memory α) : Root → Datum α → Memory α
  | .var x, d => { m with locals := Function.update m.locals x d }
  | .mark p, d => { m with marks := Function.update m.marks p d }

end Memory

/-- The value of an expression, unless it raises an exception. -/
def Expr.eval (m : Memory α) : Expr → Option (Datum α)
  | .placeholder p => some (m.marks p)
  | .var x => some (m.locals x)
  | .field e name =>
    (e.eval m).bind fun d => (meant? (blockName name)).bind fun meant => d.field? meant
  | .item t i =>
    match t.eval m, i.eval m with
    | some t, some (.index n) => t.item? n
    | _, _ => none
  | .first t => (t.eval m).bind Datum.first?
  | .last t => (t.eval m).bind Datum.last?
  | .next t i =>
    match t.eval m, i.eval m with
    | some t, some (.index n) => t.next? n
    | _, _ => none
  | .count t => ((t.eval m).bind Datum.count?).map fun n : Nat => .index n
  | .succ e =>
    match e.eval m with
    | some (.index n) => some (.index (n + 1))
    | _ => none
  | .construct typeName => some (.table (some 0) (m.fresh typeName) [])

/-- The place that an expression names. -/
def Expr.place? (m : Memory α) : Expr → Option (Root × List Access)
  | .placeholder p => some (.mark p, [])
  | .var x => some (.var x, [])
  | .field e name => (e.place? m).bind fun place =>
    (meant? (blockName name)).map fun meant => (place.1, place.2 ++ [.field meant])
  | .item t i =>
    match i.eval m with
    | some (.index n) => (t.place? m).map fun place => (place.1, place.2 ++ [.item n])
    | _ => none
  | _ => none

/-- The memory after an assignment. -/
def Memory.write (m : Memory α) (target : Expr) (d : Datum α) : Option (Memory α) := do
  let place ← target.place? m
  let x ← d.put place.2 (m.get place.1)
  return m.set place.1 x

/-! ## Statements -/

/-- The memory after a statement that is no loop and no branch. -/
def Stmt.act? (m : Memory α) : Stmt → Option (Memory α)
  | .assign target value => (value.eval m).bind (m.write target)
  | .delete t =>
    match t.eval m with
    | some (.table room blank _) => m.write t (.table (room.map fun _ => 0) blank [])
    | _ => none
  | .extend t =>
    match t.eval m with
    | some (.table (some n) blank rows) =>
      m.write t (.table (some (n + 1)) blank (Assoc.put (n + 1 : Nat) blank rows))
    | _ => none
  | _ => none

/-- How statements end: after the last one, or by leaving the loop they stand in. -/
inductive Flow where
  | onward | left
  deriving DecidableEq

/-- Statements lead from one memory to another. -/
inductive Runs : List Stmt → Memory α → Flow → Memory α → Prop where
  | nil {m} : Runs [] m .onward m
  | act {st rest m m₁ f m'} : st.act? m = some m₁ → Runs rest m₁ f m' → Runs (st :: rest) m f m'
  | leave {t limit rest m n} : (t.eval m).bind Datum.count? = some n → limit ≤ n →
      Runs (.exitWhenFull t limit :: rest) m .left m
  | stay {t limit rest m n f m'} : (t.eval m).bind Datum.count? = some n → n < limit →
      Runs rest m f m' → Runs (.exitWhenFull t limit :: rest) m f m'
  | skip {v body rest m f m'} : v.eval m = some .null → Runs rest m f m' →
      Runs (.ifSet v body :: rest) m f m'
  | enter {v body rest m d f m'} : v.eval m = some d → d ≠ .null → Runs (body ++ rest) m f m' →
      Runs (.ifSet v body :: rest) m f m'
  | done {i body rest m f m'} : i.eval m = some .null → Runs rest m f m' →
      Runs (.whileSet i body :: rest) m f m'
  | again {i body rest m d m₁ f m'} : i.eval m = some d → d ≠ .null → Runs body m .onward m₁ →
      Runs (.whileSet i body :: rest) m₁ f m' → Runs (.whileSet i body :: rest) m f m'
  | broken {i body rest m d m₁ f m'} : i.eval m = some d → d ≠ .null → Runs body m .left m₁ →
      Runs rest m₁ f m' → Runs (.whileSet i body :: rest) m f m'

namespace Runs

variable {m m₁ m' : Memory α} {f : Flow} {ss ts : List Stmt}

/-- A run of statements and then of others. -/
theorem append (h : Runs ss m f m₁) (hf : f = .onward) {g : Flow} (h' : Runs ts m₁ g m') :
    Runs (ss ++ ts) m g m' := by
  induction h with
  | nil => exact h'
  | act hact _ ih => exact .act hact (ih hf h')
  | leave => cases hf
  | stay hn hlt _ ih => exact .stay hn hlt (ih hf h')
  | skip hv _ ih => exact .skip hv (ih hf h')
  | enter hv hne _ ih => exact .enter hv hne (List.append_assoc _ _ _ ▸ ih hf h')
  | done hi _ ih => exact .done hi (ih hf h')
  | again hi hne hbody _ _ ih => exact .again hi hne hbody (ih hf h')
  | broken hi hne hbody _ _ ih => exact .broken hi hne hbody (ih hf h')

/-- What a run of statements with others after them comes to, when the first statements lead to
`m₁`: the others are run from there, or the loop around them is left. -/
def Continues (ts : List Stmt) (m₁ : Memory α) (g : Flow) (m' : Memory α) : Flow → Prop
  | .onward => Runs ts m₁ g m'
  | .left => g = .left ∧ m' = m₁

/-- A run goes on from where its first statements lead. -/
theorem continues (h : Runs ss m f m₁) : ∀ {ts : List Stmt} {g : Flow} {m' : Memory α},
    Runs (ss ++ ts) m g m' → Continues ts m₁ g m' f := by
  induction h with
  | nil => exact fun h' => h'
  | act hact _ ih =>
    intro ts g m' h'
    cases h' with
    | act hact' h' =>
      rw [hact] at hact'
      cases hact'
      exact ih h'
    | _ => cases hact
  | leave hn hle =>
    intro ts g m' h'
    cases h' with
    | act hact' => cases hact'
    | leave => exact ⟨rfl, rfl⟩
    | stay hn' hlt =>
      rw [hn] at hn'
      cases hn'
      omega
  | stay hn hlt _ ih =>
    intro ts g m' h'
    cases h' with
    | act hact' => cases hact'
    | leave hn' hle =>
      rw [hn] at hn'
      cases hn'
      omega
    | stay _ _ h' => exact ih h'
  | skip hv _ ih =>
    intro ts g m' h'
    cases h' with
    | act hact' => cases hact'
    | skip _ h' => exact ih h'
    | enter hv' hne => exact absurd (Option.some.inj (hv'.symm.trans hv)) hne
  | enter hv hne _ ih =>
    intro ts g m' h'
    cases h' with
    | act hact' => cases hact'
    | skip hv' => exact absurd (Option.some.inj (hv.symm.trans hv')) hne
    | enter _ _ h' => exact ih (List.append_assoc _ _ _ ▸ h')
  | done hi _ ih =>
    intro ts g m' h'
    cases h' with
    | act hact' => cases hact'
    | done _ h' => exact ih h'
    | again hi' hne => exact absurd (Option.some.inj (hi'.symm.trans hi)) hne
    | broken hi' hne => exact absurd (Option.some.inj (hi'.symm.trans hi)) hne
  -- The body of a loop has nothing after it.
  | @again i body rest m d m₁ f m' hi hne _ _ ihbody ih =>
    intro ts g m' h'
    have hround : ∀ {g : Flow} {m₂ : Memory α}, Runs body m g m₂ → Runs [] m₁ g m₂ := fun h =>
      ihbody (by rwa [List.append_nil])
    cases h' with
    | act hact' => cases hact'
    | done hi' => exact absurd (Option.some.inj (hi.symm.trans hi')) hne
    | again _ _ hbody' h' =>
      cases hround hbody'
      exact ih h'
    | broken _ _ hbody' => cases hround hbody'
  | @broken i body rest m d m₁ f m' hi hne _ _ ihbody ih =>
    intro ts g m' h'
    have hround : ∀ {g : Flow} {m₂ : Memory α}, Runs body m g m₂ → g = .left ∧ m₂ = m₁ := fun h =>
      ihbody (by rwa [List.append_nil])
    cases h' with
    | act hact' => cases hact'
    | done hi' => exact absurd (Option.some.inj (hi.symm.trans hi')) hne
    | again _ _ hbody' => cases (hround hbody').1
    | broken _ _ hbody' h' =>
      obtain ⟨-, rfl⟩ := hround hbody'
      exact ih h'

theorem rest (h : Runs ss m .onward m₁) {g : Flow} (h' : Runs (ss ++ ts) m g m') :
    Runs ts m₁ g m' := h.continues h'

/-- **Statements have at most one run.** -/
theorem unique (h : Runs ss m f m') {g : Flow} {m'' : Memory α} (h' : Runs ss m g m'') :
    f = g ∧ m' = m'' := by
  have hcontinues : Continues [] m' g m'' f := h.continues (by rwa [List.append_nil])
  cases f with
  | onward =>
    cases hcontinues
    exact ⟨rfl, rfl⟩
  | left => exact ⟨hcontinues.1.symm, hcontinues.2.symm⟩

/-- An assignment that is an exception has no run. -/
theorem not_assign {target value : Expr} (h : (Stmt.assign target value).act? m = none) :
    ¬ Runs (.assign target value :: ts) m f m' := by
  rintro (_ | ⟨hact, -⟩)
  rw [h] at hact
  cases hact

end Runs

/-! ## Places -/

section Places

variable {m : Memory α}

theorem Expr.eval_select (e : Expr) {fields : List String} (h : AllMeant fields) :
    (e.select fields).eval m = (e.eval m).bind (Datum.select? fields) := by
  induction fields generalizing e with
  | nil =>
    show e.eval m = _
    cases e.eval m <;> rfl
  | cons name rest ih =>
    obtain ⟨hname, hrest⟩ := List.forall_mem_cons.mp h
    rw [Expr.select, List.foldl_cons]
    refine (ih (.field e name) hrest).trans ?_
    rw [Expr.eval, hname, Option.bind_assoc]
    rfl

/-- The steps that written fields mean. -/
def accesses? : List String → Option (List Access)
  | [] => some []
  | name :: rest => do return .field (← meant? (blockName name)) :: (← accesses? rest)

theorem accesses?_of_meant {fields : List String} (h : AllMeant fields) :
    accesses? fields = some (fields.map .field) := by
  induction fields with
  | nil => rfl
  | cons name rest ih =>
    obtain ⟨hname, hrest⟩ := List.forall_mem_cons.mp h
    rw [accesses?, hname, ih hrest]
    rfl

/-- What has no part under the name that is meant first takes nothing. -/
theorem Datum.put_eq_none_of_first {name : String} {rest : List String} {x : Datum α}
    (hx : ∀ meant ∈ meant? (blockName name), x.part? [meant] = none) :
    ∀ steps ∈ accesses? (name :: rest), ∀ d : Datum α, d.put steps x = none := by
  intro steps hsteps d
  obtain ⟨meant, hmeant, hsteps⟩ := Option.bind_eq_some_iff.mp hsteps
  obtain ⟨more, -, ⟨⟩⟩ := Option.bind_eq_some_iff.mp hsteps
  have hx := hx meant hmeant
  cases x with
  | record fields =>
    have hget : Assoc.get? meant fields = none := by
      simpa [Datum.part?, Option.bind_eq_none_iff] using hx
    rw [Datum.put, hget]
    rfl
  | _ => rfl

theorem Expr.place?_select (e : Expr) (fields : List String) :
    (e.select fields).place? m = (e.place? m).bind fun place =>
      (accesses? fields).map fun steps => (place.1, place.2 ++ steps) := by
  induction fields generalizing e with
  | nil => simp [Expr.select, accesses?]
  | cons name rest ih =>
    rw [Expr.select, List.foldl_cons]
    refine (ih (.field e name)).trans ?_
    rw [Expr.place?, accesses?]
    cases e.place? m <;> cases meant? (blockName name) <;> cases accesses? rest <;> simp

/-- Neither list of fields leads on from where the other ends. -/
def FieldsApart (a b : List String) : Prop := ¬ a <+: b ∧ ¬ b <+: a

theorem FieldsApart.symm {a b : List String} (h : FieldsApart a b) : FieldsApart b a := And.symm h

/-- **Replacing a part** of what fields lead to replaces it there, and leaves what other fields lead
to. -/
theorem Datum.put_fields {fields : List String} {q : List Access} {d x t t' : Datum α}
    (ht : x.part? fields = some t) (hput : d.put q t = some t') :
    ∃ x', d.put (fields.map .field ++ q) x = some x' ∧ x'.part? fields = some t' ∧
      ∀ others, FieldsApart others fields → x'.part? others = x.part? others := by
  induction fields generalizing x with
  | nil =>
    cases ht
    exact ⟨t', hput, rfl, fun others h => absurd List.nil_prefix h.2⟩
  | cons name rest ih =>
    cases x with
    | record fields =>
      obtain ⟨c, hc, hrest⟩ := Option.bind_eq_some_iff.mp ht
      obtain ⟨c', hput', hpart, hothers⟩ := ih hrest
      refine ⟨.record (Assoc.put name c' fields), ?_, ?_, fun others hapart => ?_⟩
      · rw [List.map_cons, List.cons_append, Datum.put, hc, Option.bind_some, hput']
        rfl
      · rw [Datum.part?, Assoc.get?_put_self]
        exact hpart
      · -- What another list leads to lies in another field, or in the same one and apart there.
        cases others with
        | nil => exact absurd List.nil_prefix hapart.1
        | cons other others =>
          rw [Datum.part?, Datum.part?]
          by_cases heq : other = name
          · subst heq
            have hinner : FieldsApart others rest := by
              simpa [FieldsApart, List.cons_prefix_cons] using hapart
            rw [Assoc.get?_put_self, hc]
            exact hothers others hinner
          · rw [Assoc.get?_put_of_ne heq]
    | _ => cases ht

/-- A part that cannot be replaced inside what fields lead to cannot be replaced at all. -/
theorem Datum.put_fields_eq_none {fields : List String} {q : List Access} {d x t : Datum α}
    (ht : x.part? fields = some t) (hput : d.put q t = none) :
    d.put (fields.map .field ++ q) x = none := by
  induction fields generalizing x with
  | nil =>
    cases ht
    exact hput
  | cons name rest ih =>
    cases x with
    | record fields =>
      obtain ⟨c, hc, hrest⟩ := Option.bind_eq_some_iff.mp ht
      rw [List.map_cons, List.cons_append, Datum.put, hc, Option.bind_some, ih hrest]
      rfl
    | _ => cases ht

/-- A memory has changed in some locals only. -/
structure Memory.SameBut (changed : String → Prop) (m m' : Memory α) : Prop where
  locals : ∀ y, ¬ changed y → m'.locals y = m.locals y
  marks : m'.marks = m.marks
  fresh : m'.fresh = m.fresh

namespace Memory

theorem SameBut.refl {changed : String → Prop} (m : Memory α) : SameBut changed m m :=
  ⟨fun _ _ => rfl, rfl, rfl⟩

theorem SameBut.trans {changed : String → Prop} {m m₁ m' : Memory α} (h : SameBut changed m m₁)
    (h' : SameBut changed m₁ m') : SameBut changed m m' :=
  ⟨fun y hy => (h'.locals y hy).trans (h.locals y hy), h'.marks.trans h.marks,
    h'.fresh.trans h.fresh⟩

theorem SameBut.mono {changed changed' : String → Prop} {m m' : Memory α}
    (h : SameBut changed m m') (hle : ∀ y, changed y → changed' y) : SameBut changed' m m' :=
  ⟨fun y hy => h.locals y fun hc => hy (hle y hc), h.marks, h.fresh⟩

/-- What a place of another local holds stays. -/
theorem SameBut.eval_select {changed : String → Prop} {m m' : Memory α} (h : SameBut changed m m')
    {x : String} (hx : ¬ changed x) (fields : List String) :
    ((Expr.var x).select fields).eval m' = ((Expr.var x).select fields).eval m := by
  induction fields using List.reverseRecOn with
  | nil => exact congrArg some (h.locals x hx)
  | append_singleton fields name ih =>
    rw [Expr.select, List.foldl_concat]
    show (((Expr.var x).select fields).eval m').bind _ = _
    rw [ih]
    rfl

theorem locals_set_self (m : Memory α) (x : String) (d : Datum α) :
    (m.set (.var x) d).locals x = d := by
  simp only [set, Function.update_self]

theorem sameBut_set (m : Memory α) (x : String) (d : Datum α) :
    m.SameBut (· = x) (m.set (.var x) d) where
  locals y hy := by simp only [set, Function.update_of_ne hy]
  marks := rfl
  fresh := rfl

/-- The value of a place is the part that is there. -/
theorem eval_of_part {x : String} {fields : List String} {t : Datum α} (h : AllMeant fields)
    (ht : (m.locals x).part? fields = some t) : ((Expr.var x).select fields).eval m = some t := by
  rw [Expr.eval_select _ h]
  exact Datum.select?_of_part? ht

theorem place?_var_select (m : Memory α) (x : String) {fields : List String} (h : AllMeant fields) :
    ((Expr.var x).select fields).place? m = some (.var x, fields.map .field) := by
  rw [Expr.place?_select, accesses?_of_meant h]
  rfl

/-- **Assigning a part** of a place changes it there, and in no other local. -/
theorem write_part {x : String} {fields : List String} {q : List Access} {d t t' : Datum α}
    {target : Expr} (ht : (m.locals x).part? fields = some t)
    (hplace : target.place? m = some (.var x, fields.map .field ++ q))
    (hput : d.put q t = some t') :
    ∃ m', m.write target d = some m' ∧ (m'.locals x).part? fields = some t' ∧
      m.SameBut (· = x) m' := by
  obtain ⟨x', hput', hpart, -⟩ := Datum.put_fields ht hput
  refine ⟨m.set (.var x) x', ?_, ?_, m.sameBut_set x x'⟩
  · rw [write, hplace]
    show (d.put (fields.map .field ++ q) (m.locals x)).bind _ = _
    rw [hput']
    rfl
  · rw [locals_set_self]
    exact hpart

/-- What a place does not take is not assigned. -/
theorem write_eq_none {x : String} {fields : List String} {q : List Access} {d t : Datum α}
    {target : Expr} (ht : (m.locals x).part? fields = some t)
    (hplace : target.place? m = some (.var x, fields.map .field ++ q)) (hput : d.put q t = none) :
    m.write target d = none := by
  rw [write, hplace]
  show (d.put (fields.map .field ++ q) (m.locals x)).bind _ = _
  rw [Datum.put_fields_eq_none ht hput]
  rfl

end Memory

end Places

/-! ## Tables -/

section Tables

variable {room : Option Nat} {stored rows before after : List (Int × Datum α)} {k : Int}
  {blank e : Datum α}

/-- Rows by their indices. -/
def Ordered (rows : List (Int × Datum α)) : Prop := rows.Pairwise fun r r' => r.1 < r'.1

theorem Ordered.keyed (h : Ordered rows) : Assoc.Keyed rows :=
  List.pairwise_map.mpr (h.imp fun hlt => ne_of_lt hlt)

theorem Ordered.min? (h : Ordered rows) :
    (rows.map Prod.fst).min? = rows.head?.map Prod.fst := by
  cases rows with
  | nil => rfl
  | cons r rest =>
    refine List.min?_eq_some_iff.mpr ⟨List.mem_cons_self, ?_⟩
    have hrest : ∀ r' ∈ rest, r.1 < r'.1 := (List.pairwise_cons.mp h).1
    intro i hi
    rcases List.mem_cons.mp hi with rfl | hi
    · exact le_rfl
    · obtain ⟨r', hr', rfl⟩ := List.mem_map.mp hi
      exact le_of_lt (hrest r' hr')

/-- The rows of a table by their indices. -/
def ascending (stored : List (Int × Datum α)) : List (Int × Datum α) :=
  stored.mergeSort fun r r' => r.1 ≤ r'.1

theorem perm_ascending (stored : List (Int × Datum α)) : stored.Perm (ascending stored) :=
  (List.mergeSort_perm stored _).symm

theorem ordered_ascending (h : Assoc.Keyed stored) : Ordered (ascending stored) := by
  have hle : (ascending stored).Pairwise fun r r' => decide (r.1 ≤ r'.1) = true :=
    List.pairwise_mergeSort (by grind) (by grind) stored
  have hne : (ascending stored).Pairwise fun r r' => r.1 ≠ r'.1 :=
    List.pairwise_map.mp (((perm_ascending stored).map Prod.fst).nodup_iff.mp h)
  exact (hle.and hne).imp fun h => lt_of_le_of_ne (of_decide_eq_true h.1) h.2

/-- The least of some indices does not depend on their order. -/
theorem min?_of_perm {a b : List Int} (h : a.Perm b) : a.min? = b.min? := by
  cases hb : b.min? with
  | none =>
    rw [List.min?_eq_none_iff] at hb ⊢
    exact List.perm_nil.mp (hb ▸ h)
  | some k =>
    rw [List.min?_eq_some_iff] at hb ⊢
    exact ⟨h.mem_iff.mpr hb.1, fun j hj => hb.2 j (h.mem_iff.mp hj)⟩

namespace Datum

/-- The index of the first of some rows, or null. -/
def headIndex (rows : List (Int × Datum α)) : Datum α := ofIndex (rows.head?.map Prod.fst)

theorem first?_table (hperm : stored.Perm rows) (h : Ordered rows) :
    (table room blank stored).first? = some (headIndex rows) := by
  rw [first?, min?_of_perm (hperm.map Prod.fst), h.min?]
  rfl

/-- After the index of a row comes that of the next row. -/
theorem next?_table (hperm : stored.Perm (before ++ (k, e) :: after))
    (h : Ordered (before ++ (k, e) :: after)) :
    (table room blank stored).next? k = some (headIndex after) := by
  obtain ⟨-, hafter, hcross⟩ := List.pairwise_append.mp h
  obtain ⟨hlt, hordered⟩ := List.pairwise_cons.mp hafter
  have hbefore : (before.map Prod.fst).filter (k < ·) = [] := by
    refine List.filter_eq_nil_iff.mpr fun i hi => ?_
    obtain ⟨r, hr, rfl⟩ := List.mem_map.mp hi
    have := hcross r hr (k, e) List.mem_cons_self
    simp only [decide_eq_true_eq]
    omega
  have hrest : (after.map Prod.fst).filter (k < ·) = after.map Prod.fst := by
    refine List.filter_eq_self.mpr fun i hi => ?_
    obtain ⟨r, hr, rfl⟩ := List.mem_map.mp hi
    exact decide_eq_true (hlt r hr)
  rw [next?, min?_of_perm ((hperm.map Prod.fst).filter _), List.map_append, List.map_cons,
    List.filter_append, hbefore, List.nil_append, List.filter_cons_of_neg (by simp), hrest,
    Ordered.min? hordered]
  rfl

theorem item?_table (hperm : stored.Perm (before ++ (k, e) :: after))
    (h : Ordered (before ++ (k, e) :: after)) : (table room blank stored).item? k = some e := by
  have hkeyed : Assoc.Keyed stored := (hperm.map Prod.fst).nodup_iff.mpr h.keyed
  refine (Assoc.mem_iff_get? hkeyed).mp (hperm.mem_iff.mpr ?_)
  exact List.mem_append_right _ List.mem_cons_self

/-! Rows with consecutive indices. -/

/-- Elements as rows, from an index on. -/
def rowsFrom (i : Int) : List (Datum α) → List (Int × Datum α)
  | [] => []
  | e :: rest => (i, e) :: rowsFrom (i + 1) rest

/-- The table of elements from index 1 on, without gaps. -/
def filled (room : Option Nat) (blank : Datum α) (es : List (Datum α)) : Datum α :=
  table room blank (rowsFrom 1 es)

/-- An array of scalars from index 1 on, without gaps. -/
abbrev array (es : List (Datum α)) : Datum α := filled none null es

theorem rowsFrom_append (i : Int) (as bs : List (Datum α)) :
    rowsFrom i (as ++ bs) = rowsFrom i as ++ rowsFrom (i + as.length) bs := by
  induction as generalizing i with
  | nil => simp [rowsFrom]
  | cons a as ih =>
    rw [List.cons_append, rowsFrom, rowsFrom, ih, List.cons_append, List.length_cons]
    congr 3
    push_cast
    ring

theorem length_rowsFrom (i : Int) (es : List (Datum α)) : (rowsFrom i es).length = es.length := by
  induction es generalizing i with
  | nil => rfl
  | cons e es ih => rw [rowsFrom, List.length_cons, List.length_cons, ih]

theorem mem_keys_rowsFrom {i j : Int} {es : List (Datum α)} (h : j ∈ (rowsFrom i es).map Prod.fst) :
    i ≤ j ∧ j < i + es.length := by
  induction es generalizing i with
  | nil => cases h
  | cons e es ih =>
    rw [rowsFrom, List.map_cons, List.mem_cons] at h
    rw [List.length_cons]
    rcases h with rfl | h
    · omega
    · have := ih h
      omega

theorem ordered_rowsFrom (i : Int) (es : List (Datum α)) : Ordered (rowsFrom i es) := by
  induction es generalizing i with
  | nil => exact .nil
  | cons e es ih =>
    refine List.pairwise_cons.mpr ⟨fun r hr => ?_, ih (i + 1)⟩
    have := mem_keys_rowsFrom (List.mem_map_of_mem hr)
    show i < r.1
    omega

theorem count?_filled (room : Option Nat) (blank : Datum α) (es : List (Datum α)) :
    (filled room blank es).count? = some es.length :=
  congrArg some (length_rowsFrom 1 es)

theorem notMem_keys_rowsFrom (es : List (Datum α)) :
    (es.length + 1 : Int) ∉ (rowsFrom 1 es).map Prod.fst := fun h => by
  have := mem_keys_rowsFrom h
  omega

/-- The row after the last one is new. -/
theorem put_rowsFrom (es : List (Datum α)) (e : Datum α) :
    Assoc.put (es.length + 1 : Int) e (rowsFrom 1 es) = rowsFrom 1 (es ++ [e]) := by
  rw [Assoc.put_of_notMem (notMem_keys_rowsFrom es), rowsFrom_append, add_comm]
  rfl

theorem get?_rowsFrom (i : Int) (j : Nat) (es : List (Datum α)) :
    Assoc.get? (i + j) (rowsFrom i es) = es[j]? := by
  induction es generalizing i j with
  | nil => rfl
  | cons e es ih =>
    rw [rowsFrom, Assoc.get?]
    cases j with
    | zero => simp
    | succ j =>
      have hstep : i + ((j + 1 : Nat) : Int) = i + 1 + j := by push_cast; ring
      rw [if_neg (by omega), hstep, ih]
      rfl

theorem item?_filled (room : Option Nat) (blank : Datum α) (j : Nat) (es : List (Datum α)) :
    (filled room blank es).item? (j + 1) = es[j]? := by
  rw [filled, item?, add_comm, get?_rowsFrom]

/-- The last row is replaced. -/
theorem put_rowsFrom_last (es : List (Datum α)) (cur e : Datum α) :
    Assoc.put (es.length + 1 : Int) e (rowsFrom 1 (es ++ [cur])) = rowsFrom 1 (es ++ [e]) := by
  rw [rowsFrom_append, rowsFrom_append, Assoc.put_append_of_notMem (notMem_keys_rowsFrom es),
    add_comm, rowsFrom, rowsFrom, Assoc.put, if_pos rfl]
  rfl

/-- The index that comes after `j` of a number of rows without gaps, or null after the last. -/
def indexAfter (count j : Nat) : Datum α := if j < count then index (j + 1) else null

theorem headIndex_rowsFrom (i : Int) (es : List (Datum α)) :
    headIndex (rowsFrom i es) = if 0 < es.length then index i else null := by
  cases es <;> rfl

theorem first?_filled (room : Option Nat) (blank : Datum α) (es : List (Datum α)) :
    (filled room blank es).first? = some (indexAfter es.length 0) := by
  rw [filled, first?_table .rfl (ordered_rowsFrom 1 es), headIndex_rowsFrom]
  rfl

theorem next?_filled (room : Option Nat) (blank : Datum α) {es : List (Datum α)} {j : Nat}
    (h : j < es.length) :
    (filled room blank es).next? (j + 1) = some (indexAfter es.length (j + 1)) := by
  have hsplit : rowsFrom 1 es = rowsFrom 1 (es.take j) ++
      ((j + 1 : Int), es.get ⟨j, h⟩) :: rowsFrom (j + 2) (es.drop (j + 1)) := by
    have hes : es = es.take j ++ es.get ⟨j, h⟩ :: es.drop (j + 1) := by simp
    conv_lhs => rw [hes]
    have hlen : (es.take j).length = j := by simp; omega
    rw [rowsFrom_append, hlen, rowsFrom]
    congr 3 <;> ring
  have hordered := ordered_rowsFrom 1 es
  rw [hsplit] at hordered
  rw [filled, hsplit, next?_table .rfl hordered, headIndex_rowsFrom, List.length_drop, indexAfter]
  by_cases hmore : j + 1 < es.length
  · rw [if_pos (by omega), if_pos hmore]
    congr 2
  · rw [if_neg (by omega), if_neg hmore]

/-- The greatest index is the number of rows. -/
theorem last?_filled (room : Option Nat) (blank : Datum α) (es : List (Datum α)) (e : Datum α) :
    (filled room blank (es ++ [e])).last? = some (index (es.length + 1)) := by
  have hmax : ((rowsFrom 1 (es ++ [e])).map Prod.fst).max? = some (es.length + 1 : Int) := by
    refine List.max?_eq_some_iff.mpr ⟨?_, fun j hj => ?_⟩
    · rw [rowsFrom_append, add_comm]
      simp [rowsFrom]
    · have := mem_keys_rowsFrom hj
      rw [List.length_append, List.length_singleton] at this
      omega
  rw [filled, last?, hmax]
  rfl

end Datum

end Tables

end StoredCall
