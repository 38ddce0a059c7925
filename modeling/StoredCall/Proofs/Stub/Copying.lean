import StoredCall.Proofs.Stub.Execution
import StoredCall.Stub.Lower

/-!
# Loops that copy tables

A table is copied by a loop with one round for each element, in which every array takes or gives one
scalar. The loop that reads a table goes through its rows by their indices and appends to the
arrays. The one that fills a table goes through the arrays and makes rows.

* `LocalsApart`: no local of a copy is used for two things.
* `runs_readRound`, `runs_readRounds`: one round of reading, and the loop.
* `runs_fillRound`, `runs_fillRounds`: one round of filling, and the loop.
* `runs_copyOut`: **a table is read** from its first row on, up to a capacity.
* `runs_copyIn`: **a table is filled** with a row for each place of the arrays.
* `not_runs_copyIn`: a table whose new rows do not take their first scalar is not filled at all.
-/

namespace StoredCall

open Datum

variable {α : Type} {m m' : Memory α} {x i : String} {fs : List String} {columns : List Carried}

/-- The value of a scalar inside an element. -/
def Leaf.value (l : Leaf) (e : Datum α) : Datum α := (e.select? l.fields).getD .null

/-- An element has a value for every scalar inside it. -/
def HasLeaves (leaves : List Leaf) (e : Datum α) : Prop :=
  ∀ l ∈ leaves, ∃ d, e.select? l.fields = some d

theorem HasLeaves.select?_eq {leaves : List Leaf} {e : Datum α} (h : HasLeaves leaves e) {l : Leaf}
    (hl : l ∈ leaves) : e.select? l.fields = some (l.value e) := by
  obtain ⟨d, hd⟩ := h l hl
  rw [Leaf.value, hd]
  rfl

/-- The array of a column. -/
def IsArray (columns : List Carried) (y : String) : Prop := ∃ c ∈ columns, c.array = y

/-- The locals of a copy are apart: the arrays, the local of the table and the index. -/
structure LocalsApart (columns : List Carried) (x i : String) : Prop where
  nodup : (columns.map Carried.array).Nodup
  place : ¬ IsArray columns x
  index : ¬ IsArray columns i
  ne : x ≠ i

/-- A block means the scalars of the columns when it writes their fields. -/
def CellsMeant (columns : List Carried) : Prop := ∀ c ∈ columns, AllMeant c.leaf.fields

/-- The arrays of columns hold the values of the columns. -/
def Holding (m : Memory α) (columns : List Carried) (cells : Leaf → List (Datum α)) : Prop :=
  ∀ c ∈ columns, m.locals c.array = array (cells c.leaf)

/-- **One statement for each array**, which gives it a value that depends on the arrays of no other
column. -/
theorem runs_each {stmt : Carried → Stmt} {result : Carried → Datum α}
    (hnodup : (columns.map Carried.array).Nodup)
    (hact : ∀ c ∈ columns, ∀ m', m.SameBut (IsArray columns) m' →
      m'.locals c.array = m.locals c.array → ∃ m'', (stmt c).act? m' = some m'' ∧
        m''.locals c.array = result c ∧ m'.SameBut (· = c.array) m'') :
    ∃ m', Runs (columns.map stmt) m .onward m' ∧ (∀ c ∈ columns, m'.locals c.array = result c) ∧
      m.SameBut (IsArray columns) m' := by
  induction columns generalizing m with
  | nil => exact ⟨m, .nil, fun c hc => absurd hc List.not_mem_nil, .refl m⟩
  | cons c rest ih =>
    rw [List.map_cons, List.nodup_cons] at hnodup
    have hne : ∀ c' ∈ rest, c'.array ≠ c.array := fun c' hc' heq =>
      hnodup.1 (heq ▸ List.mem_map_of_mem hc')
    have hin : ∀ y, IsArray rest y → IsArray (c :: rest) y := fun y ⟨c', hc', hy⟩ =>
      ⟨c', List.mem_cons_of_mem c hc', hy⟩
    obtain ⟨m₁, hact₁, hresult, hone⟩ := hact c List.mem_cons_self m (.refl m) rfl
    have hsame : m.SameBut (IsArray (c :: rest)) m₁ := hone.mono fun y hy =>
      ⟨c, List.mem_cons_self, hy.symm⟩
    have hrest : ∀ c' ∈ rest, ∀ m', m₁.SameBut (IsArray rest) m' →
        m'.locals c'.array = m₁.locals c'.array → ∃ m'', (stmt c').act? m' = some m'' ∧
          m''.locals c'.array = result c' ∧ m'.SameBut (· = c'.array) m'' := by
      intro c' hc' m' hm' heq
      refine hact c' (List.mem_cons_of_mem c hc') m' (hsame.trans (hm'.mono hin)) ?_
      exact heq.trans (hone.locals c'.array (hne c' hc'))
    obtain ⟨m', hruns, hresults, hsame'⟩ := ih hnodup.2 hrest
    refine ⟨m', .act hact₁ hruns, List.forall_mem_cons.mpr ⟨?_, hresults⟩,
      hsame.trans (hsame'.mono hin)⟩
    have hkept : ¬ IsArray rest c.array := fun ⟨c', hc', heq⟩ => hne c' hc' heq
    exact (hsame'.locals _ hkept).trans hresult

/-- What an assignment of a whole local comes to. -/
theorem act?_assign_var {value : Expr} {d : Datum α} (hd : value.eval m = some d) (y : String) :
    (Stmt.assign (.var y) value).act? m = some (m.set (.var y) d) := by
  rw [Stmt.act?, hd]
  rfl

/-! ## Reading a table -/

/-- The statement that appends a scalar of an element to its array. -/
def appendCell (source index : Expr) (c : Carried) : Stmt :=
  .assign (.item (.var c.array) (.succ (.count (.var c.array))))
    ((Expr.item source index).select c.leaf.fields)

theorem act?_appendCell {source index : Expr} {c : Carried} {e d : Datum α}
    {cells : List (Datum α)} (hmeant : AllMeant c.leaf.fields)
    (hitem : (Expr.item source index).eval m = some e)
    (hd : e.select? c.leaf.fields = some d) (harray : m.locals c.array = array cells) :
    ∃ m', (appendCell source index c).act? m = some m' ∧
      m'.locals c.array = array (cells ++ [d]) ∧ m.SameBut (· = c.array) m' := by
  have hvalue : ((Expr.item source index).select c.leaf.fields).eval m = some d := by
    rw [Expr.eval_select _ hmeant, hitem]
    exact hd
  have hnext : (Expr.succ (.count (.var c.array))).eval m = some (.index (cells.length + 1)) := by
    simp only [Expr.eval, harray, Option.bind_some, count?_filled, Option.map_some]
  have hplace : (Expr.item (.var c.array) (.succ (.count (.var c.array)))).place? m =
      some (.var c.array, [].map .field ++ [.item (cells.length + 1)]) := by
    rw [Expr.place?, hnext]
    rfl
  have hput : d.put [.item (cells.length + 1)] (array cells) = some (array (cells ++ [d])) := by
    rw [array, filled, Datum.put, if_pos (hasRoom_none _), Datum.put, Option.map_some, put_rowsFrom]
    rfl
  have ht : (m.locals c.array).part? [] = some (array cells) := congrArg some harray
  obtain ⟨m', hwrite, hpart, hsame⟩ := Memory.write_part ht hplace hput
  refine ⟨m', ?_, Option.some.inj hpart, hsame⟩
  rw [appendCell, Stmt.act?, hvalue]
  exact hwrite

/-- Every array gets the scalar of the element. -/
theorem runs_appendCells {source index : Expr} {e : Datum α} {cells : Leaf → List (Datum α)}
    (hnodup : (columns.map Carried.array).Nodup) (hmeant : CellsMeant columns)
    (hitem : ∀ m', m.SameBut (IsArray columns) m' → (Expr.item source index).eval m' = some e)
    (hleaves : HasLeaves (columns.map Carried.leaf) e) (harrays : Holding m columns cells) :
    ∃ m', Runs (columns.map (appendCell source index)) m .onward m' ∧
      Holding m' columns (fun l => cells l ++ [l.value e]) ∧ m.SameBut (IsArray columns) m' :=
  runs_each hnodup fun c hc m' hsame heq => act?_appendCell (hmeant c hc) (hitem m' hsame)
    (hleaves.select?_eq (List.mem_map_of_mem hc)) (heq.trans (harrays c hc))

/-- What stands in a loop that reads a table. -/
def readRound (source index : Expr) (capacity : Nat) (driver : Carried) (columns : List Carried) :
    List Stmt :=
  .exitWhenFull (.var driver.array) capacity :: columns.map (appendCell source index) ++
    [.assign index (.next source index)]

/-- The statements that go through a table from its first row on. -/
def readRows (source index : Expr) (capacity : Nat) (driver : Carried) (columns : List Carried) :
    List Stmt :=
  [.assign index (.first source),
    .whileSet index (readRound source index capacity driver columns)]

/-- A table has the given rows, by their indices. One that is nested may be null, and has none. -/
inductive TableOf (nested : Bool) : Datum α → List (Int × Datum α) → Prop where
  | null : nested = true → TableOf nested .null []
  | rows {room blank stored} : Assoc.Keyed stored →
      TableOf nested (.table room blank stored) (ascending stored)

section Reading

variable {driver : Carried} {room : Option Nat} {stored rows : List (Int × Datum α)}
  {blank : Datum α} {capacity : Nat}

/-- The driver counts the rows that were read. -/
theorem count_driver {before : List (Int × Datum α)} (hdriver : driver ∈ columns)
    (harrays : Holding m columns fun l => before.map fun r => l.value r.2) :
    ((Expr.var driver.array).eval m).bind Datum.count? = some before.length := by
  rw [Expr.eval, harrays driver hdriver, Option.bind_some, count?_filled, List.length_map]

/-- A round of the loop that reads a table: the arrays get the scalars of a row, and the index goes
to the next. -/
theorem runs_readRound {before after : List (Int × Datum α)} {k : Int} {e : Datum α}
    (hdriver : driver ∈ columns) (hlocals : LocalsApart columns x i) (hmeant : CellsMeant columns)
    (hperm : stored.Perm (before ++ (k, e) :: after))
    (hordered : Ordered (before ++ (k, e) :: after))
    (hleaves : HasLeaves (columns.map Carried.leaf) e) (hlt : before.length < capacity)
    (hsource : ((Expr.var x).select fs).eval m = some (.table room blank stored))
    (hindex : m.locals i = .index k)
    (harrays : Holding m columns fun l => before.map fun r => l.value r.2) :
    ∃ m', Runs (readRound ((Expr.var x).select fs) (.var i) capacity driver columns) m .onward m' ∧
      ((Expr.var x).select fs).eval m' = some (.table room blank stored) ∧
      m'.locals i = headIndex after ∧
      Holding m' columns (fun l => (before ++ [(k, e)]).map fun r => l.value r.2) ∧
      m.SameBut (fun y => IsArray columns y ∨ y = i) m' := by
  -- While the arrays are filled, the table and the index stay as they are.
  have hstays : ∀ {m'}, m.SameBut (IsArray columns) m' →
      ((Expr.var x).select fs).eval m' = some (.table room blank stored) ∧
        (Expr.var i).eval m' = some (.index k) := fun hsame =>
    ⟨(hsame.eval_select hlocals.place fs).trans hsource,
      congrArg some ((hsame.locals i hlocals.index).trans hindex)⟩
  have hitem : ∀ m', m.SameBut (IsArray columns) m' →
      (Expr.item ((Expr.var x).select fs) (.var i)).eval m' = some e := by
    intro m' hsame
    rw [Expr.eval, (hstays hsame).1, (hstays hsame).2]
    exact item?_table hperm hordered
  obtain ⟨m₁, hruns, harrays₁, hsame₁⟩ :=
    runs_appendCells hlocals.nodup hmeant hitem hleaves harrays
  obtain ⟨hsource₁, hindex₁⟩ := hstays hsame₁
  have hnext : (Expr.next ((Expr.var x).select fs) (.var i)).eval m₁ = some (headIndex after) := by
    rw [Expr.eval, hsource₁, hindex₁]
    exact next?_table hperm hordered
  have hsame₂ := m₁.sameBut_set i (headIndex after)
  refine ⟨m₁.set (.var i) (headIndex after), ?_, (hsame₂.eval_select hlocals.ne fs).trans hsource₁,
    m₁.locals_set_self i _, fun c hc => ?_, ?_⟩
  · refine .stay (count_driver hdriver harrays) hlt (hruns.append rfl ?_)
    exact .act (act?_assign_var hnext i) .nil
  · have hkept := hsame₂.locals c.array fun heq => hlocals.index ⟨c, hc, heq⟩
    refine hkept.trans ((harrays₁ c hc).trans ?_)
    simp
  · exact (hsame₁.mono fun y => Or.inl).trans (hsame₂.mono fun y => Or.inr)

/-- **The loop that reads a table**, once the rows `before` were read. It ends when no rows are left
or the arrays are full. -/
theorem runs_readRounds (hdriver : driver ∈ columns) (hlocals : LocalsApart columns x i)
    (hmeant : CellsMeant columns) (hperm : stored.Perm rows) (hordered : Ordered rows)
    (hleaves : ∀ r ∈ rows, HasLeaves (columns.map Carried.leaf) r.2) :
    ∀ {after before : List (Int × Datum α)} {m : Memory α}, rows = before ++ after →
      before.length ≤ capacity →
      ((Expr.var x).select fs).eval m = some (.table room blank stored) →
      m.locals i = headIndex after →
      Holding m columns (fun l => before.map fun r => l.value r.2) →
      ∃ m', Runs [.whileSet (.var i)
          (readRound ((Expr.var x).select fs) (.var i) capacity driver columns)] m .onward m' ∧
        Holding m' columns (fun l => (rows.take capacity).map fun r => l.value r.2) ∧
        m.SameBut (fun y => IsArray columns y ∨ y = i) m' := by
  intro after
  induction after with
  | nil =>
    intro before m hrows hle hsource hindex harrays
    rw [List.append_nil] at hrows
    refine ⟨m, .done (congrArg some hindex) .nil, ?_, .refl m⟩
    rwa [hrows, List.take_of_length_le hle]
  | cons r after ih =>
    obtain ⟨k, e⟩ := r
    intro before m hrows hle hsource hindex harrays
    have hset : (Expr.var i).eval m = some (.index k) := congrArg some hindex
    by_cases hfull : capacity ≤ before.length
    · -- The arrays are full, and the loop is left.
      have htake : rows.take capacity = before := by
        rw [hrows, List.take_left' (le_antisymm hle hfull)]
      refine ⟨m, .broken hset (by simp) (.leave (count_driver hdriver harrays) hfull) .nil, ?_,
        .refl m⟩
      rwa [htake]
    · obtain ⟨m₁, hround, hsource₁, hindex₁, harrays₁, hsame₁⟩ :=
        runs_readRound hdriver hlocals hmeant (hrows ▸ hperm) (hrows ▸ hordered)
          (hleaves (k, e) (by simp [hrows])) (not_le.mp hfull) hsource hindex harrays
      obtain ⟨m', hloop, hheld, hsame'⟩ :=
        ih (by simp [hrows]) (by simp; omega) hsource₁ hindex₁ harrays₁
      exact ⟨m', .again hset (by simp) hround hloop, hheld, hsame₁.trans hsame'⟩

/-- Arrays are emptied before a table is read into them. -/
theorem runs_deletes (hnodup : (columns.map Carried.array).Nodup)
    (harrays : ∀ c ∈ columns, ∃ rows, m.locals c.array = .table none .null rows) :
    ∃ m', Runs (columns.map fun c => Stmt.delete (.var c.array)) m .onward m' ∧
      Holding m' columns (fun _ => []) ∧ m.SameBut (IsArray columns) m' := by
  refine runs_each hnodup fun c hc m' _ heq => ?_
  obtain ⟨rows, hrows⟩ := harrays c hc
  refine ⟨m'.set (.var c.array) (array []), ?_, m'.locals_set_self _ _, m'.sameBut_set _ _⟩
  rw [Stmt.act?, Expr.eval, heq, hrows]
  rfl

/-- The arrays are put into the placeholders at the end. -/
theorem runs_marks (hnodup : (columns.map Carried.position).Nodup) (m : Memory α) :
    ∃ m', Runs (columns.map fun c => Stmt.assign (.placeholder c.position) (.var c.array)) m .onward
        m' ∧ m'.locals = m.locals ∧ (∀ c ∈ columns, m'.marks c.position = m.locals c.array) ∧
      ∀ p ∉ columns.map Carried.position, m'.marks p = m.marks p := by
  induction columns generalizing m with
  | nil => exact ⟨m, .nil, rfl, fun c hc => absurd hc List.not_mem_nil, fun _ _ => rfl⟩
  | cons c rest ih =>
    rw [List.map_cons, List.nodup_cons] at hnodup
    obtain ⟨m', hruns, hlocals, hmarks, hothers⟩ :=
      ih hnodup.2 (m.set (.mark c.position) (m.locals c.array))
    have hfirst : (m.set (.mark c.position) (m.locals c.array)).marks c.position =
        m.locals c.array := by simp only [Memory.set, Function.update_self]
    refine ⟨m', .act rfl hruns, hlocals, List.forall_mem_cons.mpr ⟨?_, hmarks⟩, fun p hp => ?_⟩
    · exact (hothers c.position hnodup.1).trans hfirst
    · rw [List.map_cons, List.mem_cons, not_or] at hp
      rw [hothers p hp.2]
      simp only [Memory.set, Function.update_of_ne hp.1]

theorem runs_readRows (hdriver : driver ∈ columns) (hlocals : LocalsApart columns x i)
    (hmeant : CellsMeant columns) (hperm : stored.Perm rows) (hordered : Ordered rows)
    (hleaves : ∀ r ∈ rows, HasLeaves (columns.map Carried.leaf) r.2)
    (hsource : ((Expr.var x).select fs).eval m = some (.table room blank stored))
    (hempty : Holding m columns fun _ => []) :
    ∃ m', Runs (readRows ((Expr.var x).select fs) (.var i) capacity driver columns) m .onward m' ∧
      Holding m' columns (fun l => (rows.take capacity).map fun r => l.value r.2) := by
  have hfirst : (Expr.first ((Expr.var x).select fs)).eval m = some (headIndex rows) := by
    rw [Expr.eval, hsource, Option.bind_some, first?_table hperm hordered]
  have hsame := m.sameBut_set i (headIndex rows)
  have hempty' : Holding (m.set (.var i) (headIndex rows)) columns
      (fun l => ([] : List (Int × Datum α)).map fun r => l.value r.2) := fun c hc =>
    (hsame.locals c.array fun heq => hlocals.index ⟨c, hc, heq⟩).trans (hempty c hc)
  obtain ⟨m', hruns, hheld, -⟩ := runs_readRounds hdriver hlocals hmeant hperm hordered hleaves
    (List.nil_append rows).symm (Nat.zero_le capacity)
    ((hsame.eval_select hlocals.ne fs).trans hsource) (m.locals_set_self i _) hempty'
  exact ⟨m', .act (act?_assign_var hfirst i) hruns, hheld⟩

variable (capacity) in
/-- **Reading a table**: the arrays get the scalars of the first rows, up to a capacity, without
gaps. -/
theorem runs_copyOut {nested : Bool} {v : Datum α} (hlocals : LocalsApart columns x i)
    (hmeant : CellsMeant columns)
    (hpositions : (columns.map Carried.position).Nodup)
    (hsource : ((Expr.var x).select fs).eval m = some v) (hv : TableOf nested v rows)
    (hleaves : ∀ r ∈ rows, HasLeaves (columns.map Carried.leaf) r.2)
    (harrays : ∀ c ∈ columns, ∃ rows, m.locals c.array = .table none .null rows) :
    ∃ m', Runs (copyOut ((Expr.var x).select fs) (.var i) nested capacity columns) m .onward m' ∧
      Holding m' columns (fun l => (rows.take capacity).map fun r => l.value r.2) ∧
      ∀ c ∈ columns, m'.marks c.position = m'.locals c.array := by
  cases columns with
  | nil =>
    exact ⟨m, .nil, fun c hc => absurd hc List.not_mem_nil, fun c hc => absurd hc List.not_mem_nil⟩
  | cons driver rest =>
    obtain ⟨m₁, hdeletes, hempty, hsame⟩ := runs_deletes hlocals.nodup harrays
    have hsource₁ := (hsame.eval_select hlocals.place fs).trans hsource
    -- Between emptying the arrays and putting them into the placeholders.
    have hcopy : ∃ m₂, Runs
          (if nested then [.ifSet ((Expr.var x).select fs)
            (readRows ((Expr.var x).select fs) (.var i) capacity driver (driver :: rest))]
          else readRows ((Expr.var x).select fs) (.var i) capacity driver (driver :: rest)) m₁
          .onward m₂ ∧
        Holding m₂ (driver :: rest) (fun l => (rows.take capacity).map fun r => l.value r.2) := by
      cases hv with
      | null hnested =>
        subst hnested
        refine ⟨m₁, .skip hsource₁ .nil, ?_⟩
        simpa using hempty
      | rows hkeyed =>
        obtain ⟨m₂, hruns, hheld⟩ := runs_readRows List.mem_cons_self hlocals hmeant
          (perm_ascending _) (ordered_ascending hkeyed) hleaves hsource₁ hempty
        cases nested with
        | false => exact ⟨m₂, hruns, hheld⟩
        | true =>
          refine ⟨m₂, .enter hsource₁ (by simp) ?_, hheld⟩
          rwa [List.append_nil]
    obtain ⟨m₂, hruns, hheld⟩ := hcopy
    obtain ⟨m', hmarks, hlocals', hmarked, -⟩ := runs_marks hpositions m₂
    refine ⟨m', (hdeletes.append rfl hruns).append rfl hmarks, ?_, ?_⟩
    · intro c hc
      rw [hlocals']
      exact hheld c hc
    · intro c hc
      rw [hlocals']
      exact hmarked c hc

end Reading

/-! ## Filling a table -/

/-- The statement that assigns a scalar of an element from its array. -/
def assignCell (elem index : Expr) (c : Carried) : Stmt :=
  .assign (elem.select c.leaf.fields) (.item (.var c.array) index)

/-- The index of the row that is filled: a nested table is extended, and the row is its last one. -/
def rowKey (target index : Expr) (nestedType : Option String) : Expr :=
  match nestedType with
  | some _ => .last target
  | none => index

/-- The room of a table with a number of rows. -/
def roomFor (nested : Bool) (n : Nat) : Option Nat :=
  match nested with
  | true => some n
  | false => none

section Filling

variable {nestedType : Option String} {es : List (Datum α)} {blank cur : Datum α}
  {room : Option Nat}

/-- Once the last row is there, its key is known. -/
theorem eval_rowKey {place : Expr} (hplace : place.eval m = some (filled room blank (es ++ [cur])))
    (hi : m.locals i = .index (es.length + 1)) :
    (rowKey place (.var i) nestedType).eval m = some (.index (es.length + 1)) := by
  cases nestedType with
  | none => exact congrArg some hi
  | some _ => rw [rowKey, Expr.eval, hplace, Option.bind_some, last?_filled]

/-- A row is under way: it holds `cur`, or is still missing and `cur` is new. -/
def UnderWay (x : String) (fs : List String) (room : Option Nat) (blank : Datum α)
    (es : List (Datum α)) (cur : Datum α) (m : Memory α) : Prop :=
  ∃ rows, (m.locals x).part? fs = some (.table room blank rows) ∧
    (Assoc.get? (es.length + 1 : Int) rows).getD blank = cur ∧
    ∀ e, Assoc.put (es.length + 1 : Int) e rows = rowsFrom 1 (es ++ [e])

theorem underWay_filled (h : (m.locals x).part? fs = some (filled room blank es)) :
    UnderWay x fs room blank es blank m := by
  refine ⟨_, h, ?_, put_rowsFrom es⟩
  rw [add_comm, get?_rowsFrom, List.getElem?_eq_none le_rfl]
  rfl

theorem underWay_last (h : (m.locals x).part? fs = some (filled room blank (es ++ [cur]))) :
    UnderWay x fs room blank es cur m := by
  refine ⟨_, h, ?_, put_rowsFrom_last es cur⟩
  rw [add_comm, get?_rowsFrom, List.getElem?_concat_length]
  rfl

/-- Where a scalar of the row stands. -/
theorem place?_cell {key : Expr} {n : Int} (hfs : AllMeant fs)
    (hkey : key.eval m = some (.index n)) (fields : List String) :
    ((Expr.item ((Expr.var x).select fs) key).select fields).place? m =
      (accesses? fields).map fun steps => (.var x, fs.map .field ++ .item n :: steps) := by
  rw [Expr.place?_select, Expr.place?, hkey]
  simp [Memory.place?_var_select m x hfs]

/-- Assigning one scalar of the row. -/
theorem act?_assignCell {c : Carried} {d y : Datum α} {key : Expr} (hfs : AllMeant fs)
    (hmeant : AllMeant c.leaf.fields) (h : UnderWay x fs room blank es cur m)
    (hkey : key.eval m = some (.index (es.length + 1))) (hroom : hasRoom room (es.length + 1))
    (hopen : cur.part? c.leaf.fields = some y)
    (hcell : (Expr.item (.var c.array) (.var i)).eval m = some d) :
    ∃ m' cur', (assignCell (.item ((Expr.var x).select fs) key) (.var i) c).act? m = some m' ∧
      (m'.locals x).part? fs = some (filled room blank (es ++ [cur'])) ∧
      cur'.part? c.leaf.fields = some d ∧
      (∀ others, FieldsApart others c.leaf.fields → cur'.part? others = cur.part? others) ∧
      m.SameBut (· = x) m' := by
  obtain ⟨rows, hplace, hcur, hput⟩ := h
  obtain ⟨cur', hput', hpart, hothers⟩ :=
    Datum.put_fields hopen (show d.put [] y = some d from rfl)
  rw [List.append_nil] at hput'
  have hrow : d.put (.item (es.length + 1) :: c.leaf.fields.map .field) (.table room blank rows) =
      some (filled room blank (es ++ [cur'])) := by
    rw [Datum.put, if_pos hroom, hcur, hput', Option.map_some, hput, filled]
  have htarget := place?_cell (x := x) hfs hkey c.leaf.fields
  rw [accesses?_of_meant hmeant, Option.map_some] at htarget
  obtain ⟨m', hwrite, hpart', hsame⟩ := Memory.write_part hplace htarget hrow
  refine ⟨m', cur', ?_, hpart', hpart, hothers, hsame⟩
  rw [assignCell, Stmt.act?, hcell]
  exact hwrite

/-- A scalar that the row does not take is an exception. -/
theorem act?_assignCell_eq_none {c : Carried} {d : Datum α} {key : Expr} (hfs : AllMeant fs)
    (h : UnderWay x fs room blank es cur m) (hkey : key.eval m = some (.index (es.length + 1)))
    (hrefused : ∀ steps ∈ accesses? c.leaf.fields, d.put steps cur = none)
    (hcell : (Expr.item (.var c.array) (.var i)).eval m = some d) :
    (assignCell (.item ((Expr.var x).select fs) key) (.var i) c).act? m = none := by
  obtain ⟨rows, hplace, hcur, -⟩ := h
  have htarget := place?_cell (x := x) hfs hkey c.leaf.fields
  rw [assignCell, Stmt.act?, hcell, Option.bind_some]
  cases hsteps : accesses? c.leaf.fields with
  | none =>
    rw [hsteps, Option.map_none] at htarget
    rw [Memory.write, htarget]
    rfl
  | some steps =>
    rw [hsteps, Option.map_some] at htarget
    refine Memory.write_eq_none hplace htarget ?_
    rw [Datum.put, hcur, hrefused steps hsteps]
    simp

theorem eval_item_var {a : String} {n : Int} {d : Datum α} (hitem : (m.locals a).item? n = some d)
    (hi : m.locals i = .index n) : (Expr.item (.var a) (.var i)).eval m = some d := by
  rw [Expr.eval, Expr.eval, Expr.eval, hi]
  exact hitem

/-- Scalars of a row that can be assigned without an effect on each other. -/
def CellsApart (columns : List Carried) : Prop :=
  columns.Pairwise fun c c' => FieldsApart c.leaf.fields c'.leaf.fields

/-- A row has a place for every scalar. -/
def HasCells (columns : List Carried) (e : Datum α) : Prop :=
  ∀ c ∈ columns, ∃ y, e.part? c.leaf.fields = some y

/-- Assigning all scalars of a row, one after the other. -/
theorem runs_assignCells {c : Carried} {rest : List Carried} {cell : Leaf → Datum α}
    (hx : ¬ IsArray (c :: rest) x) (hxi : x ≠ i) (hfs : AllMeant fs)
    (hmeant : CellsMeant (c :: rest)) (hapart : CellsApart (c :: rest))
    (hroom : hasRoom room (es.length + 1)) (h : UnderWay x fs room blank es cur m)
    (hkey : (rowKey ((Expr.var x).select fs) (.var i) nestedType).eval m =
      some (.index (es.length + 1)))
    (hi : m.locals i = .index (es.length + 1)) (hopen : HasCells (c :: rest) cur)
    (hcells : ∀ c' ∈ c :: rest, (m.locals c'.array).item? (es.length + 1) = some (cell c'.leaf)) :
    ∃ m' e, Runs ((c :: rest).map (assignCell
        (.item ((Expr.var x).select fs) (rowKey ((Expr.var x).select fs) (.var i) nestedType))
        (.var i))) m .onward m' ∧
      (m'.locals x).part? fs = some (filled room blank (es ++ [e])) ∧
      (∀ c' ∈ c :: rest, e.part? c'.leaf.fields = some (cell c'.leaf)) ∧
      (∀ others, (∀ c' ∈ c :: rest, FieldsApart others c'.leaf.fields) →
        e.part? others = cur.part? others) ∧ m.SameBut (· = x) m' := by
  induction rest generalizing c m cur with
  | nil =>
    obtain ⟨y, hy⟩ := hopen c List.mem_cons_self
    obtain ⟨m', e, hact, hplace, hpart, hothers, hsame⟩ := act?_assignCell hfs
      (hmeant c List.mem_cons_self) h hkey hroom hy
      (eval_item_var (hcells c List.mem_cons_self) hi)
    refine ⟨m', e, .act hact .nil, hplace, ?_, fun others hall => ?_, hsame⟩
    · exact List.forall_mem_singleton.mpr hpart
    · exact hothers others (hall c List.mem_cons_self)
  | cons d rest ih =>
    obtain ⟨hfirst, hrest⟩ := List.pairwise_cons.mp hapart
    obtain ⟨y, hy⟩ := hopen c List.mem_cons_self
    obtain ⟨m₁, cur₁, hact, hplace₁, hpart, hothers, hsame⟩ := act?_assignCell hfs
      (hmeant c List.mem_cons_self) h hkey hroom hy
      (eval_item_var (hcells c List.mem_cons_self) hi)
    have hne : ∀ c' ∈ d :: rest, c'.array ≠ x := fun c' hc' heq =>
      hx ⟨c', List.mem_cons_of_mem c hc', heq⟩
    have hi₁ := (hsame.locals i hxi.symm).trans hi
    obtain ⟨m', e, hruns, hplace', hparts, hothers', hsame'⟩ := ih
      (fun ⟨c', hc', heq⟩ => hne c' hc' heq) (List.forall_mem_cons.mp hmeant).2 hrest
      (underWay_last hplace₁) (eval_rowKey (Memory.eval_of_part hfs hplace₁) hi₁) hi₁
      (fun c' hc' => by
        rw [hothers _ (hfirst c' hc').symm]
        exact hopen c' (List.mem_cons_of_mem c hc'))
      (fun c' hc' => by
        rw [hsame.locals _ (hne c' hc')]
        exact hcells c' (List.mem_cons_of_mem c hc'))
    refine ⟨m', e, .act hact hruns, hplace', List.forall_mem_cons.mpr ⟨?_, hparts⟩, ?_,
      hsame.trans hsame'⟩
    · rw [hothers' _ fun c' hc' => hfirst c' hc']
      exact hpart
    · intro others hall
      obtain ⟨hone, hmore⟩ := List.forall_mem_cons.mp hall
      rw [hothers' others hmore, hothers others hone]

/-- Assigning a whole place. -/
theorem write_place (hfs : AllMeant fs) {t d : Datum α} (ht : (m.locals x).part? fs = some t) :
    ∃ m', m.write ((Expr.var x).select fs) d = some m' ∧ (m'.locals x).part? fs = some d ∧
      m.SameBut (· = x) m' := by
  have hplace := Memory.place?_var_select m x hfs
  rw [← List.append_nil (fs.map _)] at hplace
  exact Memory.write_part ht hplace (show d.put [] t = some d from rfl)

/-- A nested table gets one more row, which is new. -/
theorem act?_extend (hfs : AllMeant fs)
    (h : (m.locals x).part? fs = some (filled (some es.length) blank es)) :
    ∃ m', (Stmt.extend ((Expr.var x).select fs)).act? m = some m' ∧
      (m'.locals x).part? fs = some (filled (some (es.length + 1)) blank (es ++ [blank])) ∧
      m.SameBut (· = x) m' := by
  obtain ⟨m', hwrite, hpart, hsame⟩ :=
    write_place (d := filled (some (es.length + 1)) blank (es ++ [blank])) hfs h
  refine ⟨m', ?_, hpart, hsame⟩
  rw [Stmt.act?, Memory.eval_of_part hfs h]
  simp only [filled] at hwrite ⊢
  rw [← put_rowsFrom] at hwrite
  exact_mod_cast hwrite

/-- The statement that makes room for a row, if there is need. -/
def makeRoom (target : Expr) (nestedType : Option String) : List Stmt :=
  nestedType.toList.map fun _ => .extend target

/-- A row is started: there is room for it, it is new, and its key is known. -/
theorem runs_startRow (hfs : AllMeant fs) (hxi : x ≠ i)
    (hplace : (m.locals x).part? fs =
      some (filled (roomFor nestedType.isSome es.length) blank es))
    (hi : m.locals i = .index (es.length + 1)) :
    ∃ m', Runs (makeRoom ((Expr.var x).select fs) nestedType) m .onward m' ∧
      UnderWay x fs (roomFor nestedType.isSome (es.length + 1)) blank es blank m' ∧
      (rowKey ((Expr.var x).select fs) (.var i) nestedType).eval m' =
        some (.index (es.length + 1)) ∧ m.SameBut (· = x) m' := by
  cases nestedType with
  | some typeName =>
    obtain ⟨m', hextend, hplace', hsame⟩ := act?_extend hfs hplace
    exact ⟨m', .act hextend .nil, underWay_last hplace', eval_rowKey
      (Memory.eval_of_part hfs hplace') ((hsame.locals i hxi.symm).trans hi), hsame⟩
  | none => exact ⟨m, .nil, underWay_filled hplace, congrArg some hi, .refl m⟩

theorem hasRoom_roomFor (nested : Bool) (n : Nat) : hasRoom (roomFor nested (n + 1)) (n + 1) := by
  cases nested <;> simp [hasRoom, roomFor]

/-- A table gets a row with the values of the arrays. -/
theorem runs_fillRow {driver : Carried} {rest : List Carried} (cell : Leaf → Datum α)
    (hlocals : LocalsApart (driver :: rest) x i) (hfs : AllMeant fs)
    (hmeant : CellsMeant (driver :: rest)) (hapart : CellsApart (driver :: rest))
    (hblank : HasCells (driver :: rest) blank)
    (hplace : (m.locals x).part? fs =
      some (filled (roomFor nestedType.isSome es.length) blank es))
    (hi : m.locals i = .index (es.length + 1))
    (hcells : ∀ c ∈ driver :: rest,
      (m.locals c.array).item? (es.length + 1) = some (cell c.leaf)) :
    ∃ m' e, Runs (makeRoom ((Expr.var x).select fs) nestedType ++
        (driver :: rest).map (assignCell
          (.item ((Expr.var x).select fs) (rowKey ((Expr.var x).select fs) (.var i) nestedType))
          (.var i))) m .onward m' ∧
      (m'.locals x).part? fs =
        some (filled (roomFor nestedType.isSome (es.length + 1)) blank (es ++ [e])) ∧
      (∀ c ∈ driver :: rest, e.part? c.leaf.fields = some (cell c.leaf)) ∧
      m.SameBut (· = x) m' := by
  obtain ⟨m₁, hstart, hunder, hkey, hsame⟩ := runs_startRow hfs hlocals.ne hplace hi
  obtain ⟨m', e, hruns, hplace', hparts, -, hsame'⟩ := runs_assignCells hlocals.place hlocals.ne
    hfs hmeant hapart (hasRoom_roomFor _ _) hunder hkey
    ((hsame.locals i hlocals.ne.symm).trans hi) hblank fun c hc => by
      rw [hsame.locals _ fun heq => hlocals.place ⟨c, hc, heq⟩]
      exact hcells c hc
  exact ⟨m', e, hstart.append rfl hruns, hplace', hparts, hsame.trans hsame'⟩

/-- What stands in a loop that fills a table. -/
def fillRound (target index : Expr) (nestedType : Option String) (driver : Carried)
    (columns : List Carried) : List Stmt :=
  makeRoom target nestedType ++
      columns.map (assignCell (.item target (rowKey target index nestedType)) index) ++
    [.assign index (.next (.var driver.array) index)]

/-- What stands before the loop. -/
def fillStart (target index : Expr) (nestedType : Option String) (driver : Carried)
    (columns : List Carried) : List Stmt :=
  columns.map (fun c => Stmt.assign (.var c.array) (.placeholder c.position)) ++
      nestedType.toList.map (fun typeName => Stmt.assign target (.construct typeName)) ++
    [.assign index (.first (.var driver.array))]

theorem copyIn_cons (target index : Expr) (nestedType : Option String) (driver : Carried)
    (rest : List Carried) : copyIn target index nestedType (driver :: rest) =
      fillStart target index nestedType driver (driver :: rest) ++
        [.whileSet index (fillRound target index nestedType driver (driver :: rest))] := by
  cases nestedType <;> simp [copyIn, fillStart, fillRound, makeRoom, rowKey, assignCell]

/-- The table has rows for the first values of the arrays. -/
structure Rowed (columns : List Carried) (x : String) (fs : List String) (nested : Bool)
    (blank : Datum α) (cells : Leaf → List (Datum α)) (es : List (Datum α)) (m : Memory α) :
    Prop where
  place : (m.locals x).part? fs = some (filled (roomFor nested es.length) blank es)
  rows : ∀ c ∈ columns, es.map (fun e => e.part? c.leaf.fields) =
    ((cells c.leaf).take es.length).map some

section Rounds

variable {driver : Carried} {rest : List Carried} {cells : Leaf → List (Datum α)} {count : Nat}

theorem item?_of_holding (hcount : ∀ c ∈ columns, (cells c.leaf).length = count)
    (harrays : Holding m columns cells) {j : Nat} (hj : j < count) {c : Carried}
    (hc : c ∈ columns) :
    (m.locals c.array).item? (j + 1) = some (((cells c.leaf)[j]?).getD .null) := by
  have hlt : j < (cells c.leaf).length := by
    rw [hcount c hc]
    exact hj
  rw [harrays c hc, item?_filled, List.getElem?_eq_getElem hlt]
  rfl

/-- A round of the loop that fills a table: the table gets a row with the next values of the arrays,
and the index goes to the next place of the driver. -/
theorem runs_fillRound (hlocals : LocalsApart (driver :: rest) x i) (hfs : AllMeant fs)
    (hmeant : CellsMeant (driver :: rest)) (hapart : CellsApart (driver :: rest))
    (hblank : HasCells (driver :: rest) blank)
    (hcount : ∀ c ∈ driver :: rest, (cells c.leaf).length = count)
    (hrowed : Rowed (driver :: rest) x fs nestedType.isSome blank cells es m)
    (hlt : es.length < count) (hi : m.locals i = .index (es.length + 1))
    (harrays : Holding m (driver :: rest) cells) :
    ∃ m' e, Runs (fillRound ((Expr.var x).select fs) (.var i) nestedType driver (driver :: rest)) m
        .onward m' ∧
      Rowed (driver :: rest) x fs nestedType.isSome blank cells (es ++ [e]) m' ∧
      m'.locals i = indexAfter count (es ++ [e]).length ∧ Holding m' (driver :: rest) cells := by
  obtain ⟨m₁, e, hruns, hplace, hparts, hsame⟩ :=
    runs_fillRow (fun l => ((cells l)[es.length]?).getD .null) hlocals hfs hmeant hapart hblank
      hrowed.place hi fun c hc => item?_of_holding hcount harrays hlt hc
  have harrays₁ : Holding m₁ (driver :: rest) cells := fun c hc =>
    (hsame.locals _ fun heq => hlocals.place ⟨c, hc, heq⟩).trans (harrays c hc)
  have hleft : ∀ c ∈ driver :: rest, es.length < (cells c.leaf).length := fun c hc => by
    rwa [hcount c hc]
  have hnext : (Expr.next (.var driver.array) (.var i)).eval m₁ =
      some (indexAfter count (es.length + 1)) := by
    rw [Expr.eval, Expr.eval, Expr.eval, harrays₁ driver List.mem_cons_self,
      hsame.locals i hlocals.ne.symm, hi]
    show (array (cells driver.leaf)).next? (es.length + 1) = _
    rw [next?_filled none .null (hleft driver List.mem_cons_self),
      hcount driver List.mem_cons_self]
  have hsame₂ := m₁.sameBut_set i (indexAfter count (es.length + 1))
  have hlength : (es ++ [e]).length = es.length + 1 := List.length_append
  refine ⟨m₁.set (.var i) (indexAfter count (es.length + 1)), e,
    hruns.append rfl (.act (act?_assign_var hnext i) .nil), ⟨?_, fun c hc => ?_⟩, ?_,
    fun c hc => ?_⟩
  · rw [hsame₂.locals x hlocals.ne, hlength]
    exact hplace
  · rw [hlength, List.take_add_one, List.map_append, List.map_append, hrowed.rows c hc,
      List.map_singleton, hparts c hc, List.getElem?_eq_getElem (hleft c hc)]
    rfl
  · rw [hlength]
    exact m₁.locals_set_self i _
  · exact (hsame₂.locals _ fun heq => hlocals.index ⟨c, hc, heq⟩).trans (harrays₁ c hc)

/-- **The loop that fills a table**, once it has rows for the first values. It ends when the arrays
do. -/
theorem runs_fillRounds (hlocals : LocalsApart (driver :: rest) x i) (hfs : AllMeant fs)
    (hmeant : CellsMeant (driver :: rest)) (hapart : CellsApart (driver :: rest))
    (hblank : HasCells (driver :: rest) blank)
    (hcount : ∀ c ∈ driver :: rest, (cells c.leaf).length = count) :
    ∀ {left : Nat} {es : List (Datum α)} {m : Memory α}, es.length + left = count →
      Rowed (driver :: rest) x fs nestedType.isSome blank cells es m →
      m.locals i = indexAfter count es.length → Holding m (driver :: rest) cells →
      ∃ m' es', Runs [.whileSet (.var i)
          (fillRound ((Expr.var x).select fs) (.var i) nestedType driver (driver :: rest))] m
          .onward m' ∧ es'.length = count ∧
        Rowed (driver :: rest) x fs nestedType.isSome blank cells es' m' := by
  intro left
  induction left with
  | zero =>
    intro es m hlen hrowed hindex harrays
    rw [Nat.add_zero] at hlen
    have hdone : m.locals i = .null := by rw [hindex, indexAfter, if_neg (by omega)]
    exact ⟨m, es, .done (congrArg some hdone) .nil, hlen, hrowed⟩
  | succ left ih =>
    intro es m hlen hrowed hindex harrays
    have hi : m.locals i = .index (es.length + 1) := by
      rw [hindex, indexAfter, if_pos (by omega)]
    obtain ⟨m₁, e, hround, hrowed₁, hindex₁, harrays₁⟩ :=
      runs_fillRound hlocals hfs hmeant hapart hblank hcount hrowed (by omega) hi harrays
    obtain ⟨m', es', hloop, hlen', hrowed'⟩ :=
      ih (by rw [List.length_append, List.length_singleton]; omega) hrowed₁ hindex₁ harrays₁
    exact ⟨m', es', .again (congrArg some hi) (by simp) hround hloop, hlen', hrowed'⟩

/-- The arrays are loaded from the placeholders first. -/
theorem runs_loads (hnodup : (columns.map Carried.array).Nodup)
    (hmarks : ∀ c ∈ columns, m.marks c.position = array (cells c.leaf)) :
    ∃ m', Runs (columns.map fun c => Stmt.assign (.var c.array) (.placeholder c.position)) m .onward
        m' ∧ Holding m' columns cells ∧ m.SameBut (IsArray columns) m' := by
  refine runs_each hnodup fun c hc m' hsame _ => ?_
  refine ⟨_, act?_assign_var rfl c.array, ?_, m'.sameBut_set _ _⟩
  rw [Memory.locals_set_self, hsame.marks]
  exact hmarks c hc

/-- What a table must be before it is filled, so that its new rows are `blank`: a nested one is made
anew, any other is empty, as it is in a local that was just declared. -/
def Fillable (m : Memory α) (nested : Bool) (typeName : Option String) (blank t : Datum α) : Prop :=
  if nested then ∀ name ∈ typeName, m.fresh name = blank else t = filled none blank []

/-- A nested table is made anew; after that the table has no rows. -/
theorem runs_make (hfs : AllMeant fs) {t : Datum α} (ht : (m.locals x).part? fs = some t)
    (hfillable : Fillable m nestedType.isSome nestedType blank t) :
    ∃ m', Runs (nestedType.toList.map fun typeName =>
          Stmt.assign ((Expr.var x).select fs) (.construct typeName)) m .onward m' ∧
      (m'.locals x).part? fs = some (filled (roomFor nestedType.isSome 0) blank []) ∧
      m.SameBut (· = x) m' := by
  cases nestedType with
  | none => exact ⟨m, .nil, hfillable ▸ ht, .refl m⟩
  | some typeName =>
    obtain ⟨m', hwrite, hpart, hsame⟩ :=
      write_place (d := filled (some 0) (m.fresh typeName) []) hfs ht
    exact ⟨m', .act hwrite .nil, hfillable typeName rfl ▸ hpart, hsame⟩

/-- Before the loop, the arrays are loaded, the table has no rows, and the index is that of the
first place of the arrays. -/
theorem runs_fillStart {t : Datum α} (hlocals : LocalsApart (driver :: rest) x i)
    (hfs : AllMeant fs)
    (hmarks : ∀ c ∈ driver :: rest, m.marks c.position = array (cells c.leaf))
    (hcount : ∀ c ∈ driver :: rest, (cells c.leaf).length = count)
    (ht : (m.locals x).part? fs = some t)
    (hfillable : Fillable m nestedType.isSome nestedType blank t) :
    ∃ m', Runs (fillStart ((Expr.var x).select fs) (.var i) nestedType driver (driver :: rest)) m
        .onward m' ∧ Rowed (driver :: rest) x fs nestedType.isSome blank cells [] m' ∧
      m'.locals i = indexAfter count 0 ∧ Holding m' (driver :: rest) cells := by
  obtain ⟨m₁, hloads, harrays₁, hsame₁⟩ := runs_loads hlocals.nodup hmarks
  have hfillable₁ : Fillable m₁ nestedType.isSome nestedType blank t := by
    unfold Fillable
    rwa [hsame₁.fresh]
  obtain ⟨m₂, hmakes, hplace₂, hsame₂⟩ :=
    runs_make hfs (hsame₁.locals x hlocals.place ▸ ht) hfillable₁
  have harrays₂ : Holding m₂ (driver :: rest) cells := fun c hc =>
    (hsame₂.locals _ fun heq => hlocals.place ⟨c, hc, heq⟩).trans (harrays₁ c hc)
  have hfirst : (Expr.first (.var driver.array)).eval m₂ = some (indexAfter count 0) := by
    rw [Expr.eval, Expr.eval, harrays₂ driver List.mem_cons_self, Option.bind_some, first?_filled,
      hcount driver List.mem_cons_self]
  have hsame₃ := m₂.sameBut_set i (indexAfter count 0)
  refine ⟨_, (hloads.append rfl hmakes).append rfl (.act (act?_assign_var hfirst i) .nil),
    ⟨?_, fun c _ => rfl⟩, m₂.locals_set_self i _, fun c hc => ?_⟩
  · rw [hsame₃.locals x hlocals.ne]
    exact hplace₂
  · exact (hsame₃.locals _ fun heq => hlocals.index ⟨c, hc, heq⟩).trans (harrays₂ c hc)

end Rounds

/-- **Filling a table** from arrays of one length without gaps: it gets a row for each place of the
arrays, without gaps, with their values. -/
theorem runs_copyIn {cells : Leaf → List (Datum α)} {count : Nat} {t : Datum α}
    (hne : columns ≠ []) (hlocals : LocalsApart columns x i) (hfs : AllMeant fs)
    (hmeant : CellsMeant columns) (hapart : CellsApart columns) (hblank : HasCells columns blank)
    (hmarks : ∀ c ∈ columns, m.marks c.position = array (cells c.leaf))
    (hcount : ∀ c ∈ columns, (cells c.leaf).length = count)
    (ht : (m.locals x).part? fs = some t)
    (hfillable : Fillable m nestedType.isSome nestedType blank t) :
    ∃ m' es, Runs (copyIn ((Expr.var x).select fs) (.var i) nestedType columns) m .onward m' ∧
      es.length = count ∧ Rowed columns x fs nestedType.isSome blank cells es m' := by
  cases columns with
  | nil => exact absurd rfl hne
  | cons driver rest =>
    obtain ⟨m₁, hstart, hrowed, hindex, harrays⟩ :=
      runs_fillStart hlocals hfs hmarks hcount ht hfillable
    obtain ⟨m', es, hloop, hlength, hrowed'⟩ := runs_fillRounds hlocals hfs hmeant hapart hblank
      hcount (Nat.zero_add count) hrowed hindex harrays
    refine ⟨m', es, ?_, hlength, hrowed'⟩
    rw [copyIn_cons]
    exact hstart.append rfl hloop

/-- **A table is not filled** if its new rows do not take the first scalar: the assignment is an
exception, and the statements have no run as soon as there is a place in the arrays. -/
theorem not_runs_copyIn {driver : Carried} {rest : List Carried} {cells : Leaf → List (Datum α)}
    {count : Nat} {t : Datum α} (hlocals : LocalsApart (driver :: rest) x i) (hfs : AllMeant fs)
    (hmarks : ∀ c ∈ driver :: rest, m.marks c.position = array (cells c.leaf))
    (hcount : ∀ c ∈ driver :: rest, (cells c.leaf).length = count) (hpos : 0 < count)
    (ht : (m.locals x).part? fs = some t)
    (hfillable : Fillable m nestedType.isSome nestedType blank t)
    (hrefused : ∀ steps ∈ accesses? driver.leaf.fields, ∀ d : Datum α, d.put steps blank = none)
    {f : Flow} :
    ¬ Runs (copyIn ((Expr.var x).select fs) (.var i) nestedType (driver :: rest)) m f m' := by
  rw [copyIn_cons]
  intro hruns
  obtain ⟨m₁, hstart, hrowed, hindex, harrays⟩ :=
    runs_fillStart hlocals hfs hmarks hcount ht hfillable
  have hi : m₁.locals i = .index ((([] : List (Datum α)).length : Int) + 1) := by
    rw [hindex, indexAfter, if_pos hpos]
    rfl
  -- The first round has no run, however it would end.
  have hround : ∀ {g : Flow} {m₂ : Memory α}, ¬ Runs (fillRound ((Expr.var x).select fs) (.var i)
      nestedType driver (driver :: rest)) m₁ g m₂ := by
    intro g m₂ hbody
    obtain ⟨m₃, hrow, hunder, hkey, hsame⟩ := runs_startRow hfs hlocals.ne hrowed.place hi
    rw [fillRound, List.append_assoc] at hbody
    have hcell := item?_of_holding hcount harrays hpos List.mem_cons_self
    rw [← hsame.locals _ fun heq => hlocals.place ⟨driver, List.mem_cons_self, heq⟩] at hcell
    exact Runs.not_assign (act?_assignCell_eq_none hfs hunder hkey
      (fun steps hsteps => hrefused steps hsteps _)
      (eval_item_var hcell ((hsame.locals i hlocals.ne.symm).trans hi))) (hrow.rest hbody)
  cases hstart.rest hruns with
  | act hact => cases hact
  | done hdone => simp [Expr.eval, hi] at hdone
  | again _ _ hbody => exact hround hbody
  | broken _ _ hbody => exact hround hbody

end Filling

end StoredCall
