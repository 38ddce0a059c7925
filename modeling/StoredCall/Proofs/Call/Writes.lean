import StoredCall.Proofs.Value

/-!
# Writes that part

A response is put together by writes, one after the other: single values at paths of fields, and
columns of tables. If the paths of the writes part, none takes away what another one wrote.

* `Write` is one write, `Write.Fits` says that its path is of the right form.
* **`Write.lookup_foldl`**: a value can be read where it was put, whatever else was written.
* **`Write.column_foldl`**: so can a column, with nulls after it up to the longest column of its
  table.
-/

namespace StoredCall

open Value

/-- Paths to columns: those that go through exactly one table. -/
def Path.IsColumn (p : Path) : Prop := p.count .each = 1

theorem Path.IsColumn.exists_split {p : Path} (h : p.IsColumn) :
    ∃ t i : Path, p = t ++ .each :: i ∧ .each ∉ t ∧ .each ∉ i := by
  have hmem : .each ∈ p := List.count_pos_iff.mp (by rw [h]; exact Nat.one_pos)
  cases hs : p.splitEach with
  | none => exact absurd hmem (Path.splitEach_eq_none_iff.mp hs)
  | some parts =>
    obtain ⟨t, i⟩ := parts
    obtain ⟨rfl, ht⟩ := Path.splitEach_eq_some_iff.mp hs
    refine ⟨t, i, rfl, ht, fun hi => ?_⟩
    have hpos := List.count_pos_iff.mpr hi
    unfold Path.IsColumn at h
    rw [List.count_append, List.count_cons_self] at h
    omega

/-- One write into a tree of values. -/
inductive Write where
  | put (path : Path) (v : Value)
  | column (path : Path) (cells : List Value)

namespace Write

/-- Where a write goes. -/
def path : Write → Path
  | .put path _ => path
  | .column path _ => path

/-- The tree after a write. -/
def apply (v : Value) : Write → Value
  | .put path x => v.set path x
  | .column path cells => v.setColumn path cells

/-- Values are put at paths of fields, columns at paths through a table. -/
def Fits : Write → Prop
  | .put path _ => .each ∉ path
  | .column path _ => path.IsColumn

/-- How many elements a write needs in a table. -/
def height (table : Path) : Write → Nat
  | .put .. => 0
  | .column path cells => if path.table = table then cells.length else 0

/-- How many elements writes need in a table. -/
def heights (table : Path) (ws : List Write) : Nat := (ws.map (height table)).foldr max 0

theorem heights_append (table : Path) : ∀ a b : List Write,
    heights table (a ++ b) = max (heights table a) (heights table b)
  | [], b => (Nat.zero_max _).symm
  | w :: a, b => by
    show max (w.height table) (heights table (a ++ b)) = _
    rw [heights_append table a b, ← Nat.max_assoc]
    rfl

variable {v : Value} {w : Write} {ws : List Write} {p : Path} {cs : List Value}

/-! ## One write -/

/-- A write is not seen at a path of fields that parts from it. -/
theorem lookup_apply_of_apart (hw : w.Fits) (hp : .each ∉ p) (h : Path.Apart w.path p) :
    (w.apply v).lookup p = v.lookup p := by
  cases w with
  | put path x => exact lookup_update_of_apart h v
  | column path cells =>
    obtain ⟨t, i, rfl, ht, -⟩ := Path.IsColumn.exists_split hw
    rw [apply, setColumn_eq ht]
    exact lookup_update_of_apart (Path.apart_table hp h) v

/-- In a column that parts from it, a write is seen only by the elements it needs. -/
theorem column_apply_of_apart (hw : w.Fits) (hp : p.IsColumn) (h : Path.Apart w.path p)
    (hc : v.column p = some cs) : (w.apply v).column p = some (pad (w.height p.table) cs) := by
  obtain ⟨t, i, rfl, ht, -⟩ := hp.exists_split
  rw [Path.table_append ht]
  cases w with
  | put path x =>
    have hpart : Path.Apart path t := (Path.apart_table hw h.symm).symm
    rw [height, pad_zero, ← hc]
    exact column_update_of_apart ht hpart v i
  | column path cells =>
    obtain ⟨t', i', rfl, ht', -⟩ := Path.IsColumn.exists_split hw
    rw [height, Path.table_append ht']
    rcases Path.apart_of_columns ht' ht h with hpart | ⟨rfl, hpart⟩
    · rw [if_neg hpart.ne, pad_zero, ← hc, apply, setColumn_eq ht']
      exact column_update_of_apart ht hpart v i
    · rw [if_pos rfl]
      exact column_setColumn_of_inner ht hpart hc cells

/-! ## Writes in a row -/

theorem lookup_foldl_of_apart (hp : .each ∉ p) : ∀ {ws : List Write} {v : Value},
    (∀ w ∈ ws, w.Fits) → (∀ w ∈ ws, Path.Apart w.path p) →
      (ws.foldl apply v).lookup p = v.lookup p
  | [], _, _, _ => rfl
  | w :: ws, v, hf, ha => by
    rw [List.forall_mem_cons] at hf ha
    rw [List.foldl_cons, lookup_foldl_of_apart hp hf.2 ha.2,
      lookup_apply_of_apart hf.1 hp ha.1]

theorem column_foldl_of_apart (hp : p.IsColumn) : ∀ {ws : List Write} {v : Value} {cs : List Value},
    (∀ w ∈ ws, w.Fits) → (∀ w ∈ ws, Path.Apart w.path p) → v.column p = some cs →
      (ws.foldl apply v).column p = some (pad (heights p.table ws) cs)
  | [], _, cs, _, _, hc => by
    rw [heights, List.map_nil, List.foldr_nil, pad_zero]
    exact hc
  | w :: ws, v, cs, hf, ha, hc => by
    rw [List.forall_mem_cons] at hf ha
    rw [List.foldl_cons, column_foldl_of_apart hp hf.2 ha.2
      (column_apply_of_apart hf.1 hp ha.1 hc), pad_pad, Nat.max_comm]
    rfl

/-- Of writes that part, those before and those after a given one part from it. -/
theorem apart_around {a b : List Write}
    (hws : (a ++ w :: b).Pairwise fun u v => Path.Apart u.path v.path) :
    (∀ u ∈ a, Path.Apart u.path w.path) ∧ ∀ u ∈ b, Path.Apart u.path w.path := by
  obtain ⟨-, hb, hab⟩ := List.pairwise_append.mp hws
  exact ⟨fun u hu => hab u hu w List.mem_cons_self,
    fun u hu => ((List.pairwise_cons.mp hb).1 u hu).symm⟩

/-- **A value can be read where it was put**, if all writes part. -/
theorem lookup_foldl (hf : ∀ w ∈ ws, w.Fits)
    (hws : ws.Pairwise fun u v => Path.Apart u.path v.path) {x : Value} (h : .put p x ∈ ws)
    (v : Value) : (ws.foldl apply v).lookup p = some x := by
  obtain ⟨a, b, rfl⟩ := List.append_of_mem h
  have hp : .each ∉ p := hf _ h
  obtain ⟨-, hafter⟩ := apart_around hws
  have hb : ∀ w ∈ b, w.Fits := fun w hw => hf w (by simp [hw])
  rw [List.foldl_append, List.foldl_cons, lookup_foldl_of_apart hp hb hafter]
  exact lookup_set_self hp _ x

/-- **A column can be read where it was written**, with nulls after it up to the longest column of
its table, if all writes part and the table was empty. -/
theorem column_foldl (hf : ∀ w ∈ ws, w.Fits)
    (hws : ws.Pairwise fun u v => Path.Apart u.path v.path) {cells : List Value}
    (h : .column p cells ∈ ws) (hv : v.column p = some []) :
    (ws.foldl apply v).column p = some (pad (heights p.table ws) cells) := by
  obtain ⟨a, b, rfl⟩ := List.append_of_mem h
  have hp : p.IsColumn := hf _ h
  obtain ⟨hbefore, hafter⟩ := apart_around hws
  have ha : ∀ w ∈ a, w.Fits := fun w hw => hf w (by simp [hw])
  have hb : ∀ w ∈ b, w.Fits := fun w hw => hf w (by simp [hw])
  have hpre := column_foldl_of_apart hp ha hbefore hv
  have hown : ((Write.column p cells).apply (a.foldl apply v)).column p =
      some (pad (heights p.table a) cells) := by
    obtain ⟨t, i, rfl, ht, hi⟩ := hp.exists_split
    rw [← append_drop_pad_nil]
    exact column_setColumn_self ht hi hpre cells
  have hheight : heights p.table (a ++ .column p cells :: b) =
      max cells.length (max (heights p.table b) (heights p.table a)) := by
    rw [heights_append]
    show max _ (max (if p.table = p.table then cells.length else 0) (heights p.table b)) = _
    rw [if_pos rfl]
    omega
  rw [List.foldl_append, List.foldl_cons, column_foldl_of_apart hp hb hafter hown, pad_pad, hheight,
    pad_max_length]

end Write

end StoredCall
