import StoredCall.Proofs.Path
import StoredCall.Value

/-!
# Reading what was written

A write at a path can be read back, and is not seen at a path that parts from it. Both hold for
single values and for columns, with one thing to note: a column that is written makes elements where
the table has too few, and another column of the same table then reads as null in these.

* `Value.lookup_update_append`, `Value.lookup_update_of_apart`: the part at a path of fields, seen
  from a place on the way to a change and from a place that parts from it.
* `Value.lookup_set_takeWhile`: a value that was put at a path, whatever its steps.
* `Value.column_setColumn`: the columns of a table that was written to; hence
  `Value.column_setColumn_self` and `Value.column_setColumn_of_inner`.
* `Value.column_update_of_apart`: a column of another table.
-/

namespace StoredCall.Value

variable {p q t i j : Path} {f : Value → Value} {v : Value}

/-! ## Fields -/

theorem lookup_updateField_self (name : String) (f : Value → Value) :
    ∀ fs : List (String × Value),
      (updateField name f fs).lookup name = some (f ((fs.lookup name).getD null))
  | [] => by simp [updateField]
  | (key, w) :: rest => by
    rw [updateField]
    split
    · rename_i hk
      simp [hk]
    · rename_i hk
      have hne : (name == key) = false := beq_eq_false_iff_ne.mpr (Ne.symm hk)
      rw [List.lookup_cons, List.lookup_cons, hne]
      exact lookup_updateField_self name f rest

theorem lookup_updateField_of_ne {name other : String} (h : other ≠ name) (f : Value → Value) :
    ∀ fs : List (String × Value), (updateField name f fs).lookup other = fs.lookup other
  | [] => by simp [updateField, h]
  | (key, w) :: rest => by
    rw [updateField]
    split
    · rename_i hk
      have hne : (other == key) = false := beq_eq_false_iff_ne.mpr (hk ▸ h)
      rw [List.lookup_cons, List.lookup_cons, hne]
    · rw [List.lookup_cons, List.lookup_cons, lookup_updateField_of_ne h f rest]

/-! ## Paths of fields -/

theorem lookup_null (h : p ≠ []) : null.lookup p = none := by
  cases p with
  | nil => exact absurd rfl h
  | cons step rest => cases step <;> rfl

/-- What is below a field that is missing is missing, or null if it is the field itself. -/
theorem lookup_field (v : Value) (name : String) (p : Path) :
    v.lookup (.field name :: p) = (v.get? name).bind fun w => w.lookup p := by
  rw [lookup]
  cases v.get? name <;> rfl

theorem getD_lookup_field (v : Value) (name : String) (p : Path) :
    (v.lookup (.field name :: p)).getD null = (((v.get? name).getD null).lookup p).getD null := by
  rw [lookup_field]
  cases v.get? name with
  | some w => rfl
  | none =>
    cases p with
    | nil => rfl
    | cons step rest => rw [Option.getD_none, lookup_null (List.cons_ne_nil _ _)]; rfl

theorem lookup_of_each_mem : ∀ {p : Path}, .each ∈ p → ∀ v : Value, v.lookup p = none
  | .each :: _, _, _ => rfl
  | .field name :: p, h, v => by
    have hp : .each ∈ p := by simpa using h
    rw [lookup_field]
    cases v.get? name with
    | none => rfl
    | some w => exact lookup_of_each_mem hp w

theorem lookup_append : ∀ (p q : Path) (v : Value),
    v.lookup (p ++ q) = (v.lookup p).bind fun w => w.lookup q
  | [], _, _ => rfl
  | .each :: _, _, _ => rfl
  | .field name :: p, q, v => by
    rw [List.cons_append, lookup_field, lookup_field]
    cases v.get? name with
    | none => rfl
    | some w => exact lookup_append p q w

/-- A change is seen from every place on the way to it. -/
theorem lookup_update_append : ∀ {p : Path} (_ : .each ∉ p) (q : Path) (v : Value),
    (v.update f (p ++ q)).lookup p = some (((v.lookup p).getD null).update f q)
  | [], _, _, _ => rfl
  | .field name :: p, hp, q, v => by
    rw [List.mem_cons, not_or] at hp
    rw [List.cons_append, update, lookup_field, getD_lookup_field]
    show ((updateField name _ v.fields).lookup name).bind _ = _
    rw [lookup_updateField_self, Option.bind_some]
    exact lookup_update_append hp.2 q _
  | .each :: _, hp, _, _ => absurd List.mem_cons_self hp

/-- **A part that was changed reads as changed.** -/
theorem lookup_update_self (hp : .each ∉ p) (v : Value) :
    (v.update f p).lookup p = some (f ((v.lookup p).getD null)) := by
  have h := lookup_update_append (f := f) hp [] v
  rwa [List.append_nil] at h

/-- **A change is not seen at a path that parts from it.** -/
theorem lookup_update_of_apart : ∀ {p q : Path} (_ : Path.Apart p q) (v : Value),
    (v.update f p).lookup q = v.lookup q
  | [], _, h, _ => by simp [Path.Apart] at h
  | .field _ :: _, [], h, _ => by simp [Path.Apart] at h
  | .each :: _, [], h, _ => by simp [Path.Apart] at h
  | .field _ :: _, .each :: _, h, _ => by simp [Path.Apart] at h
  | .each :: _, .field _ :: _, h, _ => by simp [Path.Apart] at h
  | .each :: _, .each :: _, _, _ => rfl
  | .field a :: p, .field b :: q, h, v => by
    rw [update, lookup_field, lookup_field]
    show ((updateField a _ v.fields).lookup b).bind _ = (v.fields.lookup b).bind _
    by_cases hab : b = a
    · subst hab
      have h : Path.Apart p q := by
        rcases h with h | h
        · exact absurd rfl h
        · exact h
      have hq : q ≠ [] := by
        rintro rfl
        cases p with
        | nil => simp [Path.Apart] at h
        | cons step p => cases step <;> simp [Path.Apart] at h
      rw [lookup_updateField_self, Option.bind_some, lookup_update_of_apart h]
      cases v.fields.lookup b with
      | some w => rfl
      | none => exact lookup_null hq
    · rw [lookup_updateField_of_ne hab]

theorem lookup_set_self (hp : .each ∉ p) (v x : Value) : (v.set p x).lookup p = some x :=
  lookup_update_self hp v

/-- A change is made where the path first goes through every element. -/
theorem update_takeWhile_field : ∀ (p : Path) (v : Value),
    v.update f (p.takeWhile (· ≠ .each)) = v.update f p
  | [], _ => rfl
  | .each :: _, _ => rfl
  | .field name :: p, v => by
    have hstep : (Step.field name :: p).takeWhile (· ≠ .each) =
        .field name :: p.takeWhile (· ≠ .each) := List.takeWhile_cons_of_pos (by simp)
    have hrest : update f (p.takeWhile (· ≠ .each)) = update f p :=
      funext (update_takeWhile_field p)
    rw [hstep, update, update, hrest]

/-- **A value that was put at a path is found there**, or where the path first goes through every
element. -/
theorem lookup_set_takeWhile (p : Path) (v x : Value) :
    (v.set p x).lookup (p.takeWhile (· ≠ .each)) = some x := by
  have hfields : .each ∉ p.takeWhile (· ≠ .each) := fun h => by
    simpa using List.mem_takeWhile_imp h
  rw [set, ← update_takeWhile_field]
  exact lookup_set_self hfields v x

/-! ## Elements of a table -/

/-- One part of every element, null where an element lacks it. -/
def cells (inner : Path) (items : List Value) : List Value :=
  items.map fun item => (item.lookup inner).getD null

/-- A column with nulls after it, up to a length. -/
def pad (n : Nat) (cells : List Value) : List Value :=
  cells ++ List.replicate (n - cells.length) null

theorem pad_cons (n : Nat) (c : Value) (cs : List Value) :
    pad (n + 1) (c :: cs) = c :: pad n cs := by
  unfold pad
  rw [List.length_cons, Nat.add_sub_add_right, List.cons_append]

theorem pad_zero (cs : List Value) : pad 0 cs = cs := by
  unfold pad
  rw [Nat.zero_sub, List.replicate_zero, List.append_nil]

theorem pad_pad (m n : Nat) (cs : List Value) : pad m (pad n cs) = pad (max m n) cs := by
  unfold pad
  rw [List.append_assoc, List.replicate_append_replicate, List.length_append,
    List.length_replicate]
  congr 2
  omega

/-- Nulls up to the length of a column change nothing. -/
theorem pad_max_length (n : Nat) (cs : List Value) : pad (max cs.length n) cs = pad n cs := by
  unfold pad
  congr 2
  omega

/-- Cells written over nulls. -/
theorem append_drop_pad_nil (n : Nat) (xs : List Value) :
    xs ++ (pad n []).drop xs.length = pad n xs := by
  simp [pad, List.drop_replicate]

/-- Written cells read as written, and those beyond them as before. -/
theorem cells_setEach_self (hi : .each ∉ i) : ∀ items xs : List Value,
    cells i (setEach i items xs) = xs ++ (cells i items).drop xs.length
  | items, [] => by simp [setEach]
  | [], x :: xs => by
    have ih := cells_setEach_self hi [] xs
    simp only [cells, List.map_nil, List.drop_nil, List.append_nil] at ih ⊢
    rw [setEach, List.map_cons, lookup_set_self hi, Option.getD_some, ih]
  | item :: items, x :: xs => by
    have ih := cells_setEach_self hi items xs
    simp only [cells, List.map_cons, List.length_cons, List.drop_succ_cons, List.cons_append]
      at ih ⊢
    rw [setEach, List.map_cons, lookup_set_self hi, Option.getD_some, ih]

/-- Cells of another column read as before, and as null in elements that were made. -/
theorem cells_setEach_of_apart (h : Path.Apart i j) : ∀ items xs : List Value,
    cells j (setEach i items xs) = pad xs.length (cells j items)
  | items, [] => by rw [setEach, List.length_nil, pad_zero]
  | [], x :: xs => by
    have ih := cells_setEach_of_apart h [] xs
    have hj : j ≠ [] := by
      rintro rfl
      exact h.symm.not_prefix List.nil_prefix
    have hx : ((null.set i x).lookup j).getD null = null := by
      rw [set, lookup_update_of_apart h, lookup_null hj, Option.getD_none]
    rw [setEach, cells, List.map_cons, hx]
    show null :: cells j (setEach i [] xs) = _
    rw [ih]
    simp [pad, cells, List.replicate_succ]
  | item :: items, x :: xs => by
    have ih := cells_setEach_of_apart h items xs
    rw [setEach, cells, List.map_cons, set, lookup_update_of_apart h]
    show (item.lookup j).getD null :: cells j (setEach i items xs) = _
    rw [ih, List.length_cons]
    exact (pad_cons _ _ _).symm

/-! ## Columns -/

/-- The elements of the table at a path; a table that is absent has none, and another value is no
table. -/
def rows (v : Value) (t : Path) : Option (List Value) :=
  match v.lookup t with
  | none | some null => some []
  | some (list items) => some items
  | some _ => none

theorem column_eq (ht : .each ∉ t) (v : Value) (i : Path) :
    v.column (t ++ .each :: i) = (v.rows t).map (cells i) := by
  have hs : Path.splitEach (t ++ .each :: i) = some (t, i) :=
    Path.splitEach_eq_some_iff.mpr ⟨rfl, ht⟩
  simp only [column, hs, rows]
  rcases v.lookup t with _ | w
  · rfl
  · cases w <;> rfl

theorem rows_update_of_apart (h : Path.Apart p t) (v : Value) :
    (v.update f p).rows t = v.rows t := by
  unfold rows
  rw [lookup_update_of_apart h]

/-- A column is written by a change of its table. -/
theorem setColumn_eq (ht : .each ∉ t) (v : Value) (i : Path) (xs : List Value) :
    v.setColumn (t ++ .each :: i) xs = v.update (fun w => list (setEach i w.items xs)) t := by
  have hs : Path.splitEach (t ++ .each :: i) = some (t, i) :=
    Path.splitEach_eq_some_iff.mpr ⟨rfl, ht⟩
  simp only [setColumn, hs]

/-- The elements of the list at a path; where there is no list there are none. -/
def itemsAt (v : Value) (t : Path) : List Value := ((v.lookup t).getD null).items

theorem lookup_setColumn (ht : .each ∉ t) (v : Value) (i : Path) (xs : List Value) :
    (v.setColumn (t ++ .each :: i) xs).lookup t = some (list (setEach i (v.itemsAt t) xs)) := by
  rw [setColumn_eq ht, lookup_update_self ht]
  rfl

/-- The columns of a table that was written to, whatever stood in its place before. -/
theorem column_setColumn (ht : .each ∉ t) (v : Value) (i j : Path) (xs : List Value) :
    (v.setColumn (t ++ .each :: i) xs).column (t ++ .each :: j) =
      some (cells j (setEach i (v.itemsAt t) xs)) := by
  rw [column_eq ht, rows, lookup_setColumn ht]
  rfl

/-- The cells of a column; where there is no table there are none. -/
theorem getD_column (ht : .each ∉ t) (v : Value) (i : Path) :
    (v.column (t ++ .each :: i)).getD [] = cells i (v.itemsAt t) := by
  rw [column_eq ht, rows, itemsAt]
  rcases v.lookup t with _ | w
  · rfl
  · cases w <;> rfl

/-- **A column that was written reads as written, and beyond it as before.** -/
theorem column_setColumn_self (ht : .each ∉ t) (hi : .each ∉ i) {cs : List Value}
    (h : v.column (t ++ .each :: i) = some cs) (xs : List Value) :
    (v.setColumn (t ++ .each :: i) xs).column (t ++ .each :: i) =
      some (xs ++ cs.drop xs.length) := by
  have hcs : cells i (v.itemsAt t) = cs := by rw [← getD_column ht, h, Option.getD_some]
  rw [column_setColumn ht, cells_setEach_self hi, hcs]

/-- **Another column of the same table reads as before**, with nulls in elements that were made. -/
theorem column_setColumn_of_inner (ht : .each ∉ t) (hij : Path.Apart i j) {cs : List Value}
    (h : v.column (t ++ .each :: j) = some cs) (xs : List Value) :
    (v.setColumn (t ++ .each :: i) xs).column (t ++ .each :: j) = some (pad xs.length cs) := by
  have hcs : cells j (v.itemsAt t) = cs := by rw [← getD_column ht, h, Option.getD_some]
  rw [column_setColumn ht, cells_setEach_of_apart hij, hcs]

theorem column_update_of_apart (ht : .each ∉ t) (h : Path.Apart p t) (v : Value) (i : Path) :
    (v.update f p).column (t ++ .each :: i) = v.column (t ++ .each :: i) := by
  rw [column_eq ht, column_eq ht, rows_update_of_apart h]

end StoredCall.Value
