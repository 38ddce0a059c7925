import StoredCall.Proofs.Value

/-!
# Laws of reading and writing

The parts of a value tree are read and written like the fields of a record, although a write makes
what it needs on its way: a missing field is added, and a scalar, a null or a list that stands
where an object is needed gives way to one. Where a name stands twice, reads and writes mean the
first.

* `Value.update_update`: two changes at one path are one change.
* `Value.lookup_update_congr`: what is found after a change depends only on what was found at its
  place and at the path that is read; hence `Value.lookup_update_comm` for two changes.
* `Value.SameLookups` are trees in which every path finds the same. They may differ in the order of
  fields, as trees do to which the same fields were added in another order.
* **`Value.set_lens`**: the laws of a part at a path of fields.
* **`Value.setColumn_lens`**: the laws of a column, whatever stood in the place of its list and of
  each element.
-/

namespace StoredCall.Value

variable {p q r t i j : Path} {f g : Value → Value} {v w : Value}

/-! ## Changes at one path -/

theorem updateField_updateField (name : String) (f g : Value → Value) :
    ∀ fs : List (String × Value),
      updateField name f (updateField name g fs) = updateField name (fun w => f (g w)) fs
  | [] => by simp [updateField]
  | (key, w) :: rest => by
    by_cases hk : key = name
    · simp [updateField, hk]
    · simp [updateField, hk, updateField_updateField name f g rest]

/-- **Two changes at one path are one change.** -/
theorem update_update (f g : Value → Value) : ∀ (p : Path) (v : Value),
    (v.update g p).update f p = v.update (fun w => f (g w)) p
  | [], _ => rfl
  | .each :: _, _ => rfl
  | .field name :: p, v => by
    have hrest : (fun w => update f p (update g p w)) = update (fun w => f (g w)) p := by
      funext w
      exact update_update f g p w
    rw [update, update, update, fields, updateField_updateField, hrest]

/-! ## Changes at paths that part -/

/-- What is found after a change depends on what was found at its place and at the path itself. -/
theorem lookup_update_congr (hp : .each ∉ p) (hr : .each ∉ r) (hvp : v.lookup p = w.lookup p)
    (hvr : v.lookup r = w.lookup r) : (v.update f p).lookup r = (w.update f p).lookup r := by
  by_cases hrp : r <+: p
  · obtain ⟨s, rfl⟩ := hrp
    rw [lookup_update_append hr, lookup_update_append hr, hvr]
  · by_cases hpr : p <+: r
    · obtain ⟨s, rfl⟩ := hpr
      rw [lookup_append, lookup_append, lookup_update_self hp, lookup_update_self hp, hvp]
    · have h := Path.apart_of_fields hp hr hpr hrp
      rw [lookup_update_of_apart h, lookup_update_of_apart h, hvr]

/-- Two changes are made in either order, as seen from a place that parts from one of them. -/
theorem lookup_update_update (hpq : Path.Apart p q) (hp : .each ∉ p) (hr : .each ∉ r)
    (hqr : Path.Apart q r) (v : Value) :
    ((v.update f p).update g q).lookup r = ((v.update g q).update f p).lookup r := by
  rw [lookup_update_of_apart hqr]
  exact lookup_update_congr hp hr (lookup_update_of_apart hpq.symm v).symm
    (lookup_update_of_apart hqr v).symm

/-- Two changes are made in either order, as seen from a place that is not on the way to both. -/
theorem lookup_update_comm (hpq : Path.Apart p q) (hp : .each ∉ p) (hq : .each ∉ q)
    (hr : ¬ (r <+: p ∧ r <+: q)) (v : Value) :
    ((v.update f p).update g q).lookup r = ((v.update g q).update f p).lookup r := by
  by_cases heach : .each ∈ r
  · rw [lookup_of_each_mem heach, lookup_of_each_mem heach]
  · rcases hpq.apart_or_apart hp hq heach hr with hpr | hqr
    · exact (lookup_update_update hpq.symm hq heach hpr v).symm
    · exact lookup_update_update hpq hp heach hqr v

/-! ## The order of fields -/

theorem map_fst_updateField (name : String) (f : Value → Value) :
    ∀ fs : List (String × Value), (updateField name f fs).map Prod.fst =
      if name ∈ fs.map Prod.fst then fs.map Prod.fst else fs.map Prod.fst ++ [name]
  | [] => rfl
  | (key, w) :: rest => by
    by_cases hk : key = name
    · simp [updateField, hk]
    · have ih := map_fst_updateField name f rest
      simp only [updateField, if_neg hk, List.map_cons, ih, List.mem_cons, Ne.symm hk, false_or]
      split <;> rfl

/-- Two fields are added in either order. -/
theorem perm_updateField_updateField (a b : String) (f g : Value → Value)
    (fs : List (String × Value)) :
    ((updateField b g (updateField a f fs)).map Prod.fst).Perm
      ((updateField a f (updateField b g fs)).map Prod.fst) := by
  simp only [map_fst_updateField]
  by_cases hab : a = b
  · rw [hab]
  by_cases ha : a ∈ fs.map Prod.fst
  · by_cases hb : b ∈ fs.map Prod.fst
    · rw [if_pos ha, if_pos hb, if_pos ha]
    · rw [if_pos ha, if_neg hb, if_pos (List.mem_append_left _ ha)]
  · by_cases hb : b ∈ fs.map Prod.fst
    · rw [if_neg ha, if_pos hb, if_neg ha, if_pos (List.mem_append_left _ hb)]
    · -- Both are new, and stand at the end in the order in which they were added.
      have hb' : b ∉ fs.map Prod.fst ++ [a] := by simp [hb, Ne.symm hab]
      have ha' : a ∉ fs.map Prod.fst ++ [b] := by simp [ha, hab]
      rw [if_neg ha, if_neg hb, if_neg hb', if_neg ha', List.append_assoc, List.append_assoc]
      exact (List.Perm.swap b a []).append_left _

/-- Two trees in which every path finds the same. Objects that are found are the same when the names
of their fields are, in any order: what the fields hold is found by longer paths. -/
def SameLookups (v w : Value) : Prop :=
  ∀ r : Path, v.lookup r = w.lookup r ∨ ∃ fs gs, v.lookup r = some (object fs) ∧
    w.lookup r = some (object gs) ∧ (fs.map Prod.fst).Perm (gs.map Prod.fst)

/-- Two changes of different fields, or below different fields, leave an object. -/
theorem exists_object_update_update (hpq : Path.Apart p q) (hp : .each ∉ p) (hq : .each ∉ q)
    (v : Value) : ∃ fs gs, (v.update f p).update g q = object fs ∧
      (v.update g q).update f p = object gs ∧ (fs.map Prod.fst).Perm (gs.map Prod.fst) := by
  cases p with
  | nil => exact absurd List.nil_prefix hpq.not_prefix
  | cons a p =>
    cases q with
    | nil => exact absurd List.nil_prefix hpq.symm.not_prefix
    | cons b q =>
      cases a with
      | each => exact absurd List.mem_cons_self hp
      | field a =>
        cases b with
        | each => exact absurd List.mem_cons_self hq
        | field b => exact ⟨_, _, rfl, rfl, perm_updateField_updateField a b _ _ v.fields⟩

/-- **Changes at paths that part are made in either order.** -/
theorem sameLookups_update_update (hpq : Path.Apart p q) (hp : .each ∉ p) (hq : .each ∉ q)
    (v : Value) : SameLookups ((v.update f p).update g q) ((v.update g q).update f p) := by
  intro r
  by_cases hr : r <+: p ∧ r <+: q
  · -- From a place on the way to both, the two changes are changes of what stands there.
    obtain ⟨⟨s, rfl⟩, ⟨t, rfl⟩⟩ := hr
    rw [List.mem_append, not_or] at hp hq
    have hst : Path.Apart s t := Path.apart_append_left.mp hpq
    obtain ⟨fs, gs, hfs, hgs, hperm⟩ :=
      exists_object_update_update (f := f) (g := g) hst hp.2 hq.2 ((v.lookup r).getD null)
    refine .inr ⟨fs, gs, ?_, ?_, hperm⟩
    · rw [lookup_update_append hq.1, lookup_update_append hp.1, Option.getD_some, hfs]
    · rw [lookup_update_append hp.1, lookup_update_append hq.1, Option.getD_some, hgs]
  · exact .inl (lookup_update_comm hpq hp hq hr v)

/-- **The laws of a part at a path of fields**: what was written is read, the second of two writes
counts, and writes at paths of which neither is on the way to the other do not see each other, in
whichever order they are made. The order shows at most in the fields of objects on the way to both
places. -/
theorem set_lens (v : Value) (hp : .each ∉ p) (x : Value) :
    (v.set p x).lookup p = some x ∧
    (∀ y, (v.set p x).set p y = v.set p y) ∧
    ∀ q, .each ∉ q → ¬ p <+: q → ¬ q <+: p →
      (v.set p x).lookup q = v.lookup q ∧
      ∀ y, SameLookups ((v.set p x).set q y) ((v.set q y).set p x) ∧
        ∀ r, ¬ (r <+: p ∧ r <+: q) →
          ((v.set p x).set q y).lookup r = ((v.set q y).set p x).lookup r := by
  refine ⟨lookup_set_self hp v x, fun y => update_update _ _ p v, fun q hq hpq hqp => ?_⟩
  have h := Path.apart_of_fields hp hq hpq hqp
  exact ⟨lookup_update_of_apart h v, fun y =>
    ⟨sameLookups_update_update h hp hq v, fun r hr => lookup_update_comm h hp hq hr v⟩⟩

/-- An object in which a name stands twice, first with a scalar. -/
def twice : Value := object [("a", int 1), ("a", list [int 2]), ("b", null)]

/-- The scalar gives way to an object, the other field of that name stays, and the fields of the new
object are in the order in which they were written. -/
theorem twice_set_lens :
    (twice.set [.field "a", .field "x"] (int 7)).lookup [.field "a", .field "x"] = some (int 7) ∧
    (twice.set [.field "a", .field "x"] (int 7)).set [.field "a", .field "x"] (int 8) =
      object [("a", object [("x", int 8)]), ("a", list [int 2]), ("b", null)] ∧
    (twice.set [.field "a", .field "x"] (int 7)).lookup [.field "b"] = some null ∧
    SameLookups
      (object [("a", object [("x", int 7), ("y", int 9)]), ("a", list [int 2]), ("b", null)])
      (object [("a", object [("y", int 9), ("x", int 7)]), ("a", list [int 2]), ("b", null)]) := by
  have h := set_lens (p := [.field "a", .field "x"]) twice (by decide) (int 7)
  have hb := h.2.2 [.field "b"] (by decide) (by decide) (by decide)
  have hy := h.2.2 [.field "a", .field "y"] (by decide) (by decide) (by decide)
  exact ⟨h.1, h.2.1 (int 8), hb.1, (hy.2 (int 9)).1⟩

/-! ## Columns -/

theorem length_setEach (i : Path) : ∀ items xs : List Value,
    (setEach i items xs).length = max items.length xs.length
  | items, [] => by simp [setEach]
  | [], x :: xs => by
    rw [setEach, List.length_cons, length_setEach i [] xs]
    simp
  | item :: items, x :: xs => by
    rw [setEach, List.length_cons, length_setEach i items xs, List.length_cons, List.length_cons]
    omega

theorem length_cells (i : Path) (items : List Value) : (cells i items).length = items.length :=
  List.length_map _

/-- No part is found below every element of a part. -/
theorem cells_of_each_mem (hj : .each ∈ j) (items : List Value) :
    cells j items = pad items.length [] := by
  have hnull : ∀ item : Value, (item.lookup j).getD null = null := by
    intro item
    rw [lookup_of_each_mem hj, Option.getD_none]
  simp [cells, pad, hnull]

/-- Cells of another column read as before, and as null in elements that were made. -/
theorem cells_setEach (hi : .each ∉ i) (hij : ¬ i <+: j) (hji : ¬ j <+: i)
    (items xs : List Value) :
    cells j (setEach i items xs) = pad (max items.length xs.length) (cells j items) := by
  by_cases hj : .each ∈ j
  · rw [cells_of_each_mem hj, cells_of_each_mem hj, length_setEach, pad_pad, max_right_comm,
      max_self]
  · rw [cells_setEach_of_apart (Path.apart_of_fields hi hj hij hji), ← length_cells j items,
      pad_max_length]

/-- **The laws of a column**: what was written is read, with the cells beyond it as before; the list
has as many elements as it had and as were written at least; and a column of which neither path is
on the way to the other reads as before, with nulls in elements that were made. What stood in the
place of the list does not matter, and counts as empty if it is no list. -/
theorem setColumn_lens (v : Value) (ht : .each ∉ t) (hi : .each ∉ i) (xs : List Value) :
    (v.setColumn (t ++ .each :: i) xs).column (t ++ .each :: i) =
      some (xs ++ ((v.column (t ++ .each :: i)).getD []).drop xs.length) ∧
    (∃ items, (v.setColumn (t ++ .each :: i) xs).lookup t = some (list items) ∧
      items.length = max (v.itemsAt t).length xs.length) ∧
    ∀ j, ¬ i <+: j → ¬ j <+: i →
      (v.setColumn (t ++ .each :: i) xs).column (t ++ .each :: j) =
        some (pad (max (v.itemsAt t).length xs.length)
          ((v.column (t ++ .each :: j)).getD [])) := by
  refine ⟨?_, ⟨_, lookup_setColumn ht v i xs, length_setEach i _ xs⟩, fun j hij hji => ?_⟩
  · rw [column_setColumn ht, cells_setEach_self hi, getD_column ht]
  · rw [column_setColumn ht, cells_setEach hi hij hji, getD_column ht]

/-- A list whose first element is no object, and a text where another list is expected. -/
def basket : Value :=
  object
    [("lines",
        list [int 3, object [("qty", int 1), ("sku", text "A")], object [("qty", int 9)]]),
      ("notes", text "none")]

/-- A short column leaves the rest of the list, a long one makes elements, and a text gives way to a
list. -/
theorem basket_setColumn_lens :
    (basket.setColumn [.field "lines", .each, .field "qty"] [int 5, int 6]).column
      [.field "lines", .each, .field "qty"] = some [int 5, int 6, int 9] ∧
    (basket.setColumn [.field "lines", .each, .field "qty"] [int 5, int 6, int 7, int 8]).column
      [.field "lines", .each, .field "sku"] = some [null, text "A", null, null] ∧
    (∃ items, (basket.setColumn [.field "notes", .each] [text "x"]).lookup [.field "notes"] =
      some (list items) ∧ items.length = 1) := by
  have hqty := setColumn_lens (t := [.field "lines"]) (i := [.field "qty"]) basket (by decide)
    (by decide)
  have hnotes := setColumn_lens (t := [.field "notes"]) (i := []) basket (by decide) (by decide)
  exact ⟨(hqty [int 5, int 6]).1,
    (hqty [int 5, int 6, int 7, int 8]).2.2 [.field "sku"] (by decide) (by decide),
    (hnotes [text "x"]).2.1⟩

end StoredCall.Value
