import StoredCall.Value.Document
import StoredCall.Proofs.Json
import StoredCall.Proofs.Text.Utf8
import Mathlib

/-!
# Values in JSON documents

A document holds a value as it is, but reading puts the fields of every object into the order of
their names. Each field path leads to the same part before and after.

* `Value.sorted` is a value with the fields of every object in the order of their names' bytes.
* `Value.sortFields_eq_mergeSort`: inserting fields one by one sorts them, if their names differ.
* `Value.lookup_sorted`: paths lead to the same parts.
* **`Value.decode_encode_json`**: the document of a value is read as the sorted value.
-/

namespace StoredCall.Value

open Text

/-- Null, truth values, integers, texts, lists, and objects whose names differ, with at most `depth`
lists and objects inside each other. -/
inductive Plain : (depth : Nat) → Value → Prop where
  | null {depth : Nat} : Plain depth null
  | bool {depth : Nat} {b : Bool} : Plain depth (bool b)
  | int {depth : Nat} {i : Int64} : Plain depth (int i)
  | text {depth : Nat} {s : String} : Plain depth (text s)
  | list {depth : Nat} {items : List Value} : (∀ v ∈ items, Plain depth v) →
      Plain (depth + 1) (list items)
  | object {depth : Nat} {fields : List (String × Value)} : (fields.map Prod.fst).Nodup →
      (∀ f ∈ fields, Plain depth f.2) → Plain (depth + 1) (object fields)

/-- The order of fields by the bytes of their names. -/
def byName (f g : String × Value) : Bool := utf8 f.1 ≤ utf8 g.1

mutual

/-- The value with the fields of every object sorted by name. -/
def sorted : Value → Value
  | list items => list (sortedItems items)
  | object fields => object ((sortedFields fields).mergeSort byName)
  | v => v

/-- The elements, each sorted in itself. -/
def sortedItems : List Value → List Value
  | [] => []
  | v :: rest => sorted v :: sortedItems rest

/-- The fields, each sorted in itself. -/
def sortedFields : List (String × Value) → List (String × Value)
  | [] => []
  | (k, v) :: rest => (k, sorted v) :: sortedFields rest

end

theorem sortedFields_eq (fields : List (String × Value)) :
    sortedFields fields = fields.map fun f => (f.1, sorted f.2) := by
  induction fields with
  | nil => rfl
  | cons f rest ih => rw [sortedFields, ih, List.map_cons]

theorem map_fst_sortedFields (fields : List (String × Value)) :
    (sortedFields fields).map Prod.fst = fields.map Prod.fst := by
  rw [sortedFields_eq, List.map_map]
  rfl

/-! ## Sorting by insertion -/

/-- The names of fields ascend. -/
def Ascends (fields : List (String × Value)) : Prop := fields.Pairwise fun f g => f.1 < g.1

theorem perm_insertField {name : String} {fields : List (String × Value)}
    (h : name ∉ fields.map Prod.fst) (v : Value) :
    (insertField name v fields).Perm ((name, v) :: fields) := by
  induction fields with
  | nil => exact .refl _
  | cons f rest ih =>
    rw [List.map_cons, List.mem_cons, not_or] at h
    rw [insertField]
    split_ifs with hlt heq
    · exact .refl _
    · exact absurd heq h.1
    · exact ((ih h.2).cons f).trans (.swap _ _ _)

theorem ascends_insertField {name : String} {fields : List (String × Value)}
    (h : name ∉ fields.map Prod.fst) (hasc : Ascends fields) (v : Value) :
    Ascends (insertField name v fields) := by
  induction fields with
  | nil => exact List.pairwise_singleton _ _
  | cons f rest ih =>
    rw [List.map_cons, List.mem_cons, not_or] at h
    obtain ⟨hfirst, hrest⟩ := List.pairwise_cons.mp hasc
    rw [insertField]
    split_ifs with hlt heq
    · refine List.pairwise_cons.mpr ⟨fun g hg => ?_, hasc⟩
      rcases List.mem_cons.mp hg with rfl | hg
      · exact hlt
      · exact lt_trans hlt (hfirst g hg)
    · exact absurd heq h.1
    · refine List.pairwise_cons.mpr ⟨fun g hg => ?_, ih h.2 hrest⟩
      rcases List.mem_cons.mp ((perm_insertField h.2 v).mem_iff.mp hg) with rfl | hg
      · exact lt_of_le_of_ne (not_lt.mp hlt) (Ne.symm heq)
      · exact hfirst g hg

/-- Fields that are inserted one by one: what was there and what comes in, in ascending order. -/
theorem foldl_insertField {fields acc : List (String × Value)} (hasc : Ascends acc)
    (hnodup : ((acc ++ fields).map Prod.fst).Nodup) :
    (fields.foldl (fun acc f => insertField f.1 f.2 acc) acc).Perm (acc ++ fields) ∧
      Ascends (fields.foldl (fun acc f => insertField f.1 f.2 acc) acc) := by
  induction fields generalizing acc with
  | nil => exact ⟨by rw [List.append_nil]; exact .refl _, hasc⟩
  | cons f rest ih =>
    have hmiddle : (acc ++ f :: rest).Perm (f :: acc ++ rest) := List.perm_middle
    have hnew : f.1 ∉ acc.map Prod.fst := by
      have hcons := (hmiddle.map Prod.fst).nodup_iff.mp hnodup
      rw [List.cons_append, List.map_cons, List.nodup_cons, List.map_append] at hcons
      exact fun hmem => hcons.1 (List.mem_append_left _ hmem)
    have hstep : (insertField f.1 f.2 acc ++ rest).Perm (acc ++ f :: rest) :=
      ((perm_insertField hnew f.2).append_right rest).trans hmiddle.symm
    obtain ⟨hperm, hsorted⟩ := ih (ascends_insertField hnew hasc f.2)
      ((hstep.map Prod.fst).nodup_iff.mpr hnodup)
    exact ⟨hperm.trans hstep, hsorted⟩

theorem ascends_mergeSort {fields : List (String × Value)} (h : (fields.map Prod.fst).Nodup) :
    Ascends (fields.mergeSort byName) := by
  have htrans : ∀ f g k, byName f g = true → byName g k = true → byName f k = true := by
    simp only [byName, decide_eq_true_eq, utf8_le_utf8]
    exact fun _ _ _ => le_trans
  have htotal : ∀ f g, (byName f g || byName g f) = true := by
    simp only [byName, Bool.or_eq_true, decide_eq_true_eq, utf8_le_utf8]
    exact fun f g => le_total f.1 g.1
  have hnames : ((fields.mergeSort byName).map Prod.fst).Nodup :=
    ((List.mergeSort_perm fields byName).map Prod.fst).nodup_iff.mpr h
  refine ((List.pairwise_mergeSort htrans htotal fields).and (List.pairwise_map.mp hnames)).imp ?_
  rintro f g ⟨hle, hne⟩
  exact lt_of_le_of_ne (utf8_le_utf8.mp (of_decide_eq_true hle)) hne

/-- **Inserting one by one sorts** fields whose names differ. -/
theorem sortFields_eq_mergeSort {fields : List (String × Value)}
    (h : (fields.map Prod.fst).Nodup) : sortFields fields = fields.mergeSort byName := by
  obtain ⟨hperm, hasc⟩ := foldl_insertField (List.Pairwise.nil : Ascends []) h
  refine List.Perm.eq_of_pairwise (fun f g _ _ hlt hgt => absurd hlt (lt_asymm hgt)) hasc
    (ascends_mergeSort h) ?_
  exact hperm.trans (List.mergeSort_perm fields byName).symm

/-! ## Paths into sorted values -/

theorem lookup_perm {fields sorted : List (String × Value)} (hperm : fields.Perm sorted)
    (hnodup : (fields.map Prod.fst).Nodup) (name : String) :
    fields.lookup name = sorted.lookup name := by
  induction hperm with
  | nil => rfl
  | cons f _ ih =>
    rw [List.lookup_cons, List.lookup_cons, ih (List.nodup_cons.mp hnodup).2]
  | swap f g rest =>
    have hne : g.1 ≠ f.1 := fun heq => (List.nodup_cons.mp hnodup).1 (by simp [heq])
    rw [List.lookup_cons, List.lookup_cons, List.lookup_cons, List.lookup_cons]
    by_cases hf : name = f.1
    · have hg : (name == g.1) = false := by simp [hf, hne.symm]
      rw [hg]
    · have hf' : (name == f.1) = false := by simp [hf]
      rw [hf']
  | trans hfirst _ ih₁ ih₂ =>
    rw [ih₁ hnodup, ih₂ ((hfirst.map Prod.fst).nodup_iff.mp hnodup)]

theorem lookup_sortedFields (fields : List (String × Value)) (name : String) :
    (sortedFields fields).lookup name = (fields.lookup name).map sorted := by
  induction fields with
  | nil => rfl
  | cons f rest ih =>
    rw [sortedFields, List.lookup_cons, List.lookup_cons, ih]
    cases name == f.1 <;> rfl

theorem Plain.get?_sorted {depth : Nat} {v : Value} (h : Plain depth v) (name : String) :
    v.sorted.get? name = (v.get? name).map sorted := by
  cases h with
  | @object _ fields hnodup _ =>
    have hnames : ((sortedFields fields).map Prod.fst).Nodup := by
      rwa [map_fst_sortedFields]
    have hperm := (List.mergeSort_perm (sortedFields fields) byName).symm
    exact (lookup_perm hperm hnames name).symm.trans (lookup_sortedFields fields name)
  | _ => rfl

theorem Plain.of_get? {depth : Nat} {v w : Value} (h : Plain depth v) {name : String}
    (hw : v.get? name = some w) : ∃ inner, Plain inner w := by
  cases h with
  | @object depth fields _ hfields =>
    obtain ⟨front, back, heq, -⟩ := List.lookup_eq_some_iff.mp hw
    have hmem : (name, w) ∈ (Value.object fields).fields := by rw [heq]; simp
    exact ⟨depth, hfields (name, w) hmem⟩
  | _ => cases hw

/-- **A path leads to the same part**, which is sorted in itself. -/
theorem Plain.lookup_sorted {depth : Nat} {v : Value} (h : Plain depth v) (p : Path) :
    v.sorted.lookup p = (v.lookup p).map sorted := by
  induction p generalizing depth v with
  | nil => rfl
  | cons step p ih =>
    cases step with
    | each => rfl
    | field name =>
      rw [lookup, lookup, h.get?_sorted name]
      cases hw : v.get? name with
      | none => rfl
      | some w =>
        obtain ⟨inner, hplain⟩ := h.of_get? hw
        exact ih hplain

/-! ## Documents -/

theorem fitsWord_toInt (i : Int64) : Json.FitsWord i.toInt := by
  have hlow := Int64.le_toInt i
  have hhigh := Int64.toInt_lt i
  refine ⟨hlow, le_trans (le_of_lt hhigh) ?_⟩
  exact Int.ofNat_le.mpr Json.pow2_le_wordMax

theorem ofNum_toInt (i : Int64) : ofNum (.int i.toInt) = int i := by
  have hfits : Number.toInt64? i.toInt = some i := by
    rw [Number.toInt64?, if_pos ⟨Int64.le_toInt i, Int64.toInt_lt i⟩, Int64.ofInt_toInt]
  rw [ofNum, hfits]

theorem itemsToJson_map {items : List Value} {made : Value → Json}
    (h : ∀ v ∈ items, v.toJson = .ok (made v)) : itemsToJson items = .ok (items.map made) := by
  induction items with
  | nil => rfl
  | cons v rest ih =>
    rw [List.forall_mem_cons] at h
    rw [itemsToJson, h.1, ih h.2]
    rfl

theorem fieldsToJson_map {fields : List (String × Value)} {made : String × Value → Json}
    (h : ∀ f ∈ fields, f.2.toJson = .ok (made f)) :
    fieldsToJson fields = .ok (fields.map fun f => (f.1, made f)) := by
  induction fields with
  | nil => rfl
  | cons f rest ih =>
    rw [List.forall_mem_cons] at h
    rw [fieldsToJson, h.1, ih h.2]
    rfl

theorem itemsOfJson_map {items : List Value} {made : Value → Json}
    (h : ∀ v ∈ items, ofJson (made v) = v.sorted) :
    itemsOfJson (items.map made) = sortedItems items := by
  induction items with
  | nil => rfl
  | cons v rest ih =>
    rw [List.forall_mem_cons] at h
    rw [List.map_cons, itemsOfJson, sortedItems, h.1, ih h.2]

theorem fieldsOfJson_map {fields : List (String × Value)} {made : String × Value → Json}
    (h : ∀ f ∈ fields, ofJson (made f) = f.2.sorted) :
    fieldsOfJson (fields.map fun f => (f.1, made f)) = sortedFields fields := by
  induction fields with
  | nil => rfl
  | cons f rest ih =>
    rw [List.forall_mem_cons] at h
    rw [List.map_cons, fieldsOfJson, sortedFields, h.1, ih h.2]

/-- The JSON form of a value has its depth and stands for the sorted value. -/
def FormedAs (depth : Nat) (v : Value) (j : Json) : Prop :=
  v.toJson = .ok j ∧ j.Exact depth ∧ ofJson j = v.sorted

theorem formedAs_list {depth : Nat} {items : List Value} {made : Value → Json}
    (h : ∀ v ∈ items, FormedAs depth v (made v)) :
    FormedAs (depth + 1) (list items) (.array (items.map made)) := by
  refine ⟨?_, .array (List.forall_mem_map.mpr fun v hv => (h v hv).2.1), ?_⟩
  · rw [toJson, itemsToJson_map fun v hv => (h v hv).1]
    rfl
  · rw [ofJson, sorted, itemsOfJson_map fun v hv => (h v hv).2.2]

theorem formedAs_object {depth : Nat} {fields : List (String × Value)}
    {made : String × Value → Json} (hnodup : (fields.map Prod.fst).Nodup)
    (h : ∀ f ∈ fields, FormedAs depth f.2 (made f)) :
    FormedAs (depth + 1) (object fields) (.object (fields.map fun f => (f.1, made f))) := by
  refine ⟨?_, .object (List.forall_mem_map.mpr fun f hf => (h f hf).2.1), ?_⟩
  · rw [toJson, fieldsToJson_map fun f hf => (h f hf).1]
    rfl
  · have hnames : ((sortedFields fields).map Prod.fst).Nodup := by rwa [map_fst_sortedFields]
    rw [ofJson, sorted, fieldsOfJson_map fun f hf => (h f hf).2.2, sortFields_eq_mergeSort hnames]

theorem Plain.formedAs {depth : Nat} {v : Value} (h : Plain depth v) :
    ∃ j, FormedAs depth v j := by
  induction h with
  | null => exact ⟨.null, rfl, .null, rfl⟩
  | @bool _ b => exact ⟨.bool b, rfl, .bool, rfl⟩
  | @int _ i => exact ⟨_, rfl, .int (fitsWord_toInt i), ofNum_toInt i⟩
  | @text _ s => exact ⟨.string s, rfl, .string, rfl⟩
  | list _ ih =>
    choose! made hmade using ih
    exact ⟨_, formedAs_list hmade⟩
  | object hnodup _ ih =>
    choose! made hmade using ih
    exact ⟨_, formedAs_object hnodup hmade⟩

/-- A document is read as what its JSON form stands for. -/
theorem decode_encode_of_toJson {v : Value} {j : Json} (hj : v.toJson = .ok j)
    (hexact : j.Exact Json.maxDepth) :
    ∃ s, v.encode .json = .ok s ∧ decode s .json = .ok (ofJson j) := by
  refine ⟨j.compact, ?_, ?_⟩
  · rw [encode, write, hj]
    rfl
  · rw [decode, read, Json.parse?_compact hexact]
    rfl

/-- **Values come back from JSON with their fields sorted**: the document of a value is read as the
sorted value, in which every path leads to the same part. -/
theorem decode_encode_json {v : Value} (h : Plain Json.maxDepth v) :
    ∃ s, v.encode .json = .ok s ∧ decode s .json = .ok v.sorted ∧
      ∀ p, v.sorted.lookup p = (v.lookup p).map sorted := by
  obtain ⟨j, hj, hexact, hvalue⟩ := h.formedAs
  obtain ⟨s, hencode, hdecode⟩ := decode_encode_of_toJson hj hexact
  exact ⟨s, hencode, hvalue ▸ hdecode, h.lookup_sorted⟩

/-- A reading: names out of order at two levels, both ends of the integers, and a text with a quote,
a backslash, a control character and letters beyond ASCII. -/
def thermometer : Value :=
  object [
    ("unit", text "\"°C\" \\ \x01\t日"),
    ("é", null),
    ("range", list [int Int64.minValue, int Int64.maxValue]),
    ("samples", list [object [("z", bool true), ("a", list [])], object []])]

theorem thermometer_plain : Plain Json.maxDepth thermometer := by
  have hrange : Plain 126 (list [int Int64.minValue, int Int64.maxValue]) := by
    refine .list (List.forall_mem_cons.mpr ⟨.int, List.forall_mem_singleton.mpr .int⟩)
  have hsample : Plain 125 (object [("z", bool true), ("a", list [])]) := by
    refine .object (by decide) (List.forall_mem_cons.mpr ⟨.bool, ?_⟩)
    exact List.forall_mem_singleton.mpr (.list fun v hv => absurd hv List.not_mem_nil)
  have hempty : Plain 125 (object []) :=
    .object List.nodup_nil fun f hf => absurd hf List.not_mem_nil
  have hsamples : Plain 126
      (list [object [("z", bool true), ("a", list [])], object []]) :=
    .list (List.forall_mem_cons.mpr ⟨hsample, List.forall_mem_singleton.mpr hempty⟩)
  refine .object (by decide) ?_
  simp only [List.forall_mem_cons]
  exact ⟨.text, .null, hrange, hsamples, fun f hf => absurd hf List.not_mem_nil⟩

theorem thermometer_decode_encode_json :
    Plain Json.maxDepth thermometer ∧ ∃ s, thermometer.encode .json = .ok s ∧
      decode s .json = .ok thermometer.sorted ∧
        ∀ p, thermometer.sorted.lookup p = (thermometer.lookup p).map sorted :=
  ⟨thermometer_plain, decode_encode_json thermometer_plain⟩

end StoredCall.Value
