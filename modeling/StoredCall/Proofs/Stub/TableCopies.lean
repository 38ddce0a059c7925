import StoredCall.Proofs.Stub.Copying
import StoredCall.Proofs.Stub.Declarations
import StoredCall.Proofs.Stub.Tables

/-!
# What the copies of a table keep

The statements that lowering writes for a table, run. Reading a table puts the scalars of its first
elements into the arrays, by ascending index and without gaps, as many as an array holds. Filling a
table makes one element for each place of the arrays. A block writes a plain name without quotes
even if it has small letters or is a word of the language, and then means another name or none; and
it assigns the fields of a new element, which is possible in a record but not in an object.

* `Argument.FieldsMeant`: a block means the fields that an element has.
* `Argument.blank`: a new element that is made of records.
* `LeavesBelow`: no scalar inside an element stands inside another, and a new element has a place
  for each.
* `Carriage.localsApart`: the arrays, the local of the table and the loop index are apart.
* `runs_lowerOut`, `runs_lowerIn`: what the statements of a table do.
* `Argument.table_copied`: a table that is read and filled again has its first elements, from
  index 1 on.
* `not_runs_lowerIn`: what cannot be filled. `elements_not_filled` has three such tables.
-/

namespace StoredCall

open Datum

/-! ## Scalars inside an element -/

mutual

/-- A block means the fields of the records inside an element, and no record has two fields of one
name, as holds of all declared types. -/
def Argument.FieldsMeant : Argument → Prop
  | ⟨_, _, _, shape⟩ => shape.FieldsMeant

/-- A block means the fields of the records of a shape. Tables inside an element are refused. -/
def Shape.FieldsMeant : Shape → Prop
  | .scalar _ | .table .. => True
  | .record _ fields => (fields.map Argument.name).Nodup ∧ fieldsMeantAll fields

/-- A block means siblings and the fields inside them. -/
def fieldsMeantAll : List Argument → Prop
  | [] => True
  | f :: rest => IsMeant f.name ∧ f.FieldsMeant ∧ fieldsMeantAll rest

end

mutual

/-- A new element that is made of records. -/
def Argument.blank {α : Type} : Argument → Datum α
  | ⟨_, _, _, shape⟩ => shape.blank

/-- What is new in a shape that is made of records. -/
def Shape.blank {α : Type} : Shape → Datum α
  | .scalar _ | .table .. => .null
  | .record _ fields => .record (blankAll fields)

/-- The fields of a new record. -/
def blankAll {α : Type} : List Argument → List (String × Datum α)
  | [] => []
  | f :: rest => (f.name, f.blank) :: blankAll rest

end

theorem get?_blankAll {α : Type} {fs : List Argument} (hn : (fs.map Argument.name).Nodup)
    {f : Argument} (hf : f ∈ fs) : Assoc.get? f.name (blankAll fs) = some (f.blank : Datum α) := by
  induction fs with
  | nil => cases hf
  | cons g rest ih =>
    rw [List.map_cons, List.nodup_cons] at hn
    rw [blankAll, Assoc.get?]
    rcases List.mem_cons.mp hf with rfl | hf
    · rw [if_pos rfl]
    · have hne : g.name ≠ f.name := fun heq => hn.1 (heq ▸ List.mem_map_of_mem hf)
      rw [if_neg hne, ih hn.2 hf]

/-- Fields lead from one list of fields to another: a block means them, and they are there in a new
element. -/
def LeadsTo {α : Type} (blank : Datum α) (fields reached : List String) : Prop :=
  ∃ tail, reached = fields ++ tail ∧ AllMeant tail ∧ blank.part? tail = some .null

/-- Scalars below some fields, at least one, of which none stands inside another. -/
structure LeavesBelow {α : Type} (blank : Datum α) (fields : List String) (leaves : List Leaf) :
    Prop where
  ne_nil : leaves ≠ []
  below : ∀ l ∈ leaves, LeadsTo blank fields l.fields
  apart : leaves.Pairwise fun l l' => FieldsApart l.fields l'.fields

/-- What stands in different fields of a record is apart. -/
theorem fieldsApart_of_ne {fields l l' : List String} {a b : String} (hne : a ≠ b)
    (h : fields ++ [a] <+: l) (h' : fields ++ [b] <+: l') : FieldsApart l l' := by
  have hlength : (fields ++ [a]).length = (fields ++ [b]).length := by simp
  have hsplit : ∀ {k : List String}, fields ++ [a] <+: k → fields ++ [b] <+: k → a = b :=
    fun ha hb => by
      have heq := (List.prefix_of_prefix_length_le ha hb hlength.le).eq_of_length hlength
      simpa using heq
  exact ⟨fun hl => hne (hsplit (h.trans hl) h'), fun hl => hne (hsplit h (h'.trans hl))⟩

mutual

theorem Argument.leavesBelow {α : Type} {label : String} : ∀ (a : Argument) {fields : List String}
    {path : Path} {leaves : List Leaf}, a.FieldsMeant → a.leaves label fields path = .ok leaves →
      LeavesBelow (a.blank : Datum α) fields leaves
  | ⟨_, _, _, shape⟩, _, _, _, hd, h => Shape.leavesBelow shape hd h

theorem Shape.leavesBelow {α : Type} {label name : String} : ∀ (shape : Shape)
    {fields : List String} {path : Path} {leaves : List Leaf}, shape.FieldsMeant →
      shape.leaves label name fields path = .ok leaves →
        LeavesBelow (shape.blank : Datum α) fields leaves
  | .scalar s, _, _, _, _, h => by
    rw [Shape.leaves] at h
    rw [← Except.ok.inj h]
    refine ⟨List.cons_ne_nil _ _, List.forall_mem_singleton.mpr ?_, List.pairwise_singleton _ _⟩
    exact ⟨[], (List.append_nil _).symm, allMeant_nil, rfl⟩
  | .record _ [], _, _, _, _, h => by simp [Shape.leaves] at h
  | .record _ (f :: rest), _, _, _, hd, h => by
    obtain ⟨hne, hbelow, hapart⟩ := leavesAll_below (α := α) (f :: rest) hd.1 hd.2 h
    refine ⟨hne (List.cons_ne_nil _ _), fun l hl => ?_, hapart⟩
    obtain ⟨g, hg, hname, tail, htail, hmeant, hpart⟩ := hbelow l hl
    refine ⟨g.name :: tail, by rw [htail, List.append_assoc]; rfl,
      List.forall_mem_cons.mpr ⟨hname, hmeant⟩, ?_⟩
    rw [Shape.blank, Datum.part?, get?_blankAll hd.1 hg]
    exact hpart
  | .table .., _, _, _, _, h => by simp [Shape.leaves] at h

/-- The scalars of siblings are below the names of the siblings. -/
theorem leavesAll_below {α : Type} {label : String} : ∀ (fs : List Argument)
    {names fields : List String} {path : Path} {leaves : List Leaf},
      (fs.map Argument.name).Nodup → fieldsMeantAll fs →
      leavesAll label fields path names fs = .ok leaves →
        (fs ≠ [] → leaves ≠ []) ∧
        (∀ l ∈ leaves, ∃ f ∈ fs, IsMeant f.name ∧
          LeadsTo (f.blank : Datum α) (fields ++ [f.name]) l.fields) ∧
        leaves.Pairwise fun l l' => FieldsApart l.fields l'.fields
  | [], _, _, _, _, _, _, h => by
    rw [leavesAll] at h
    rw [← Except.ok.inj h]
    exact ⟨fun hne => absurd rfl hne, fun l hl => absurd hl List.not_mem_nil, .nil⟩
  | f :: rest, names, _, _, _, hn, hd, h => by
    obtain ⟨here, hh, h⟩ := except_bind_eq_ok.mp h
    obtain ⟨more, hm, h⟩ := except_bind_eq_ok.mp h
    rw [← Except.ok.inj h]
    rw [List.map_cons, List.nodup_cons] at hn
    have hfirst := Argument.leavesBelow (α := α) f hd.2.1 hh
    obtain ⟨-, hbelow, hapart⟩ := leavesAll_below (α := α) rest hn.2 hd.2.2 hm
    refine ⟨fun _ => List.append_ne_nil_of_left_ne_nil hfirst.ne_nil _, ?_, ?_⟩
    · refine List.forall_mem_append.mpr ⟨fun l hl => ?_, fun l hl => ?_⟩
      · exact ⟨f, List.mem_cons_self, hd.1, hfirst.below l hl⟩
      · obtain ⟨g, hg, hleads⟩ := hbelow l hl
        exact ⟨g, List.mem_cons_of_mem f hg, hleads⟩
    · refine List.pairwise_append.mpr ⟨hfirst.apart, hapart, fun l hl l' hl' => ?_⟩
      obtain ⟨tail, htail, -⟩ := hfirst.below l hl
      obtain ⟨g, hg, -, tail', htail', -⟩ := hbelow l' hl'
      have hne : f.name ≠ g.name := fun heq => hn.1 (heq ▸ List.mem_map_of_mem hg)
      exact fieldsApart_of_ne hne ⟨tail, htail.symm⟩ ⟨tail', htail'.symm⟩

end

/-- A block means the scalars inside an element, and a new element has a place for each. -/
theorem LeavesBelow.reached {α : Type} {blank : Datum α} {leaves : List Leaf}
    (h : LeavesBelow blank [] leaves) {l : Leaf} (hl : l ∈ leaves) :
    AllMeant l.fields ∧ blank.part? l.fields = some .null := by
  obtain ⟨tail, htail, hmeant, hpart⟩ := h.below l hl
  rw [htail]
  exact ⟨hmeant, hpart⟩

/-! ## The locals of a copy -/

/-- The array of a scalar inside the elements of the table at a path. -/
def Work.arrayOf? (w : Work) (s : Setting) (path : Path) (l : Leaf) : Option String :=
  w.names.given s.package (arrayLong (path.elements ++ l.path))

section Locals

variable {s : Setting} {P : String → Prop} {path : Path} {leaves : List Leaf} {x : String}
  {w w₂ : Work} {columns : List Carried} {direction : Direction}

theorem Work.ne_nextIndex {x : String} {c : Char} (h : x.toList.head? = some c ∨
    x.toList.head? = some '_') (hc : c ≠ 'i') (w : Work) : x ≠ w.nextIndex := by
  rintro rfl
  have hi : w.nextIndex.toList.head? = some 'i' := head?_loopIdent _
  rw [hi] at h
  rcases h with h | h
  · exact hc (Option.some.inj h).symm
  · exact absurd (Option.some.inj h) (by decide)

/-- A loop index changes no array. -/
theorem Work.arrayOf?_withLoop (w : Work) (s : Setting) (path : Path) :
    w.withLoop.arrayOf? s path = w.arrayOf? s path := by
  funext l
  rw [Work.arrayOf?, Work.withLoop, Work.withDecl_names]
  rfl

/-- **The locals of a copy are apart**: the arrays of the columns by assumption, all others by the
names they are given. -/
theorem Carriage.localsApart (h : Carriage s P path.elements direction w leaves columns w₂)
    (hw : w.names.Reached) {field : String}
    (hx : w.names.given s.package (bridgeLong field) = some x)
    (hd : (leaves.map (w₂.arrayOf? s path)).Nodup) : LocalsApart columns x w₂.nextIndex := by
  have hreached := h.grows.reached hw
  have hx₂ := h.grows.given hx
  refine ⟨?_, ?_, ?_, ?_⟩
  · have hgiven : leaves.map (w₂.arrayOf? s path) = (columns.map Carried.array).map some := by
      rw [← h.carried, List.map_map, List.map_map]
      exact List.map_congr_left h.given
    rw [hgiven] at hd
    exact hd.of_map some
  · rintro ⟨c, hc, rfl⟩
    exact arrayLong_ne_bridgeLong _ _ (hreached.given_inj (h.given c hc) hx₂)
  · rintro ⟨c, hc, heq⟩
    exact Work.ne_nextIndex (head?_of_array hreached (h.given c hc)) (by decide) w₂ heq
  · exact Work.ne_nextIndex (head?_of_bridge hreached hx₂) (by decide) w₂

theorem Carriage.nodup_positions (h : Carriage s P path.elements direction w leaves columns w₂) :
    (columns.map Carried.position).Nodup := by
  rw [h.positions]
  exact List.nodup_range'

/-- Every scalar has a column, at the position after those of the scalars before it. -/
theorem Carriage.exists_column (h : Carriage s P path.elements direction w leaves columns w₂)
    {k : Nat} {l : Leaf} (hl : leaves[k]? = some l) :
    ∃ c ∈ columns, c.leaf = l ∧ c.position = w.slots.length + 1 + k := by
  rw [← h.carried, List.getElem?_map, Option.map_eq_some_iff] at hl
  obtain ⟨c, hc, rfl⟩ := hl
  exact ⟨c, List.mem_of_getElem? hc, rfl, h.position_eq hc⟩

end Locals

/-! ## What lowering writes -/

/-- Lowering wrote statements for a table inside the local `x` of a composite, and no two scalars
inside the elements share an array. -/
structure Lowered (lower : Lower (List Stmt)) (s : Setting) (path : Path) (leaves : List Leaf)
    (x : String) (w : Work) (stmts : List Stmt) (w' : Work) : Prop where
  gives : Gives lower w stmts w'
  reached : w.names.Reached
  bridge : ∃ field, w.names.given s.package (bridgeLong field) = some x
  distinct : (leaves.map (w'.arrayOf? s path)).Nodup

/-- The placeholders from a position on hold arrays without gaps. -/
def MarksHold {α : Type} (m : Memory α) (start : Nat) (leaves : List Leaf)
    (cells : Leaf → List (Datum α)) : Prop :=
  ∀ (k : Nat) (l : Leaf), leaves[k]? = some l → m.marks (start + k) = array (cells l)

/-- The arrays of a table hold values without gaps, and so do their placeholders. -/
structure ColumnsHold {α : Type} (m : Memory α) (s : Setting) (path : Path) (leaves : List Leaf)
    (w w' : Work) (cells : Leaf → List (Datum α)) : Prop where
  arrays : ∀ l ∈ leaves, ∃ array, w'.arrayOf? s path l = some array ∧
    m.locals array = Datum.array (cells l)
  marks : MarksHold m (w.slots.length + 1) leaves cells

/-- A table can be read: it has some rows, its elements have the scalars they should have, and the
arrays are there. -/
structure TableReady {α : Type} (m : Memory α) (s : Setting) (path : Path) (leaves : List Leaf)
    (nested : Bool) (place : Expr) (w' : Work) (rows : List (Int × Datum α)) : Prop where
  table : ∃ v, place.eval m = some v ∧ TableOf nested v rows
  elements : ∀ r ∈ rows, HasLeaves leaves r.2
  arrays : ∀ l ∈ leaves, ∀ array, w'.arrayOf? s path l = some array →
    ∃ stored, m.locals array = .table none .null stored

section Copies

variable {α : Type} {m : Memory α} {s : Setting} {a elem : Argument} {typeName : Option String}
  {nested : Bool} {place : Expr} {path : Path} {leaves : List Leaf} {x : String}
  {fs : List String} {w w' : Work} {stmts : List Stmt}

/-- The scalars that lowering finds are those inside an element. -/
theorem leaves_eq_of_gives {name : String} {found : List Leaf} {w₁ : Work}
    (h : Gives (elementLeaves s name (some elem)) w found w₁)
    (hleaves : leavesOf s.label elem = .ok leaves) : found = leaves ∧ w₁ = w := by
  obtain ⟨hfound, hw⟩ := gives_ofExcept.mp h
  exact ⟨Except.ok.inj (hfound.symm.trans hleaves), hw⟩

theorem gives_lowerOut (hshape : a.shape = .table typeName (some elem) nested false)
    (hleaves : leavesOf s.label elem = .ok leaves)
    (h : Gives (a.lowerOut s place path) w stmts w') :
    ∃ columns w₂, Carriage s (fun _ => True) path.elements .output w leaves columns w₂ ∧
      w' = w₂.withLoop ∧
      stmts = copyOut place (.var w₂.nextIndex) nested s.capacity columns := by
  obtain ⟨name, direction, hasDefault, shape⟩ := a
  cases hshape
  obtain ⟨found, w₁, columns, w₂, hl, hc, hw, hstmts⟩ := gives_tableOut h
  obtain ⟨rfl, rfl⟩ := leaves_eq_of_gives hl hleaves
  exact ⟨columns, w₂, carriage_of_carry (List.mem_append_right _ List.mem_cons_self) hc, hw, hstmts⟩

theorem gives_lowerIn (hshape : a.shape = .table typeName (some elem) nested false)
    (hleaves : leavesOf s.label elem = .ok leaves)
    (h : Gives (a.lowerIn s place path) w stmts w') :
    ∃ columns w₂ nestedType,
      Carriage s (fun _ => True) path.elements .input w leaves columns w₂ ∧
      w' = w₂.withLoop ∧ (∀ name ∈ nestedType, name ∈ typeName) ∧ nestedType.isSome = nested ∧
      stmts = copyIn place (.var w₂.nextIndex) nestedType columns := by
  obtain ⟨name, direction, hasDefault, shape⟩ := a
  cases hshape
  obtain ⟨found, w₁, columns, w₂, nestedType, hl, hc, hw, htype, hnested, hstmts⟩ :=
    gives_tableIn h
  obtain ⟨rfl, rfl⟩ := leaves_eq_of_gives hl hleaves
  have he : .each ∈ path.elements := List.mem_append_right _ List.mem_cons_self
  exact ⟨columns, w₂, nestedType, carriage_of_carry he hc, hw, htype, hnested, hstmts⟩

/-- **The statements that read a table** put the scalars of its first rows into the arrays. -/
theorem runs_lowerOut {rows : List (Int × Datum α)}
    (hshape : a.shape = .table typeName (some elem) nested false)
    (hleaves : leavesOf s.label elem = .ok leaves) (hmeant : elem.FieldsMeant)
    (h : Lowered (a.lowerOut s ((Expr.var x).select fs) path) s path leaves x w stmts w')
    (hm : TableReady m s path leaves nested ((Expr.var x).select fs) w' rows) :
    ∃ m', Runs stmts m .onward m' ∧ ColumnsHold m' s path leaves w w'
      (fun l => (rows.take s.capacity).map fun r => l.value r.2) := by
  obtain ⟨columns, w₂, hcarriage, rfl, rfl⟩ := gives_lowerOut hshape hleaves h.gives
  obtain ⟨field, hx⟩ := h.bridge
  have harray : ∀ c ∈ columns, w₂.withLoop.arrayOf? s path c.leaf = some c.array := fun c hc => by
    rw [w₂.arrayOf?_withLoop s path]
    exact hcarriage.given c hc
  have hdistinct := w₂.arrayOf?_withLoop s path ▸ h.distinct
  have hbelow : LeavesBelow (elem.blank : Datum α) [] leaves :=
    Argument.leavesBelow elem hmeant hleaves
  obtain ⟨v, hv, htable⟩ := hm.table
  obtain ⟨m', hruns, hheld, hmarks⟩ := runs_copyOut s.capacity
    (hcarriage.localsApart h.reached hx hdistinct)
    (fun c hc => (hbelow.reached (hcarriage.leaf_mem hc)).1) hcarriage.nodup_positions hv htable
    (hcarriage.carried ▸ hm.elements)
    fun c hc => hm.arrays c.leaf (hcarriage.leaf_mem hc) c.array (harray c hc)
  refine ⟨m', hruns, fun l hl => ?_, fun k l hl => ?_⟩
  · obtain ⟨c, hc, rfl⟩ := List.mem_map.mp (hcarriage.carried ▸ hl)
    exact ⟨c.array, harray c hc, hheld c hc⟩
  · obtain ⟨c, hc, rfl, hposition⟩ := hcarriage.exists_column hl
    rw [← hposition, hmarks c hc]
    exact hheld c hc

/-- The placeholders hold the arrays of the columns. -/
theorem Carriage.marks {columns : List Carried} {w₂ : Work} {cells : Leaf → List (Datum α)}
    (h : Carriage s (fun _ => True) path.elements .input w leaves columns w₂)
    (hmarks : MarksHold m (w.slots.length + 1) leaves cells) {c : Carried} (hc : c ∈ columns) :
    m.marks c.position = array (cells c.leaf) := by
  obtain ⟨k, hk⟩ := List.mem_iff_getElem?.mp hc
  rw [h.position_eq hk]
  refine hmarks k c.leaf ?_
  rw [← h.carried, List.getElem?_map, hk]
  rfl

theorem Fillable.of_nestedType {nestedType : Option String} {blank t : Datum α}
    (h : Fillable m nestedType.isSome typeName blank t)
    (htype : ∀ name ∈ nestedType, name ∈ typeName) :
    Fillable m nestedType.isSome nestedType blank t := by
  cases nestedType with
  | none => exact h
  | some name => exact fun n hn => h n (htype n hn)

/-- **The statements that fill a table** make an element for each place of the arrays. -/
theorem runs_lowerIn {cells : Leaf → List (Datum α)} {count : Nat} {t : Datum α}
    (hshape : a.shape = .table typeName (some elem) nested false)
    (hleaves : leavesOf s.label elem = .ok leaves) (hmeant : elem.FieldsMeant) (hfs : AllMeant fs)
    (h : Lowered (a.lowerIn s ((Expr.var x).select fs) path) s path leaves x w stmts w')
    (hcount : ∀ l ∈ leaves, (cells l).length = count)
    (hmarks : MarksHold m (w.slots.length + 1) leaves cells)
    (ht : (m.locals x).part? fs = some t) (hfillable : Fillable m nested typeName elem.blank t) :
    ∃ m' es, Runs stmts m .onward m' ∧ es.length = count ∧
      (m'.locals x).part? fs = some (filled (roomFor nested count) elem.blank es) ∧
      ∀ l ∈ leaves, es.map (fun e => e.select? l.fields) = (cells l).map some := by
  obtain ⟨columns, w₂, nestedType, hcarriage, rfl, htype, rfl, rfl⟩ :=
    gives_lowerIn hshape hleaves h.gives
  obtain ⟨field, hx⟩ := h.bridge
  have hdistinct := w₂.arrayOf?_withLoop s path ▸ h.distinct
  have hbelow : LeavesBelow (elem.blank : Datum α) [] leaves :=
    Argument.leavesBelow elem hmeant hleaves
  have hne : columns ≠ [] := by
    rintro rfl
    exact hbelow.ne_nil hcarriage.carried.symm
  have hapart : CellsApart columns := by
    have hleaf := hbelow.apart
    rwa [← hcarriage.carried, List.pairwise_map] at hleaf
  obtain ⟨m', es, hruns, hlength, hrowed⟩ := runs_copyIn hne
    (hcarriage.localsApart h.reached hx hdistinct) hfs
    (fun c hc => (hbelow.reached (hcarriage.leaf_mem hc)).1) hapart
    (fun c hc => ⟨_, (hbelow.reached (hcarriage.leaf_mem hc)).2⟩)
    (fun c hc => hcarriage.marks hmarks hc)
    (fun c hc => hcount c.leaf (hcarriage.leaf_mem hc)) ht (hfillable.of_nestedType htype)
  refine ⟨m', es, hruns, hlength, hlength ▸ hrowed.place, fun l hl => ?_⟩
  have hall := hcount l hl
  obtain ⟨c, hc, rfl⟩ := List.mem_map.mp (hcarriage.carried ▸ hl)
  have hrows := hrowed.rows c hc
  rw [hlength, List.take_of_length_le hall.le] at hrows
  rw [← hrows]
  refine List.map_congr_left fun e he => ?_
  -- Every element has a part there, and it is what the fields lead to.
  have hpart : e.part? c.leaf.fields ∈ (cells c.leaf).map some := hrows ▸ List.mem_map_of_mem he
  obtain ⟨d, -, hd⟩ := List.mem_map.mp hpart
  rw [← hd, select?_of_part? hd.symm]

/-- **The statements that fill a table end in an exception** if a new element does not take its
first scalar and there is a place in the arrays. -/
theorem not_runs_lowerIn {cells : Leaf → List (Datum α)} {count : Nat} {t blank : Datum α}
    {l : Leaf} {rest : List Leaf} (hshape : a.shape = .table typeName (some elem) nested false)
    (hleaves : leavesOf s.label elem = .ok (l :: rest)) (hfs : AllMeant fs)
    (h : Lowered (a.lowerIn s ((Expr.var x).select fs) path) s path (l :: rest) x w stmts w')
    (hcount : ∀ l' ∈ l :: rest, (cells l').length = count) (hpos : 0 < count)
    (hmarks : MarksHold m (w.slots.length + 1) (l :: rest) cells)
    (ht : (m.locals x).part? fs = some t) (hfillable : Fillable m nested typeName blank t)
    (hrefused : ∀ steps ∈ accesses? l.fields, ∀ d : Datum α, d.put steps blank = none)
    {f : Flow} {m' : Memory α} : ¬ Runs stmts m f m' := by
  obtain ⟨columns, w₂, nestedType, hcarriage, rfl, htype, rfl, rfl⟩ :=
    gives_lowerIn hshape hleaves h.gives
  obtain ⟨field, hx⟩ := h.bridge
  have hdistinct := w₂.arrayOf?_withLoop s path ▸ h.distinct
  cases columns with
  | nil => cases hcarriage.carried
  | cons driver others =>
    obtain ⟨rfl, -⟩ := List.cons.inj hcarriage.carried
    exact not_runs_copyIn (hcarriage.localsApart h.reached hx hdistinct) hfs
      (fun c hc => hcarriage.marks hmarks hc)
      (fun c hc => hcount c.leaf (hcarriage.leaf_mem hc)) hpos ht (hfillable.of_nestedType htype)
      hrefused

/-- **Copies of a table keep its elements**, if a block means the fields of the elements. Reading
it, sparse or null, fills every array and its placeholder with the scalars of the first elements by
ascending index, at 1 and on. Filling it from arrays of one length makes as many elements, at 1 and
on, if new elements are made of records. So a table that is read and then filled from what was read
has the first elements again, without the gaps. -/
theorem Argument.table_copied (hshape : a.shape = .table typeName (some elem) nested false)
    (hleaves : leavesOf s.label elem = .ok leaves) (hmeant : elem.FieldsMeant) :
    (∀ {path x fs w out w'} {m : Memory α} {rows},
      Lowered (a.lowerOut s ((Expr.var x).select fs) path) s path leaves x w out w' →
      TableReady m s path leaves nested ((Expr.var x).select fs) w' rows →
      ∃ m', Runs out m .onward m' ∧ ColumnsHold m' s path leaves w w'
        (fun l => (rows.take s.capacity).map fun r => l.value r.2)) ∧
    (∀ {path x fs w into w'} {m : Memory α} {cells : Leaf → List (Datum α)} {count t},
      AllMeant fs →
      Lowered (a.lowerIn s ((Expr.var x).select fs) path) s path leaves x w into w' →
      (∀ l ∈ leaves, (cells l).length = count) →
      MarksHold m (w.slots.length + 1) leaves cells →
      (m.locals x).part? fs = some t → Fillable m nested typeName elem.blank t →
      ∃ m' es, Runs into m .onward m' ∧ es.length = count ∧
        (m'.locals x).part? fs = some (filled (roomFor nested count) elem.blank es) ∧
        ∀ l ∈ leaves, es.map (fun e => e.select? l.fields) = (cells l).map some) ∧
    ∀ {path x fs w out w'} {path' x' fs' v into v'} {m m₁ m₂ : Memory α} {rows t},
      AllMeant fs' →
      Lowered (a.lowerOut s ((Expr.var x).select fs) path) s path leaves x w out w' →
      Lowered (a.lowerIn s ((Expr.var x').select fs') path') s path' leaves x' v into v' →
      TableReady m s path leaves nested ((Expr.var x).select fs) w' rows →
      Runs out m .onward m₁ →
      (∀ k < leaves.length,
        m₂.marks (v.slots.length + 1 + k) = m₁.marks (w.slots.length + 1 + k)) →
      (m₂.locals x').part? fs' = some t → Fillable m₂ nested typeName elem.blank t →
      ∃ m' es, Runs into m₂ .onward m' ∧ es.length = min s.capacity rows.length ∧
        (m'.locals x').part? fs' = some (filled (roomFor nested es.length) elem.blank es) ∧
        ∀ l ∈ leaves, es.map (fun e => e.select? l.fields) =
          (rows.take s.capacity).map fun r => r.2.select? l.fields := by
  refine ⟨runs_lowerOut hshape hleaves hmeant, runs_lowerIn hshape hleaves hmeant, ?_⟩
  intro path x fs w out w' path' x' fs' v into v' m m₁ m₂ rows t hfs hout hinto hm hruns hpassed ht
    hfillable
  obtain ⟨m₁', hruns', hcolumns⟩ := runs_lowerOut hshape hleaves hmeant hout hm
  obtain ⟨-, rfl⟩ := hruns.unique hruns'
  have hmarks : MarksHold m₂ (v.slots.length + 1) leaves
      (fun l => (rows.take s.capacity).map fun r => l.value r.2) := fun k l hl => by
    obtain ⟨hk, -⟩ := List.getElem?_eq_some_iff.mp hl
    exact (hpassed k hk).trans (hcolumns.marks k l hl)
  obtain ⟨m', es, hfill, hlength, hplace, hvalues⟩ := runs_lowerIn hshape hleaves hmeant hfs hinto
    (fun l _ => by rw [List.length_map, List.length_take]) hmarks ht hfillable
  refine ⟨m', es, hfill, hlength, hlength ▸ hplace, fun l hl => ?_⟩
  rw [hvalues l hl, List.map_map]
  refine List.map_congr_left fun r hr => ?_
  exact ((hm.elements r (List.mem_of_mem_take hr)).select?_eq hl).symm

end Copies

/-- A record with a record inside. -/
def rateElement : Argument where
  name := ""
  direction := .both
  shape := .record (some "BILLING.RATE") [
    { name := "CODE", direction := .both, shape := .scalar (.named "VARCHAR2") },
    { name := "SPAN", direction := .both, shape := .record (some "BILLING.SPAN") [
      { name := "LOW", direction := .both, shape := .scalar (.named "NUMBER") },
      { name := "HIGH", direction := .both, shape := .scalar (.named "NUMBER") }] }]

/-- A nested table of records. -/
def rates : Argument where
  name := "P_RATES"
  direction := .both
  shape := .table (some "BILLING.RATE_LIST") (some rateElement) true false

/-- Arrays of two elements. -/
def ratesSetting : Setting := ⟨"BILLING.PRICE", "BILLING", 2⟩

/-- The local of the rates is there. -/
def ratesWork : Work := { names := (Names.ident [] "BILLING" (bridgeLong "p_rates")).2 }

/-- The scalars inside a rate. -/
def rateLeaves : List Leaf := [
  ⟨["CODE"], [.field "code"], .named "VARCHAR2"⟩,
  ⟨["SPAN", "LOW"], [.field "span", .field "low"], .named "NUMBER"⟩,
  ⟨["SPAN", "HIGH"], [.field "span", .field "high"], .named "NUMBER"⟩]

/-- A rate without an upper end. -/
def rate (code low : String) : Datum String :=
  .record [("CODE", .scalar code), ("SPAN", .record [("LOW", .scalar low), ("HIGH", .null)])]

/-- Three rates with gaps between their indices, and arrays with something in them. -/
def ratesMemory : Memory String where
  locals y :=
    if y = "v_p_rates" then
      .table (some 9) rateElement.blank
        [(5, rate "B" "10"), (2, rate "A" "1"), (9, rate "C" "100")]
    else .table none .null [(3, .scalar "old")]
  marks _ := .null
  fresh _ := rateElement.blank

/-- The memory in which the next call starts, with the placeholders of one before. -/
def nextCall (m : Memory String) : Memory String where
  locals _ := .null
  marks := m.marks
  fresh _ := rateElement.blank

/-- Reading the rates. -/
def ratesOut : Lower (List Stmt) :=
  rates.lowerOut ratesSetting ((Expr.var "v_p_rates").select []) [.field "p_rates"]

/-- Filling a table in the place of the rates. -/
def fillRates (a : Argument) : Lower (List Stmt) :=
  a.lowerIn ratesSetting ((Expr.var "v_p_rates").select []) [.field "p_rates"]

theorem exists_lowered_rates {lower : Lower (List Stmt)} (leaves : List Leaf)
    (hok : (lower.run ratesWork).1.isOk = true)
    (hapart : (leaves.map
      ((lower.run ratesWork).2.arrayOf? ratesSetting [.field "p_rates"])).Nodup) :
    ∃ stmts, Lowered lower ratesSetting [.field "p_rates"] leaves "v_p_rates" ratesWork stmts
      (lower.run ratesWork).2 := by
  have hbridge : ratesWork.names.given "BILLING" (bridgeLong "p_rates") = some "v_p_rates" := by
    decide +kernel
  rcases hrun : lower.run ratesWork with ⟨_ | stmts, w'⟩
  · rw [hrun] at hok
    cases hok
  · exact ⟨stmts, hrun, .ident .start _ _, ⟨"p_rates", hbridge⟩, hrun ▸ hapart⟩

theorem leavesOf_rateElement : leavesOf ratesSetting.label rateElement = .ok rateLeaves := rfl

/-- The rates at 2 and 5 are read, and come back at 1 and 2. -/
theorem rates_table_copied : ∃ out w' into v',
    Gives ratesOut ratesWork out w' ∧ Gives (fillRates rates) ratesWork into v' ∧
    ∃ m₁ m' e₁ e₂, Runs out ratesMemory .onward m₁ ∧
      Runs into (nextCall m₁) .onward m' ∧
      m'.locals "v_p_rates" = .table (some 2) rateElement.blank [(1, e₁), (2, e₂)] ∧
      [e₁, e₂].map (fun e => e.select? ["CODE"]) = [some (.scalar "A"), some (.scalar "B")] ∧
      [e₁, e₂].map (fun e => e.select? ["SPAN", "LOW"]) =
        [some (.scalar "1"), some (.scalar "10")] ∧
      [e₁, e₂].map (fun e => e.select? ["SPAN", "HIGH"]) = [some .null, some .null] := by
  have hokOut : (ratesOut.run ratesWork).1.isOk = true := by decide +kernel
  have hokIn : ((fillRates rates).run ratesWork).1.isOk = true := by decide +kernel
  obtain ⟨out, hout⟩ := exists_lowered_rates rateLeaves hokOut (by decide +kernel)
  obtain ⟨into, hinto⟩ := exists_lowered_rates rateLeaves hokIn (by decide +kernel)
  have hother : ∀ l ∈ rateLeaves,
      (ratesOut.run ratesWork).2.arrayOf? ratesSetting [.field "p_rates"] l ≠ some "v_p_rates" := by
    decide +kernel
  have hsorted : ascending [(5, rate "B" "10"), (2, rate "A" "1"), (9, rate "C" "100")] =
      [(2, rate "A" "1"), (5, rate "B" "10"), (9, rate "C" "100")] := by
    simp [ascending, List.mergeSort]
  have hready : TableReady ratesMemory ratesSetting [.field "p_rates"] rateLeaves true
      ((Expr.var "v_p_rates").select []) (ratesOut.run ratesWork).2
      [(2, rate "A" "1"), (5, rate "B" "10"), (9, rate "C" "100")] := by
    refine ⟨⟨_, rfl, hsorted ▸ .rows (by simp [Assoc.Keyed])⟩, ?_, fun l hl array harray => ?_⟩
    · simp [HasLeaves, rateLeaves, rate, select?, field?, Assoc.get?]
    · have hne : array ≠ "v_p_rates" := fun heq => hother l hl (heq ▸ harray)
      exact ⟨_, if_neg hne⟩
  have hnames : ∀ n ∈ ["CODE", "SPAN", "LOW", "HIGH"], IsMeant n := by decide +kernel
  have hmeant : rateElement.FieldsMeant := by
    simp [rateElement, Argument.FieldsMeant, Shape.FieldsMeant, fieldsMeantAll, hnames]
  have hcopied := Argument.table_copied (α := String) (a := rates) rfl leavesOf_rateElement hmeant
  obtain ⟨m₁, hread, -⟩ := hcopied.1 hout hready
  have hmarks : ∀ k < rateLeaves.length, (nextCall m₁).marks (ratesWork.slots.length + 1 + k) =
      m₁.marks (ratesWork.slots.length + 1 + k) := fun _ _ => rfl
  have hnull : ((nextCall m₁).locals "v_p_rates").part? [] = some .null := rfl
  obtain ⟨m', es, hfill, hlength, hplace, hvalues⟩ :=
    hcopied.2.2 allMeant_nil hout hinto hready hread hmarks hnull fun _ _ => rfl
  obtain ⟨e₁, e₂, rfl⟩ := List.length_eq_two.mp hlength
  refine ⟨out, _, into, _, hout.gives, hinto.gives, m₁, m', e₁, e₂, hread, hfill,
    Option.some.inj hplace, ?_⟩
  simpa [rateLeaves, rate, ratesSetting, select?, field?, Assoc.get?] using hvalues

/-! ## Tables that are not filled -/

/-- A record with one field. -/
def tagElement (field : String) : Argument where
  name := ""
  direction := .both
  shape := .record (some "BILLING.TAG") [
    { name := field, direction := .both, shape := .scalar (.named "VARCHAR2") }]

/-- A nested table of such records. -/
def tags (field : String) : Argument :=
  { rates with shape := .table (some "BILLING.TAG_LIST") (some (tagElement field)) true false }

/-- The scalar inside a tag. -/
def tagLeaves (field : String) : List Leaf :=
  [⟨[field], [.field (Text.snake field)], .named "VARCHAR2"⟩]

/-- A memory in which the placeholders hold one scalar each, and a new element of any type is
`blank`. -/
def oneRow (blank : Datum String) : Memory String where
  locals _ := .null
  marks _ := array [.scalar "A"]
  fresh _ := blank

/-- No two scalars inside the elements of a table share an array, the placeholders hold arrays of
one length, and still the statements that fill the table have no run: an assignment is an
exception. -/
def NotFilled (a : Argument) (leaves : List Leaf) (blank : Datum String) : Prop :=
  ∃ into w', Lowered (fillRates a) ratesSetting [.field "p_rates"] leaves "v_p_rates" ratesWork into
      w' ∧ MarksHold (oneRow blank) (ratesWork.slots.length + 1) leaves (fun _ => [.scalar "A"]) ∧
    ∀ f m', ¬ Runs into (oneRow blank) f m'

/-- A tag is not filled if the block does not mean its field. -/
theorem notFilled_tags {field : String}
    (hok : ((fillRates (tags field)).run ratesWork).1.isOk = true)
    (hapart : ((tagLeaves field).map
      (((fillRates (tags field)).run ratesWork).2.arrayOf? ratesSetting
        [.field "p_rates"])).Nodup)
    (hfield : ¬ IsMeant field) :
    NotFilled (tags field) (tagLeaves field) (tagElement field).blank := by
  obtain ⟨into, hinto⟩ := exists_lowered_rates (tagLeaves field) hok hapart
  refine ⟨into, _, hinto, fun _ _ _ => rfl, fun f m' => ?_⟩
  refine not_runs_lowerIn (a := tags field) rfl rfl allMeant_nil hinto (fun _ _ => rfl) one_pos
    (fun _ _ _ => rfl) rfl (fun _ _ => rfl) (put_eq_none_of_first fun meant hmeant => ?_)
  have hne : field ≠ meant := by
    rintro rfl
    exact hfield hmeant
  simp [Argument.blank, Shape.blank, blankAll, part?, Assoc.get?, hne]

/-- **Records with small letters, records with reserved words and objects are not filled.** A tag
has a field `code`, and the block means a field `CODE`; or it has a field `SELECT`, and the block
means no field. A rate that is an object is null when it is new, and its fields cannot be
assigned. -/
theorem elements_not_filled :
    NotFilled (tags "code") (tagLeaves "code") (tagElement "code").blank ∧
    NotFilled (tags "SELECT") (tagLeaves "SELECT") (tagElement "SELECT").blank ∧
    NotFilled rates rateLeaves .null := by
  refine ⟨notFilled_tags (by decide +kernel) (by decide +kernel) (by decide +kernel),
    notFilled_tags (by decide +kernel) (by decide +kernel) (by decide +kernel), ?_⟩
  have hok : ((fillRates rates).run ratesWork).1.isOk = true := by decide +kernel
  obtain ⟨into, hinto⟩ := exists_lowered_rates rateLeaves hok (by decide +kernel)
  refine ⟨into, _, hinto, fun _ _ _ => rfl, fun f m' => ?_⟩
  exact not_runs_lowerIn (a := rates) rfl leavesOf_rateElement allMeant_nil hinto (fun _ _ => rfl)
    one_pos (fun _ _ _ => rfl) rfl (fun _ _ => rfl)
    (put_eq_none_of_first fun _ _ => rfl)

end StoredCall
