import StoredCall.Proofs.Stub.Declarations
import StoredCall.Proofs.Stub.SlotSources

/-!
# Arrays of columns

Every column of a table, that is every scalar inside its elements, is carried by an array of the
block. The array is named after the fields that lead to the column, joined by underscores, and a
name may hold underscores of its own. So two columns share one array exactly if their joined names
are the same, and then the array has the type of the first of them only.

* `Subprogram.columns` lists the columns of the tables of a call.
* `CarriedBy` says which variable carries a column in a block; it is exactly one.
* **`Subprogram.arraysApart_iff`**: columns have arrays of their own, of the right types, exactly if
  joined names tell columns apart.
-/

namespace StoredCall

open Text

/-! ## Columns -/

/-- The columns of the tables of a call: none if documents are passed instead. -/
def Subprogram.columns (f : Subprogram) : List (Path × Scalar) :=
  match f.replacement with
  | some _ => []
  | none => columnsOf f.wires

/-- A variable is assigned to or from the placeholder of a slot with the given path. -/
def CarriedBy (b : Block) (slots : List Slot) (path : Path) (x : String) : Prop :=
  ∃ slot ∈ slots, slot.path = path ∧ Carries b.body slot.position x

/-- Different columns are carried by different arrays, each of the type that its own column
needs. -/
structure ArraysApart (f : Subprogram) (b : Block) (slots : List Slot) : Prop where
  distinct : ∀ {c d : Path × Scalar} {x y : String}, c ∈ f.columns → d ∈ f.columns → c.1 ≠ d.1 →
    CarriedBy b slots c.1 x → CarriedBy b slots d.1 y → x ≠ y
  typed : ∀ {c : Path × Scalar} {x : String}, c ∈ f.columns → CarriedBy b slots c.1 x →
    ∃ t, .var x t ∈ b.decls ∧ .arrayType t c.2.elementDecl ∈ b.decls

/-- Columns with one path are one column. -/
theorem columnsOf_wires_inj {f : Subprogram} {c d : Path × Scalar} (hc : c ∈ columnsOf f.wires)
    (hd : d ∈ columnsOf f.wires) (h : c.1 = d.1) : c = d := by
  obtain ⟨path, s⟩ := c
  obtain ⟨path', s'⟩ := d
  obtain rfl : path = path' := h
  obtain ⟨-, _, hu⟩ := mem_columnsOf.mp hc
  obtain ⟨-, _, hv⟩ := mem_columnsOf.mp hd
  have hsame : f.wires.Pairwise fun u v => u.path = v.path → u.cargo = v.cargo := by
    refine f.wires_pairwise.imp fun hparts hpath => ?_
    rcases hparts with hapart | ⟨x, -, rfl, rfl⟩
    · exact absurd hpath hapart.ne
    · rfl
  have : Std.Symm fun u v : Wire => u.path = v.path → u.cargo = v.cargo :=
    ⟨fun _ _ h hp => (h hp.symm).symm⟩
  have hcargo := hsame.forall_of_forall (fun _ _ _ => rfl) hu hv rfl
  rw [Cargo.scalar.inj hcargo]

section Carriers

variable {s : Setting} {P : String → Prop} {w w' : Work} {b : Block} {wires : List Wire}
  {c : Path × Scalar} {x : String}

/-- **The variable that carries a column is the identifier of its joined name.** -/
theorem Emits.carriedBy_iff (he : Emits s P w wires b.body w') (hw : w.slots = [])
    (hc : c ∈ columnsOf wires) :
    CarriedBy b w'.slots c.1 x ↔ w'.names.given s.package (arrayLong c.1) = some x := by
  have hslots : w'.slots = addSlots s.capacity [] wires := by rw [he.slots, hw]
  have hlen : w.slots.length = 0 := by rw [hw, List.length_nil]
  obtain ⟨heach, d, hwire⟩ := mem_columnsOf.mp hc
  constructor
  · rintro ⟨slot, hslot, hpath, hx⟩
    rw [hslots] at hslot
    obtain ⟨i, hi⟩ := List.getElem?_of_mem hslot
    obtain ⟨wire, hwi, hs⟩ := exists_wire_of_slot hi
    have hwp : wire.path = c.1 := by
      rw [← hpath, hs]
      rfl
    obtain ⟨y, hy, hg⟩ := he.arrays i wire hwi (hwp ▸ heach)
    have hpos : slot.position = w.slots.length + 1 + i := by
      rw [position_of_addSlots hi, hlen]
      omega
    rw [hpos] at hx
    have hnodup : (placeholdersAll b.body).Nodup := he.marks ▸ List.nodup_range'
    rw [← hwp, hx.unique hnodup hy, hg]
  · intro hg
    obtain ⟨i, hi⟩ := List.getElem?_of_mem hwire
    obtain ⟨y, hy, hg'⟩ := he.arrays i _ hi heach
    obtain rfl : x = y := Option.some.inj (hg.symm.trans hg')
    have hslot := @slot_of_wire s.capacity wires i _ hi
    have hpos : w.slots.length + 1 + i = i + 1 := by omega
    rw [hpos] at hy
    rw [hslots]
    refine ⟨_, List.mem_of_getElem? hslot, rfl, ?_⟩
    rwa [position_of_addSlots hslot]

end Carriers

/-! ## Types of arrays -/

section Types

variable {s : Setting} {P : String → Prop} {w w' : Work} {columns : List (Path × Scalar)}
  {c : Path × Scalar} {x : String}

/-- **An array has the type that some column with its joined name needs.** -/
theorem Grows.exists_array_decl (h : Grows s P w columns w') (hd : w.decls = [])
    (hw : w.names.Reached) (hc : c ∈ columns)
    (hx : w'.names.given s.package (arrayLong c.1) = some x) :
    ∃ t, .var x t ∈ w'.decls ∧ ∃ c' ∈ columns, pathIdent c'.1 = pathIdent c.1 ∧
      .arrayType t c'.2.elementDecl ∈ w'.decls := by
  have hreached := h.reached hw
  obtain ⟨y, hy, hdecl⟩ := h.column_declared c hc
  obtain rfl : x = y := Option.some.inj (hx.symm.trans hy)
  obtain ⟨d, hm, hname⟩ := List.mem_map.mp hdecl
  have hknown := h.known hd hw d hm
  have hhead := head?_of_array hreached hx
  cases d with
  | var x' t =>
    obtain rfl : x' = x := hname
    rcases hknown with ⟨field, hf, -⟩ | ⟨k, rfl, -⟩ | ⟨c', hc', hg, ht⟩
    · exact absurd (hreached.given_inj hx hf) (arrayLong_ne_bridgeLong _ _)
    · rw [head?_loopIdent] at hhead
      simp at hhead
    · have hlong : arrayLong c'.1 = arrayLong c.1 := hreached.given_inj hg hx
      exact ⟨t, hm, c', hc', (String.append_right_inj _).mp hlong, ht⟩
  | arrayType t elem =>
    obtain rfl : t = x := hname
    obtain ⟨⟨k, -, rfl⟩, -⟩ := hknown
    rw [head?_typeIdent] at hhead
    simp at hhead

end Types

/-! ## When arrays are apart -/

namespace Subprogram

variable {f : Subprogram} {capacity : Nat} {names names' : Names} {b : Block} {slots : List Slot}

/-- Joined names tell the columns of a call apart. -/
def ColumnsTold (f : Subprogram) : Prop :=
  ∀ c ∈ f.columns, ∀ d ∈ f.columns, pathIdent c.1 = pathIdent d.1 → c.1 = d.1

theorem columns_of_direct (hr : f.replacement = none) : f.columns = columnsOf f.wires := by
  unfold columns
  rw [hr]

/-- What carries a column. -/
theorem carriedBy_iff (hr : f.replacement = none)
    (h : (f.lower capacity).run names = (.ok (b, slots), names')) {c : Path × Scalar} {x : String}
    (hc : c ∈ f.columns) :
    CarriedBy b slots c.1 x ↔ names'.given f.package (arrayLong c.1) = some x := by
  obtain ⟨loops, he⟩ := lower_run (P := fun _ => True) hr h fun _ _ => trivial
  exact he.carriedBy_iff rfl (columns_of_direct hr ▸ hc)

/-- A column is carried by one variable. -/
theorem existsUnique_carriedBy (hr : f.replacement = none)
    (h : (f.lower capacity).run names = (.ok (b, slots), names')) {c : Path × Scalar}
    (hc : c ∈ f.columns) : ∃! x, CarriedBy b slots c.1 x := by
  obtain ⟨loops, he⟩ := lower_run (P := fun _ => True) hr h fun _ _ => trivial
  obtain ⟨x, hx, -⟩ := he.grows.column_declared c (columns_of_direct hr ▸ hc)
  refine ⟨x, (carriedBy_iff hr h hc).mpr hx, fun y hy => ?_⟩
  have hy := (carriedBy_iff hr h hc).mp hy
  exact Option.some.inj (hy.symm.trans hx)

/-- Columns with one joined name share one array. -/
theorem exists_shared_array (hr : f.replacement = none)
    (h : (f.lower capacity).run names = (.ok (b, slots), names')) {c d : Path × Scalar}
    (hc : c ∈ f.columns) (hd : d ∈ f.columns) (hjoin : pathIdent c.1 = pathIdent d.1) :
    ∃ x, CarriedBy b slots c.1 x ∧ CarriedBy b slots d.1 x := by
  obtain ⟨x, hx, -⟩ := existsUnique_carriedBy hr h hc
  refine ⟨x, hx, (carriedBy_iff hr h hd).mpr ?_⟩
  have hlong : arrayLong d.1 = arrayLong c.1 := by rw [arrayLong, arrayLong, hjoin]
  rw [hlong]
  exact (carriedBy_iff hr h hc).mp hx

/-- Columns that are told apart have arrays of their own. -/
theorem arraysApart_of_columnsTold (hw : names.Reached) (hr : f.replacement = none)
    (h : (f.lower capacity).run names = (.ok (b, slots), names')) (htold : f.ColumnsTold) :
    ArraysApart f b slots := by
  obtain ⟨loops, he⟩ := lower_run (P := fun _ => True) hr h fun _ _ => trivial
  refine ⟨fun {c d x y} hc hd hne hx hy hxy => ?_, fun {c x} hc hx => ?_⟩
  · subst hxy
    have hx := (carriedBy_iff hr h hc).mp hx
    have hy := (carriedBy_iff hr h hd).mp hy
    have hlong : arrayLong c.1 = arrayLong d.1 := (he.grows.reached hw).given_inj hx hy
    exact hne (htold c hc d hd ((String.append_right_inj _).mp hlong))
  · have hx := (carriedBy_iff hr h hc).mp hx
    have hc' := columns_of_direct hr ▸ hc
    obtain ⟨t, hvar, c', hm, hjoin, ht⟩ := he.grows.exists_array_decl rfl hw hc' hx
    have hpath := htold c' (columns_of_direct hr ▸ hm) c hc hjoin
    rw [columnsOf_wires_inj hm hc' hpath] at ht
    exact ⟨t, hvar, ht⟩

/-- **Columns have arrays of their own, of the types they need, exactly if joined names tell them
apart.** Each column is carried by one variable, and no name is declared twice. -/
theorem arraysApart_iff (hw : names.Reached)
    (h : (f.lower capacity).run names = (.ok (b, slots), names')) :
    (∀ c ∈ f.columns, ∃! x, CarriedBy b slots c.1 x) ∧ (b.decls.map Decl.name).Nodup ∧
      (ArraysApart f b slots ↔ f.ColumnsTold) := by
  cases hr : f.replacement with
  | some r =>
    have hnone : f.columns = [] := by
      unfold columns
      rw [hr]
    obtain ⟨rfl, -⟩ := lowerReplacement_eq_ok (lower_run_replacement hr h)
    unfold ColumnsTold
    rw [hnone]
    refine ⟨fun _ hc => absurd hc List.not_mem_nil, List.nodup_nil,
      fun _ _ hc => absurd hc List.not_mem_nil, fun _ => ⟨fun hc => ?_, fun hc => ?_⟩⟩
    · exact absurd (hnone ▸ hc) List.not_mem_nil
    · exact absurd (hnone ▸ hc) List.not_mem_nil
  | none =>
    obtain ⟨loops, he⟩ := lower_run (P := fun _ => True) hr h fun _ _ => trivial
    refine ⟨fun c => existsUnique_carriedBy hr h, he.grows.nodup_decls List.nodup_nil, ?_,
      arraysApart_of_columnsTold hw hr h⟩
    intro hapart c hc d hd hjoin
    by_contra hne
    obtain ⟨x, hx, hy⟩ := exists_shared_array hr h hc hd hjoin
    exact hapart.distinct hc hd hne hx hy rfl

/-- Its columns apart from each other, `settle` has an array for each. -/
theorem settle_arraysApart : ∃ b slots names',
    (settle.lower 100).run [] = (.ok (b, slots), names') ∧
      settle.columns.length = 2 ∧ ArraysApart settle b slots := by
  have hok : ((settle.lower 100).run []).1.isOk = true := by decide +kernel
  have hlen : settle.columns.length = 2 := by decide +kernel
  have htold : settle.ColumnsTold := by
    unfold ColumnsTold
    decide +kernel
  rcases hrun : (settle.lower 100).run [] with ⟨_ | ⟨b, slots⟩, names'⟩
  · rw [hrun] at hok
    cases hok
  · exact ⟨b, slots, names', rfl, hlen, (arraysApart_iff .start hrun).2.2.mpr htold⟩

/-- Text of up to ten bytes. -/
def shortText : Scalar := { name := "VARCHAR2", length := some 10 }

/-- A table of records whose two columns are `b_c` and `c` inside `b`, of different types. -/
def load : Subprogram where
  package := "PKG"
  name := "LOAD"
  args := [
    { name := "P", direction := .input, shape := .table (some "PKG.ROWS_T") (some
      { name := "ROW", direction := .input, shape := .record (some "PKG.ROW_T") [
        { name := "B_C", direction := .input, shape := .scalar (.named "NUMBER") },
        { name := "B", direction := .input, shape := .record (some "PKG.B_T") [
          { name := "C", direction := .input, shape := .scalar shortText }] }] }) false false }]

/-- **Two columns of one table may share an array.** -/
theorem load_shares_array : ∃ b slots names' x, (load.lower 512).run [] = (.ok (b, slots), names') ∧
    CarriedBy b slots [.field "p", .each, .field "b_c"] x ∧
    CarriedBy b slots [.field "p", .each, .field "b", .field "c"] x ∧
    ¬ ArraysApart load b slots := by
  have hok : ((load.lower 512).run []).1.isOk = true := by decide +kernel
  have hc : ([.field "p", .each, .field "b_c"], .named "NUMBER") ∈ load.columns := by
    decide +kernel
  have hd : ([.field "p", .each, .field "b", .field "c"], shortText) ∈ load.columns := by
    decide +kernel
  rcases hrun : (load.lower 512).run [] with ⟨_ | ⟨b, slots⟩, names'⟩
  · rw [hrun] at hok
    cases hok
  · obtain ⟨x, hx, hy⟩ := exists_shared_array rfl hrun hc hd (by decide +kernel)
    exact ⟨b, slots, names', x, rfl, hx, hy, fun h => h.distinct hc hd (by decide) hx hy rfl⟩

end Subprogram

end StoredCall
