import StoredCall.Proofs.Schema.Mirror
import StoredCall.Proofs.Stub.Bindings
import StoredCall.Proofs.Stub.FieldNames

/-!
# The texts of a plan's paths

A call reads its request and fills its response by the texts of the paths of its slots, and the rows
of a cursor by those of its columns. A text leads to the same place as its path if it is read as the
path. Names of the catalog need not be plain: one in quotes may hold brackets, and an unnamed field
has no characters. A plan is made all the same, but then a text is refused or leads elsewhere.

* `Argument.plain_of_readable`: if the paths of all scalars of an argument can be read back, the
  names on the way to them are plain. No name is passed over, as empty records are refused.
* `Stub.exists_slot_of_entry`: each scalar of an argument or return value has a slot.
* **`Stub.parse_text_paths_iff`**: the paths of a plan come back from their texts exactly if the
  subprogram is called by documents or has plain names only.
-/

namespace StoredCall

open Text

/-! ## The names on the way to scalars -/

/-- The field of an argument whose scalars have paths that can be read back. -/
theorem Argument.fieldName_of_readable {label : String} {a : Argument} {inElement : Bool}
    (h : a.expressible label inElement = .ok ()) {path : Path} {name : String}
    (hr : ∀ x ∈ a.scalars (path.child name), x.1.Readable) : FieldName name := by
  have hne : a.scalars (path.child name) ≠ [] := a.scalars_ne_nil h
  obtain ⟨x, hx⟩ := List.exists_mem_of_ne_nil _ hne
  obtain ⟨q, hq⟩ := Argument.exists_of_mem_scalars hx
  refine hr x hx name ?_
  rw [hq, Path.child]
  simp

/-- Siblings whose fields can stand in texts, and whose names below are plain. -/
theorem plain_pathNamesAll {fields : List Argument}
    (h : ∀ e ∈ (fieldNames (fields.map Argument.name)).zip fields,
      FieldName e.1 ∧ ∀ n ∈ e.2.pathNames, PlainName n) :
    ∀ n ∈ pathNamesAll fields, PlainName n := by
  have hl : (fieldNames (fields.map Argument.name)).length = fields.length := by
    rw [length_fieldNames, List.length_map]
  intro n hn
  obtain ⟨a, ha, rfl | hn⟩ := mem_pathNamesAll.mp hn
  · refine plainName_of_fieldNames (fun field hfield => ?_) (List.mem_map_of_mem ha)
    rw [← List.map_fst_zip hl.le] at hfield
    obtain ⟨e, he, rfl⟩ := List.mem_map.mp hfield
    exact (h e he).1
  · rw [← List.map_snd_zip hl.ge] at ha
    obtain ⟨e, he, rfl⟩ := List.mem_map.mp ha
    exact (h e he).2 n hn

mutual

/-- **The names on the way to scalars are plain**, if the paths of all scalars can be read back. -/
theorem Argument.plain_of_readable {label : String} : ∀ (a : Argument) {inElement : Bool}
    {path : Path}, a.expressible label inElement = .ok () →
      (∀ x ∈ a.scalars path, x.1.Readable) → ∀ n ∈ a.pathNames, PlainName n
  | ⟨_, _, _, shape⟩, _, _, h, hr => Shape.plain_of_readable shape h hr

theorem Shape.plain_of_readable {label name : String} : ∀ (shape : Shape) {inElement : Bool}
    {path : Path}, shape.expressible label name inElement = .ok () →
      (∀ x ∈ shape.scalars path, x.1.Readable) → ∀ n ∈ shape.pathNames, PlainName n
  | .scalar _, _, _, _, _ => fun _ hn => absurd hn List.not_mem_nil
  | .record _ [], _, _, h, _ => by cases h
  | .record _ (f :: rest), _, _, h, hr =>
    plain_pathNamesAll (plain_of_readableAll (f :: rest) (by
      rw [length_fieldNames, List.length_map]) h hr)
  | .table _ _ _ _, true, _, h, _ => by cases h
  | .table _ none _ _, false, _, h, _ => by cases h
  | .table _ (some elem) _ _, false, _, h, hr => Argument.plain_of_readable elem h hr

theorem plain_of_readableAll {label : String} : ∀ (fields : List Argument) {path : Path}
    {names : List String}, names.length = fields.length → expressibleAll label fields = .ok () →
      (∀ x ∈ scalarsAll path names fields, x.1.Readable) →
        ∀ e ∈ names.zip fields, FieldName e.1 ∧ ∀ n ∈ e.2.pathNames, PlainName n
  | [], _, _, _, _, _ => by simp
  | _ :: _, _, [], hl, _, _ => absurd hl (by simp)
  | f :: rest, path, n :: names, hl, h, hr => by
    -- the field of a sibling is known from a scalar below it, so there has to be one
    obtain ⟨_, hf, hrest⟩ := except_bind_eq_ok.mp h
    have hr := List.forall_mem_append.mp hr
    rw [List.zip_cons_cons, List.forall_mem_cons]
    exact ⟨⟨Argument.fieldName_of_readable hf hr.1, Argument.plain_of_readable f hf hr.1⟩,
      plain_of_readableAll rest (Nat.succ.inj hl) hrest hr.2⟩

end

/-- All names on the way to the scalars of a call are plain, if their paths can be read back. -/
theorem Subprogram.plain_of_readable {f : Subprogram} (h : f.expressible = .ok ())
    (hr : ∀ e ∈ f.entries ++ f.returnEntries, ∀ x ∈ e.2.scalars [.field e.1], x.1.Readable) :
    ∀ n ∈ f.pathNames, PlainName n := by
  have h := List.forall_mem_append.mp (expressibleAll_eq_ok_iff.mp h)
  have hr := List.forall_mem_append.mp hr
  refine List.forall_mem_append.mpr ⟨plain_pathNamesAll fun e he => ?_, ?_⟩
  · have harg := h.1 e.2 (List.of_mem_zip he).2
    have hread : ∀ x ∈ e.2.scalars (Path.child [] e.1), x.1.Readable := hr.1 e he
    exact ⟨Argument.fieldName_of_readable harg hread, Argument.plain_of_readable e.2 harg hread⟩
  · rw [returnEntries_eq] at hr
    cases hret : f.returns with
    | none => exact fun _ hn => absurd hn List.not_mem_nil
    | some ret =>
      rw [hret] at h hr
      exact Argument.plain_of_readable ret (h.2 ret List.mem_cons_self) (hr.2 _ List.mem_cons_self)

/-! ## The paths of a plan -/

/-- The paths inside the rows of a cursor. -/
def SlotKind.columnPaths : SlotKind → List Path
  | .cursor columns => columns.map Column.path
  | _ => []

/-- The paths that a slot is handled by: its own, and those of the columns of a cursor. -/
def Slot.paths (slot : Slot) : List Path := slot.path :: slot.kind.columnPaths

/-- What a slot carries is reached by the paths that it is handled by. -/
theorem Slot.readable_leafPaths {slot : Slot} (h : ∀ p ∈ slot.paths, p.Readable) :
    ∀ p ∈ slot.leafPaths, p.Readable := by
  obtain ⟨hpath, hcolumns⟩ := List.forall_mem_cons.mp h
  intro p hp
  unfold leafPaths at hp
  split at hp
  · rename_i columns hk
    obtain ⟨c, hc, rfl⟩ := List.mem_map.mp hp
    rw [hk] at hcolumns
    exact (hpath.append Path.readable_each).append (hcolumns _ (List.mem_map_of_mem hc))
  · rw [List.mem_singleton.mp hp]
    exact hpath

/-- A wire that can be read back has a slot with paths that can. -/
theorem Wire.Readable.slot {wire : Wire} (h : wire.Readable) (capacity : Nat)
    (before : List Slot) : ∀ p ∈ (wire.slot capacity before).paths, p.Readable := by
  refine List.forall_mem_cons.mpr ⟨h.path, ?_⟩
  show ∀ p ∈ (wire.cargo.kind capacity wire.path).columnPaths, p.Readable
  cases hc : wire.cargo with
  | scalar s =>
    rw [Cargo.kind]
    split <;> exact fun _ hp => absurd hp List.not_mem_nil
  | cursor columns =>
    intro p hp
    obtain ⟨c, hm, rfl⟩ := List.mem_map.mp hp
    exact h.columns hc c hm

namespace Stub

variable {c : StubConfig} {f : Subprogram} {names names' : Names} {stub : Stub}

/-- Each scalar of an argument or of the return value is carried by a slot. -/
theorem exists_slot_of_entry (hr : f.replacement = none)
    (h : (generate c f).run names = (.ok stub, names')) {e : String × Argument}
    (he : e ∈ f.entries ++ f.returnEntries) {x : Path × Scalar}
    (hx : x ∈ e.2.scalars [.field e.1]) : ∃ slot ∈ stub.plan.slots, x.1 ∈ slot.leafPaths := by
  have hcrosses : ∀ {chosen : Direction → Bool}, Crosses chosen f.wires x.1 →
      ∃ slot ∈ stub.plan.slots, x.1 ∈ slot.leafPaths := fun hw => by
    obtain ⟨slot, hs, -, hp⟩ := (exists_slot_iff_crosses hr h).mpr hw
    exact ⟨slot, hs, hp⟩
  have hp : x.1 ∈ (e.2.scalars [.field e.1]).map Prod.fst := List.mem_map_of_mem hx
  rcases List.mem_append.mp he with he | he
  · rcases e.2.direction.isInput_or_isOutput with hd | hd
    · exact hcrosses (Subprogram.crosses_input.mpr
        (mem_pathsOf.mpr ⟨e, List.mem_filter.mpr ⟨he, hd⟩, hp⟩))
    · exact hcrosses (Subprogram.crosses_output.mpr
        (mem_pathsOf.mpr ⟨e, List.mem_append_right _ (List.mem_filter.mpr ⟨he, hd⟩), hp⟩))
  · exact hcrosses (Subprogram.crosses_output.mpr
      (mem_pathsOf.mpr ⟨e, List.mem_append_left _ he, hp⟩))

/-- The slots of a replacement stand for whole documents. -/
theorem paths_of_replacement {r : Replacement} (hr : f.replacement = some r)
    (h : (generate c f).run names = (.ok stub, names')) {slot : Slot}
    (hs : slot ∈ stub.plan.slots) : slot.paths = [[]] := by
  obtain ⟨block, slots, hlower, hplan⟩ := lower_of_generate h
  obtain ⟨-, hslots⟩ := lowerReplacement_eq_ok (Subprogram.lower_run_replacement hr hlower)
  have hs : slot ∈ slots := by
    rw [hplan] at hs
    exact hs
  rw [hslots] at hs
  obtain ⟨⟨direction, i⟩, -, rfl⟩ := List.mem_map.mp hs
  rfl

/-- **The paths of a plan come back from their texts exactly if the names on the way to scalars are
plain.** Every subprogram for which there is a plan is covered: one that is called by documents has
none but the path to a whole document, and any other has a path through each of its names. -/
theorem parse_text_paths_iff (h : (generate c f).run names = (.ok stub, names')) :
    (∀ slot ∈ stub.plan.slots, ∀ p ∈ slot.paths, Path.parse p.text = .ok p) ↔
      (f.replacement = none → ∀ n ∈ f.pathNames, PlainName n) := by
  simp only [Path.parse_text_iff]
  constructor
  · intro hall hr
    have hexpr := Subprogram.isExpressible_iff.mp (Subprogram.isExpressible_of_generate hr h)
    refine Subprogram.plain_of_readable hexpr fun e he x hx => ?_
    obtain ⟨slot, hs, hp⟩ := exists_slot_of_entry hr h he hx
    exact Slot.readable_leafPaths (hall slot hs) _ hp
  · intro hplain slot hs
    cases hr : f.replacement with
    | some r =>
      rw [paths_of_replacement hr h hs]
      exact List.forall_mem_singleton.mpr fun _ hm => absurd hm List.not_mem_nil
    | none =>
      obtain ⟨wire, hw, -, before, rfl⟩ := wire_of_generate hr h hs
      exact (Subprogram.readable_of_mem_wires (hplain hr) hw).slot _ before

/-- The paths of `dispatch` go through records, a table and the rows of a cursor, and come back from
their texts. -/
theorem dispatch_paths_parse : (∀ n ∈ Subprogram.dispatch.pathNames, PlainName n) ∧
    ∃ stub names', (generate {} Subprogram.dispatch).run [] = (.ok stub, names') ∧
      ∀ slot ∈ stub.plan.slots, ∀ p ∈ slot.paths, Path.parse p.text = .ok p := by
  have hplain : ∀ n ∈ Subprogram.dispatch.pathNames, PlainName n := by decide +kernel
  have hok : ((generate {} Subprogram.dispatch).run []).1.isOk = true := by decide +kernel
  rcases hrun : (generate {} Subprogram.dispatch).run [] with ⟨_ | stub, names'⟩
  · rw [hrun] at hok
    cases hok
  · exact ⟨hplain, stub, names', rfl, (parse_text_paths_iff hrun).mpr fun _ => hplain⟩

/-- A procedure with an argument whose name is quoted and holds brackets. -/
def setQuantity : Subprogram where
  package := "STOCK"
  name := "SET_QTY"
  args := [{ name := "QTY[KG]", direction := .input, shape := .scalar (.named "NUMBER") }]

/-- **A bracket in a name is refused when the call is made**, not when its plan is. -/
theorem setQuantity_path_malformed : ∃ stub names',
    (generate {} setQuantity).run [] = (.ok stub, names') ∧
      stub.plan.slots.map (fun slot => Path.parse slot.path.text) = [.error ⟨"qty[kg]"⟩] := by
  have hparse : ((generate {} setQuantity).run []).1.map (fun stub =>
      stub.plan.slots.map fun slot => Path.parse slot.path.text) = .ok [.error ⟨"qty[kg]"⟩] := by
    decide +kernel
  rcases hrun : (generate {} setQuantity).run [] with ⟨_ | stub, names'⟩
  · rw [hrun] at hparse
    cases hparse
  · rw [hrun] at hparse
    exact ⟨stub, names', rfl, Except.ok.inj hparse⟩

end Stub

end StoredCall
