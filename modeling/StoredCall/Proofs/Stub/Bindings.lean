import StoredCall.Proofs.Stub.Lower

/-!
# Every scalar is bound, and nothing else

Which slots a call has can be listed from the subprogram alone: the scalars inside composite inputs,
a return value that is a scalar or a cursor, the arguments that are, the scalars inside composite
outputs, and those of a composite return value. A scalar inside a table is one of many, so that its
slot carries an array; a cursor's slot lists the scalars of a row.

* `Argument.leafKinds` lists the scalars of an argument with what their slots carry.
* `Subprogram.bindings` lists what the slots of a call are for.
* **`Subprogram.map_binding_of_lower`**: the slots of a call are for this, in this order.
-/

namespace StoredCall

open Text

/-- What a slot is for: where its value is, which way it goes and what the slot carries. -/
structure Binding where
  path : Path
  direction : Direction
  kind : SlotKind
  deriving DecidableEq, Repr

/-- What a slot is for. -/
def Slot.binding (slot : Slot) : Binding := ⟨slot.path, slot.direction, slot.kind⟩

/-! ## What there is to bind -/

/-- What the slot of a scalar carries. Inside a table it is an array of so many at most. -/
def leafKind (capacity : Nat) (inTable : Bool) (s : Scalar) : SlotKind :=
  if inTable then .array s.kind capacity else .scalar s.kind

mutual

/-- The scalars of an argument in preorder, with what their slots carry. -/
def Argument.leafKinds (capacity : Nat) (inTable : Bool) (path : Path) :
    Argument → List (Path × SlotKind)
  | ⟨_, _, _, shape⟩ => shape.leafKinds capacity inTable path

/-- The scalars of a shape in preorder, with what their slots carry. -/
def Shape.leafKinds (capacity : Nat) (inTable : Bool) (path : Path) :
    Shape → List (Path × SlotKind)
  | .scalar s => [(path, leafKind capacity inTable s)]
  | .record _ fields =>
    leafKindsAll capacity inTable path (fieldNames (fields.map Argument.name)) fields
  | .table _ elem _ _ => leafKindsElem capacity path.elements elem

/-- The scalars of siblings that go by the given field names. -/
def leafKindsAll (capacity : Nat) (inTable : Bool) (path : Path) :
    (names : List String) → List Argument → List (Path × SlotKind)
  | _, [] => []
  | names, f :: rest =>
    f.leafKinds capacity inTable (path.child (names.headD ""))
      ++ leafKindsAll capacity inTable path names.tail rest

/-- The scalars of a table's element. -/
def leafKindsElem (capacity : Nat) (path : Path) : Option Argument → List (Path × SlotKind)
  | none => []
  | some elem => elem.leafKinds capacity true path

end

/-- The scalars of a composite that goes by a field name, in a direction. -/
def innerBindings (capacity : Nat) (direction : Direction) (e : String × Argument) :
    List Binding :=
  if e.2.shape.isComposite then
    (e.2.leafKinds capacity false [.field e.1]).map fun x => ⟨x.1, direction, x.2⟩
  else []

/-- A scalar or a cursor that goes by a field name, in a direction. -/
def ownBindings (direction : Direction) (e : String × Argument) : List Binding :=
  match e.2.shape with
  | .scalar s => [⟨[.field e.1], direction, .scalar s.kind⟩]
  | .table _ elem _ true => [⟨[.field e.1], direction, .cursor (rowColumns elem)⟩]
  | .record .. | .table _ _ _ false => []

/-- What there is to bind in a call, in order. -/
def Subprogram.bindings (f : Subprogram) (capacity : Nat) : List Binding :=
  (f.entries.filter fun e => e.2.direction.isInput).flatMap (innerBindings capacity .input)
    ++ f.returnEntries.flatMap (ownBindings .output)
    ++ f.entries.flatMap (fun e => ownBindings e.2.direction e)
    ++ (f.entries.filter fun e => e.2.direction.isOutput).flatMap (innerBindings capacity .output)
    ++ f.returnEntries.flatMap (innerBindings capacity .output)

/-! ## Wires and slots -/

/-- What the slot of a wire is for. -/
def Wire.binding (capacity : Nat) (w : Wire) : Binding :=
  ⟨w.path, w.direction, w.cargo.kind capacity w.path⟩

/-- The slots of wires are for what the wires are for. -/
theorem map_binding_addSlots (capacity : Nat) : ∀ (slots : List Slot) (wires : List Wire),
    (addSlots capacity slots wires).map Slot.binding =
      slots.map Slot.binding ++ wires.map (Wire.binding capacity)
  | slots, [] => (List.append_nil _).symm
  | slots, w :: rest => by
    rw [addSlots, map_binding_addSlots capacity _ rest, List.map_append, List.append_assoc]
    rfl

section Leaves

variable {capacity : Nat}

/-- What the slot of a scalar carries, by its path. -/
def scalarLeaf (capacity : Nat) (x : Path × Scalar) : Path × SlotKind :=
  (x.1, (Cargo.scalar x.2).kind capacity x.1)

theorem leafKind_eq {inTable : Bool} {path : Path} (h : inTable = true ↔ .each ∈ path)
    (s : Scalar) : leafKind capacity inTable s = (Cargo.scalar s).kind capacity path := by
  unfold leafKind Cargo.kind
  simp only [h]

theorem each_mem_child {path : Path} (name : String) :
    .each ∈ path.child name ↔ .each ∈ path := by
  simp [Path.child]

theorem each_mem_elements (path : Path) : .each ∈ path.elements := by
  simp [Path.elements]

mutual

/-- A scalar is inside a table exactly if its path goes through every element of one. -/
theorem Argument.leafKinds_eq : ∀ (a : Argument) {inTable : Bool} {path : Path},
    (inTable = true ↔ .each ∈ path) →
      a.leafKinds capacity inTable path = (a.scalars path).map (scalarLeaf capacity)
  | ⟨_, _, _, shape⟩, _, _, h => Shape.leafKinds_eq shape h

theorem Shape.leafKinds_eq : ∀ (shape : Shape) {inTable : Bool} {path : Path},
    (inTable = true ↔ .each ∈ path) →
      shape.leafKinds capacity inTable path = (shape.scalars path).map (scalarLeaf capacity)
  | .scalar s, _, path, h => by
    rw [Shape.leafKinds, leafKind_eq h]
    rfl
  | .record _ fields, _, _, h => leafKindsAll_eq fields h
  | .table _ elem _ _, _, path, _ => leafKindsElem_eq elem (each_mem_elements path)

theorem leafKindsAll_eq : ∀ (fields : List Argument) {inTable : Bool} {path : Path}
    {names : List String}, (inTable = true ↔ .each ∈ path) →
      leafKindsAll capacity inTable path names fields =
        (scalarsAll path names fields).map (scalarLeaf capacity)
  | [], _, _, _, _ => rfl
  | f :: rest, _, _, names, h => by
    rw [leafKindsAll, scalarsAll, List.map_append, leafKindsAll_eq rest h,
      Argument.leafKinds_eq f (h.trans (each_mem_child _).symm)]

theorem leafKindsElem_eq : ∀ (elem : Option Argument) {path : Path}, .each ∈ path →
    leafKindsElem capacity path elem = (scalarsElem path elem).map (scalarLeaf capacity)
  | none, _, _ => rfl
  | some elem, _, h => Argument.leafKinds_eq elem (iff_of_true rfl h)

end

end Leaves

section Entries

variable (capacity : Nat) (direction : Direction) (e : String × Argument)

theorem map_binding_leafWires :
    (leafWires direction e).map (Wire.binding capacity) = innerBindings capacity direction e := by
  unfold leafWires innerBindings
  split
  · rw [Argument.leafKinds_eq e.2 (by simp), List.map_map, List.map_map]
    rfl
  · rfl

theorem map_binding_directWires :
    (directWires direction e).map (Wire.binding capacity) = ownBindings direction e := by
  obtain ⟨field, name, position, own, shape⟩ := e
  have hflat : (.each : Step) ∉ [Step.field field] := by simp
  rcases shape with s | _ | ⟨_, elem, _, _ | _⟩
  · simp only [directWires, ownBindings, List.map_cons, List.map_nil, Wire.binding,
      Cargo.kind_scalar_of_notMem hflat]
  · rfl
  · rfl
  · rfl

end Entries

/-- The composites that go one way are those whose scalars have wires that way. -/
theorem flatMap_leafWires_filter (goes : Direction → Bool) (direction : Direction)
    (es : List (String × Argument)) :
    (es.filter fun e => goes e.2.direction).flatMap (leafWires direction) =
      es.flatMap fun e => if goes e.2.direction then leafWires direction e else [] := by
  rw [← List.filterMap_eq_filter, List.filterMap_eq_flatMap_toList, List.flatMap_assoc]
  refine List.flatMap_congr fun e _ => ?_
  cases hgoes : goes e.2.direction <;> simp [Option.guard, hgoes]

namespace Subprogram

/-- The wires of a call are for what there is to bind. -/
theorem map_binding_wires (f : Subprogram) (capacity : Nat) :
    f.wires.map (Wire.binding capacity) = f.bindings capacity := by
  have hfill : f.entries.flatMap fillWires = (f.entries.filter fun e =>
      e.2.direction.isInput).flatMap (leafWires .input) :=
    (flatMap_leafWires_filter Direction.isInput .input _).symm
  have hread : f.entries.flatMap readWires = (f.entries.filter fun e =>
      e.2.direction.isOutput).flatMap (leafWires .output) :=
    (flatMap_leafWires_filter Direction.isOutput .output _).symm
  unfold wires bindings
  simp only [hfill, hread, List.map_append, List.map_flatMap, map_binding_leafWires,
    map_binding_directWires]

/-- **Every scalar is bound, and nothing else.** The slots of a subprogram that is called itself are
for the scalars inside composite inputs, for a return value that is a scalar or a cursor, for the
arguments that are, and for the scalars inside composite outputs and a composite return value, in
this order. Arrays hold as many elements as the subprogram says, or else the setting. -/
theorem map_binding_of_lower {f : Subprogram} {capacity : Nat} {names names' : Names} {b : Block}
    {slots : List Slot} (hr : f.replacement = none)
    (h : (f.lower capacity).run names = (.ok (b, slots), names')) :
    slots.map Slot.binding = f.bindings (f.maxTableSize.getD capacity) := by
  obtain ⟨loops, he⟩ := lower_run (P := fun _ => True) hr h fun _ _ => trivial
  have hslots : slots = addSlots (f.maxTableSize.getD capacity) [] f.wires := he.slots
  rw [hslots, map_binding_addSlots, map_binding_wires]
  rfl

/-- A function with a return value that is a record, an order that goes in and comes out with a
table of records inside, a scalar, and a cursor over the orders that are left. -/
def dispatch : Subprogram where
  package := "SHOP"
  name := "DISPATCH"
  maxTableSize := some 25
  args :=
    let number : Shape := .scalar (.named "NUMBER")
    let text : Shape := .scalar (.named "VARCHAR2")
    [{ name := "P_DAY", direction := .input, shape := .scalar (.named "DATE") },
      { name := "P_ORDER", direction := .both, shape := .record (some "SHOP.ORDER_T") [
        { name := "ID", direction := .both, shape := number },
        { name := "LINES", direction := .both, shape := .table (some "SHOP.LINE_TAB") (some
          { name := "", direction := .both, shape := .record (some "SHOP.LINE_T") [
            { name := "SKU", direction := .both, shape := text },
            { name := "QTY", direction := .both, shape := number }] }) false false }] },
      { name := "P_LEFT", direction := .output, shape := .table none (some
        { name := "", direction := .output, shape := .record none [
          { name := "ID", direction := .output, shape := number },
          { name := "NOTE", direction := .output, shape := text }] }) false true }]
  returns := some { name := "", direction := .output, shape := .record (some "SHOP.STATUS_T") [
    { name := "CODE", direction := .output, shape := .scalar (.named "NUMBER") }] }

theorem dispatch_bindings : dispatch.replacement = none ∧ ∃ b slots names',
    (dispatch.lower 100).run [] = (.ok (b, slots), names') ∧
      slots.map Slot.binding = dispatch.bindings 25 ∧
      slots.map (fun slot => slot.path.text) = ["p_order.id", "p_order.lines[*].sku",
        "p_order.lines[*].qty", "p_day", "p_left", "p_order.id", "p_order.lines[*].sku",
        "p_order.lines[*].qty", "ret.code"] := by
  have hpaths : ((dispatch.lower 100).run []).1.map
      (fun r => r.2.map fun slot => slot.path.text) = .ok ["p_order.id", "p_order.lines[*].sku",
        "p_order.lines[*].qty", "p_day", "p_left", "p_order.id", "p_order.lines[*].sku",
        "p_order.lines[*].qty", "ret.code"] := by
    decide +kernel
  rcases hrun : (dispatch.lower 100).run [] with ⟨_ | ⟨b, slots⟩, names'⟩
  · rw [hrun] at hpaths
    cases hpaths
  · rw [hrun] at hpaths
    exact ⟨rfl, b, slots, names', rfl, map_binding_of_lower rfl hrun, Except.ok.inj hpaths⟩

end Subprogram

end StoredCall
