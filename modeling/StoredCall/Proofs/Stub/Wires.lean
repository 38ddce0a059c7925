import StoredCall.Proofs.Path
import StoredCall.Proofs.Text.Distinct
import StoredCall.Stub.Lower

/-!
# What crosses the boundary of a call

A call takes scalars and cursors over its boundary, one at each placeholder. Which they are can be
read off a subprogram without making a block: every scalar of a composite input, then the return
value if it is a scalar or a cursor, then the arguments that are, then every scalar of a composite
output and of a composite return value.

* `Argument.scalars` lists the scalars of an argument with their paths, tables included.
* `Wire` is one crossing, `Subprogram.wires` lists those of a call in order.
* `addSlots` makes slots of wires: each copies the first slot with its path, if there is one.
* `Argument.scalars_pairwise`: the scalars of an argument have paths that part.
-/

namespace StoredCall

open Text

/-! ## The scalars of an argument -/

mutual

/-- The scalars of an argument at a path, in preorder. Inside a table the path goes through every
element. -/
def Argument.scalars (path : Path) : Argument → List (Path × Scalar)
  | ⟨_, _, _, shape⟩ => shape.scalars path

/-- The scalars of a shape at a path, in preorder. -/
def Shape.scalars (path : Path) : Shape → List (Path × Scalar)
  | .scalar s => [(path, s)]
  | .record _ fields => scalarsAll path (fieldNames (fields.map Argument.name)) fields
  | .table _ elem _ _ => scalarsElem path.elements elem

/-- The scalars of siblings that go by the given field names. -/
def scalarsAll (path : Path) : (names : List String) → List Argument → List (Path × Scalar)
  | _, [] => []
  | names, f :: rest =>
    f.scalars (path.child (names.headD "")) ++ scalarsAll path names.tail rest

/-- The scalars of a table's element. -/
def scalarsElem (path : Path) : Option Argument → List (Path × Scalar)
  | none => []
  | some elem => elem.scalars path

end

mutual

theorem Argument.scalars_append (p q : Path) : ∀ a : Argument,
    a.scalars (p ++ q) = (a.scalars q).map fun x => (p ++ x.1, x.2)
  | ⟨_, _, _, shape⟩ => Shape.scalars_append p q shape

/-- The scalars below a longer path. -/
theorem Shape.scalars_append (p q : Path) : ∀ shape : Shape,
    shape.scalars (p ++ q) = (shape.scalars q).map fun x => (p ++ x.1, x.2)
  | .scalar s => rfl
  | .record _ fields => scalarsAll_append p q _ fields
  | .table _ elem _ _ => by
    simp only [Shape.scalars, Path.elements, List.append_assoc]
    exact scalarsElem_append p _ elem

theorem scalarsAll_append (p q : Path) : ∀ (names : List String) (fields : List Argument),
    scalarsAll (p ++ q) names fields = (scalarsAll q names fields).map fun x => (p ++ x.1, x.2)
  | _, [] => rfl
  | names, f :: rest => by
    simp only [scalarsAll, Path.child, List.append_assoc, List.map_append]
    rw [Argument.scalars_append p _ f, scalarsAll_append p q names.tail rest]

theorem scalarsElem_append (p q : Path) : ∀ elem : Option Argument,
    scalarsElem (p ++ q) elem = (scalarsElem q elem).map fun x => (p ++ x.1, x.2)
  | none => rfl
  | some elem => Argument.scalars_append p q elem

end

/-- The path of a scalar goes through the path of its argument. -/
theorem Argument.exists_of_mem_scalars {path : Path} {a : Argument} {x : Path × Scalar}
    (h : x ∈ a.scalars path) : ∃ q, x.1 = path ++ q := by
  have he := Argument.scalars_append path [] a
  rw [List.append_nil] at he
  rw [he] at h
  obtain ⟨y, -, rfl⟩ := List.mem_map.mp h
  exact ⟨y.1, rfl⟩

theorem exists_of_mem_scalarsAll {path : Path} {x : Path × Scalar} :
    ∀ {names : List String} {fields : List Argument}, names.length = fields.length →
      x ∈ scalarsAll path names fields → ∃ n ∈ names, ∃ q, x.1 = path ++ .field n :: q
  | _, [], _, h => absurd h List.not_mem_nil
  | [], _ :: _, hl, _ => absurd hl (by simp)
  | n :: names, f :: rest, hl, h => by
    rcases List.mem_append.mp h with h | h
    · obtain ⟨q, hq⟩ := Argument.exists_of_mem_scalars h
      refine ⟨n, List.mem_cons_self, q, ?_⟩
      rw [hq, Path.child, List.append_assoc]
      rfl
    · obtain ⟨m, hm, q, hq⟩ := exists_of_mem_scalarsAll (Nat.succ.inj hl) h
      exact ⟨m, List.mem_cons_of_mem _ hm, q, hq⟩

mutual

/-- **The scalars of an argument have paths that part.** -/
theorem Argument.scalars_pairwise (path : Path) : ∀ a : Argument,
    (a.scalars path).Pairwise fun x y => Path.Apart x.1 y.1
  | ⟨_, _, _, shape⟩ => Shape.scalars_pairwise path shape

theorem Shape.scalars_pairwise (path : Path) : ∀ shape : Shape,
    (shape.scalars path).Pairwise fun x y => Path.Apart x.1 y.1
  | .scalar s => List.pairwise_singleton _ _
  | .record _ fields => scalarsAll_pairwise path fields (nodup_fieldNames _) (by
      rw [length_fieldNames, List.length_map])
  | .table _ elem _ _ => scalarsElem_pairwise path.elements elem

-- siblings part at their names, which are pairwise different
theorem scalarsAll_pairwise (path : Path) : ∀ (fields : List Argument) {names : List String},
    names.Nodup → names.length = fields.length →
      (scalarsAll path names fields).Pairwise fun x y => Path.Apart x.1 y.1
  | [], _, _, _ => List.Pairwise.nil
  | _ :: _, [], _, hl => absurd hl (by simp)
  | f :: rest, n :: names, hn, hl => by
    rw [List.nodup_cons] at hn
    refine List.pairwise_append.mpr ⟨Argument.scalars_pairwise _ f,
      scalarsAll_pairwise path rest hn.2 (Nat.succ.inj hl), fun x hx y hy => ?_⟩
    obtain ⟨q, hq⟩ := Argument.exists_of_mem_scalars hx
    obtain ⟨m, hm, r, hr⟩ := exists_of_mem_scalarsAll (Nat.succ.inj hl) hy
    have hne : n ≠ m := fun e => hn.1 (e ▸ hm)
    rw [hq, hr, Path.child, List.append_assoc]
    exact Path.apart_of_field_ne hne path q r

theorem scalarsElem_pairwise (path : Path) : ∀ elem : Option Argument,
    (scalarsElem path elem).Pairwise fun x y => Path.Apart x.1 y.1
  | none => List.Pairwise.nil
  | some elem => Argument.scalars_pairwise path elem

end

/-! ## Wires -/

/-- What crosses the boundary: a scalar, alone or one of many, or a cursor over rows. -/
inductive Cargo where
  | scalar (s : Scalar)
  | cursor (columns : List Column)

/-- One crossing of the boundary of a call. -/
structure Wire where
  path : Path
  direction : Direction
  cargo : Cargo

/-- Tables hold no tables, so that a wire goes through at most one; a cursor is inside none, and
comes out. -/
structure Wire.Placed (wire : Wire) : Prop where
  shallow : wire.path.count .each ≤ 1
  flat : ∀ {columns : List Column}, wire.cargo = .cursor columns → .each ∉ wire.path
  comesOut : ∀ {columns : List Column}, wire.cargo = .cursor columns → wire.direction = .output

theorem Wire.placed_of_flat {wire : Wire} (hflat : .each ∉ wire.path)
    (hc : ∀ {columns : List Column}, wire.cargo = .cursor columns → wire.direction = .output) :
    wire.Placed := by
  refine ⟨?_, fun _ => hflat, hc⟩
  rw [List.count_eq_zero_of_not_mem hflat]
  exact Nat.zero_le 1

/-- What a slot carries: an array of scalars when the path goes through every element of a table. -/
def Cargo.kind (capacity : Nat) (path : Path) : Cargo → SlotKind
  | .scalar s => if .each ∈ path then .array s.kind capacity else .scalar s.kind
  | .cursor columns => .cursor columns

theorem Cargo.kind_scalar_of_mem {path : Path} (h : .each ∈ path) (capacity : Nat) (s : Scalar) :
    (Cargo.scalar s).kind capacity path = .array s.kind capacity :=
  if_pos h

theorem Cargo.kind_scalar_of_notMem {path : Path} (h : .each ∉ path) (capacity : Nat)
    (s : Scalar) : (Cargo.scalar s).kind capacity path = .scalar s.kind :=
  if_neg h

/-- The columns of a cursor: the scalars of a row. -/
def rowColumns (elem : Option Argument) : List Column :=
  (scalarsElem [] elem).map fun x => ⟨x.1, x.2.kind⟩

/-- Records and tables that are no cursors. -/
def Shape.isComposite : Shape → Bool
  | .record .. | .table _ _ _ false => true
  | .scalar _ | .table _ _ _ true => false

/-- The wire of a scalar at a path. -/
def scalarWire (direction : Direction) (x : Path × Scalar) : Wire :=
  ⟨x.1, direction, .scalar x.2⟩

/-- The wires of the scalars inside a composite that goes by a field name. -/
def leafWires (direction : Direction) (e : String × Argument) : List Wire :=
  if e.2.shape.isComposite then (e.2.scalars [.field e.1]).map (scalarWire direction) else []

/-- The wire of a scalar or a cursor that goes by a field name. -/
def directWires (direction : Direction) (e : String × Argument) : List Wire :=
  match e.2.shape with
  | .scalar s => [⟨[.field e.1], direction, .scalar s⟩]
  | .table _ elem _ true => [⟨[.field e.1], direction, .cursor (rowColumns elem)⟩]
  | .record .. | .table _ _ _ false => []

/-- The wires by which an argument's local is filled. -/
def fillWires (e : String × Argument) : List Wire :=
  if e.2.direction.isInput then leafWires .input e else []

/-- The wires by which an argument's local is read. -/
def readWires (e : String × Argument) : List Wire :=
  if e.2.direction.isOutput then leafWires .output e else []

namespace Subprogram

/-- The arguments under their field names. -/
def entries (f : Subprogram) : List (String × Argument) := f.argFields.zip f.args

/-- The return value under its field name. -/
def returnEntries (f : Subprogram) : List (String × Argument) :=
  f.retField.toList.zip f.returns.toList

/-- The wires of a call, in order. -/
def wires (f : Subprogram) : List Wire :=
  f.entries.flatMap fillWires
    ++ f.returnEntries.flatMap (directWires .output)
    ++ f.entries.flatMap (fun e => directWires e.2.direction e)
    ++ f.entries.flatMap readWires
    ++ f.returnEntries.flatMap (leafWires .output)

end Subprogram

/-- The columns of tables among wires: the scalars that go through every element. -/
def columnsOf (wires : List Wire) : List (Path × Scalar) :=
  wires.filterMap fun w =>
    match w.cargo with
    | .scalar s => if .each ∈ w.path then some (w.path, s) else none
    | .cursor _ => none

theorem columnsOf_append (a b : List Wire) : columnsOf (a ++ b) = columnsOf a ++ columnsOf b :=
  List.filterMap_append

theorem mem_columnsOf {wires : List Wire} {path : Path} {s : Scalar} :
    (path, s) ∈ columnsOf wires ↔ .each ∈ path ∧ ∃ d, ⟨path, d, .scalar s⟩ ∈ wires := by
  unfold columnsOf
  rw [List.mem_filterMap]
  constructor
  · rintro ⟨⟨p, d, cargo⟩, hw, h⟩
    cases cargo with
    | cursor columns => simp at h
    | scalar s' =>
      simp only at h
      split at h
      · rename_i he
        simp only [Option.some.injEq, Prod.mk.injEq] at h
        obtain ⟨rfl, rfl⟩ := h
        exact ⟨he, d, hw⟩
      · exact absurd h (by simp)
  · rintro ⟨he, d, hw⟩
    exact ⟨_, hw, if_pos he⟩

/-! ## Slots of wires -/

/-- The positions of slots that follow each other. -/
theorem range'_positions (k m n : Nat) :
    List.range' (k + 1) m ++ List.range' (k + m + 1) n = List.range' (k + 1) (m + n) := by
  rw [← List.range'_append_1]
  congr 2
  omega

/-- The slot of a wire, after others. -/
def Wire.slot (capacity : Nat) (slots : List Slot) (w : Wire) : Slot :=
  nextSlot slots w.path w.direction (w.cargo.kind capacity w.path)

/-- Slots with those of wires after them. -/
def addSlots (capacity : Nat) : List Slot → List Wire → List Slot
  | slots, [] => slots
  | slots, w :: rest => addSlots capacity (slots ++ [w.slot capacity slots]) rest

theorem addSlots_append (capacity : Nat) : ∀ (slots : List Slot) (a b : List Wire),
    addSlots capacity slots (a ++ b) = addSlots capacity (addSlots capacity slots a) b
  | _, [], _ => rfl
  | _, _ :: a, b => addSlots_append capacity _ a b

theorem length_addSlots (capacity : Nat) : ∀ (slots : List Slot) (wires : List Wire),
    (addSlots capacity slots wires).length = slots.length + wires.length
  | _, [] => rfl
  | slots, w :: rest => by
    rw [addSlots, length_addSlots capacity, List.length_append, List.length_cons, List.length_cons,
      List.length_nil]
    omega

theorem prefix_addSlots (capacity : Nat) : ∀ (slots : List Slot) (wires : List Wire),
    slots <+: addSlots capacity slots wires
  | _, [] => List.prefix_refl _
  | slots, _ :: rest =>
    (List.prefix_append slots _).trans (prefix_addSlots capacity _ rest)

/-- **The slot of a wire is made from the slots before it.** -/
theorem getElem?_addSlots (capacity : Nat) : ∀ {slots : List Slot} {wires : List Wire} {i : Nat}
    {w : Wire}, wires[i]? = some w → (addSlots capacity slots wires)[slots.length + i]? =
      some (w.slot capacity ((addSlots capacity slots wires).take (slots.length + i)))
  | slots, v :: rest, 0, w, h => by
    simp only [List.getElem?_cons_zero, Option.some.injEq] at h
    subst h
    obtain ⟨t, ht⟩ := prefix_addSlots capacity (slots ++ [v.slot capacity slots]) rest
    rw [addSlots, ← ht, List.append_assoc, Nat.add_zero,
      List.getElem?_append_right (Nat.le_refl _), Nat.sub_self, List.take_left]
    rfl
  | slots, v :: rest, i + 1, w, h => by
    have hl : slots.length + (i + 1) = (slots ++ [v.slot capacity slots]).length + i := by
      rw [List.length_append, List.length_singleton]
      omega
    rw [addSlots, hl]
    exact getElem?_addSlots capacity (by simpa using h)

end StoredCall
