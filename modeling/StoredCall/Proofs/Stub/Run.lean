import StoredCall.Proofs.Program
import StoredCall.Proofs.Stub.Names
import StoredCall.Proofs.Stub.Wires

/-!
# Runs of lowering

Lowering is a program that may fail and that changes what has been made so far. Each step that it is
made of says what it gives and what it leaves (`gives_bindSlot`, `gives_bridge`, `gives_loopIndex`,
`gives_arrayLocal`).

* `Grows s P w columns w'`: a sequence of such steps leads from `w` to `w'`, made arrays for
  `columns` and declared locals of types in `P` only. All that lowering does to identifiers and
  declarations is such a sequence, so an invariant is shown for one step.
-/

namespace StoredCall

open Text

/-! ## The steps of lowering -/

namespace Work

/-- With a slot for a wire. -/
def withSlot (w : Work) (capacity : Nat) (wire : Wire) : Work :=
  { w with slots := w.slots ++ [wire.slot capacity w.slots] }

/-- With a declaration, unless its name is declared. -/
def withDecl (w : Work) (d : Decl) : Work :=
  if d.name ∈ w.decls.map Decl.name then w else { w with decls := w.decls ++ [d] }

/-- The identifier of a long name. -/
def identOf (w : Work) (s : Setting) (long : String) : String :=
  (w.names.ident s.package long).1

/-- With an identifier given to a long name. -/
def withIdent (w : Work) (s : Setting) (long : String) : Work :=
  { w with names := (w.names.ident s.package long).2 }

/-- The name of the loop index that comes next. -/
def nextIndex (w : Work) : String := "i" ++ toString (w.loops + 1)

/-- With a loop index declared. -/
def withLoop (w : Work) : Work :=
  { w with loops := w.loops + 1 }.withDecl (.var w.nextIndex "PLS_INTEGER")

/-- The name of the type of arrays with the given elements, be it declared or not. -/
def arrayTypeOf (w : Work) (elem : String) : String :=
  (Assoc.get? elem (arrayTypes w.decls)).getD
    ("t_" ++ toString ((arrayTypes w.decls).length + 1))

/-- With a type of arrays declared. -/
def withArrayType (w : Work) (elem : String) : Work :=
  if (Assoc.get? elem (arrayTypes w.decls)).isSome then w
  else w.withDecl (.arrayType (w.arrayTypeOf elem) elem)

end Work

/-- The long name of the local of a composite. -/
def bridgeLong (field : String) : String := "v_" ++ field

/-- The long name of the array of a column. -/
def arrayLong (path : Path) : String := "x_" ++ pathIdent path

namespace Work

/-- With the local of a composite. -/
def withBridge (w : Work) (s : Setting) (field typeName : String) : Work :=
  (w.withIdent s (bridgeLong field)).withDecl (.var (w.identOf s (bridgeLong field)) typeName)

/-- With the array of a column. -/
def withArray (w : Work) (s : Setting) (path : Path) (scalar : Scalar) : Work :=
  ((w.withArrayType scalar.elementDecl).withIdent s (arrayLong path)).withDecl
    (.var (w.identOf s (arrayLong path)) (w.arrayTypeOf scalar.elementDecl))

variable (w : Work)

theorem withDecl_names (d : Decl) : (w.withDecl d).names = w.names := by
  unfold withDecl
  split <;> rfl

theorem withDecl_slots (d : Decl) : (w.withDecl d).slots = w.slots := by
  unfold withDecl
  split <;> rfl

/-- Whatever was declared before, the name is declared now. -/
theorem name_mem_withDecl (d : Decl) : d.name ∈ (w.withDecl d).decls.map Decl.name := by
  unfold withDecl
  split
  · assumption
  · simp

theorem decls_prefix_withDecl (d : Decl) : w.decls <+: (w.withDecl d).decls := by
  unfold withDecl
  split
  · exact List.prefix_refl _
  · exact List.prefix_append _ _

theorem withArrayType_names (elem : String) : (w.withArrayType elem).names = w.names := by
  unfold withArrayType
  split
  · rfl
  · exact withDecl_names w _

theorem withArrayType_slots (elem : String) : (w.withArrayType elem).slots = w.slots := by
  unfold withArrayType
  split
  · rfl
  · exact withDecl_slots w _

theorem decls_prefix_withArrayType (elem : String) :
    w.decls <+: (w.withArrayType elem).decls := by
  unfold withArrayType
  split
  · exact List.prefix_refl _
  · exact decls_prefix_withDecl w _

theorem withArray_names (s : Setting) (path : Path) (scalar : Scalar) :
    (w.withArray s path scalar).names = (w.names.ident s.package (arrayLong path)).2 := by
  unfold withArray
  rw [withDecl_names]
  show ((w.withArrayType _).names.ident s.package _).2 = _
  rw [withArrayType_names]

theorem withArray_slots (s : Setting) (path : Path) (scalar : Scalar) :
    (w.withArray s path scalar).slots = w.slots := by
  unfold withArray
  rw [withDecl_slots]
  exact withArrayType_slots w _

theorem decls_prefix_withArray (s : Setting) (path : Path) (scalar : Scalar) :
    w.decls <+: (w.withArray s path scalar).decls :=
  (decls_prefix_withArrayType w scalar.elementDecl).trans
    (decls_prefix_withDecl ((w.withArrayType scalar.elementDecl).withIdent s (arrayLong path)) _)

theorem decls_prefix_withBridge (s : Setting) (field typeName : String) :
    w.decls <+: (w.withBridge s field typeName).decls :=
  decls_prefix_withDecl (w.withIdent s (bridgeLong field)) _

theorem decls_prefix_withLoop : w.decls <+: w.withLoop.decls :=
  decls_prefix_withDecl { w with loops := w.loops + 1 } _

theorem withBridge_slots (s : Setting) (field typeName : String) :
    (w.withBridge s field typeName).slots = w.slots :=
  withDecl_slots _ _

theorem withLoop_slots : w.withLoop.slots = w.slots := withDecl_slots _ _

end Work

variable {s : Setting} {w w' : Work} {name : String}

theorem gives_bindSlot {path : Path} {direction : Direction} {kind : SlotKind} {position : Nat} :
    Gives (bindSlot path direction kind) w position w' ↔
      position = w.slots.length + 1 ∧
        w' = { w with slots := w.slots ++ [nextSlot w.slots path direction kind] } :=
  gives_modifyGet

/-- The slot of a wire. -/
theorem gives_bindWire {wire : Wire} {capacity position : Nat} :
    Gives (bindSlot wire.path wire.direction (wire.cargo.kind capacity wire.path)) w position w' ↔
      position = w.slots.length + 1 ∧ w' = w.withSlot capacity wire :=
  gives_bindSlot

theorem gives_identifier {long : String} :
    Gives (identifier s long) w name w' ↔ name = w.identOf s long ∧ w' = w.withIdent s long :=
  gives_modifyGet

theorem gives_declare {d : Decl} {u : Unit} : Gives (declare d) w u w' ↔ w' = w.withDecl d := by
  unfold declare Work.withDecl
  rw [gives_modify]
  simp only [List.any_eq_true, decide_eq_true_eq, List.mem_map]

theorem gives_bridge {a : Argument} {field : String} :
    Gives (bridge s a (bridgeLong field)) w name w' ↔ name = w.identOf s (bridgeLong field) ∧
      ∃ typeName, a.shape.typeName = some typeName ∧ w' = w.withBridge s field typeName := by
  unfold bridge
  cases ht : a.shape.typeName with
  | none => simp [not_gives_throw]
  | some typeName =>
    simp only [gives_bind, gives_identifier, gives_declare, gives_pure, Option.some.injEq]
    constructor
    · rintro ⟨x, w₁, ⟨rfl, rfl⟩, _, w₂, rfl, rfl, rfl⟩
      exact ⟨rfl, typeName, rfl, rfl⟩
    · rintro ⟨rfl, _, rfl, rfl⟩
      exact ⟨_, _, ⟨rfl, rfl⟩, (), _, rfl, rfl, rfl⟩

theorem gives_loopIndex : Gives loopIndex w name w' ↔ name = w.nextIndex ∧ w' = w.withLoop := by
  unfold loopIndex
  simp only [gives_bind, gives_modify, gives_get, gives_declare, gives_pure]
  constructor
  · rintro ⟨_, _, rfl, _, _, ⟨rfl, rfl⟩, _, _, rfl, rfl, rfl⟩
    exact ⟨rfl, rfl⟩
  · rintro ⟨rfl, rfl⟩
    exact ⟨(), _, rfl, _, _, ⟨rfl, rfl⟩, (), _, rfl, rfl, rfl⟩

theorem gives_arrayType {elem : String} :
    Gives (arrayType elem) w name w' ↔ name = w.arrayTypeOf elem ∧ w' = w.withArrayType elem := by
  unfold arrayType Work.withArrayType Work.arrayTypeOf
  simp only [gives_bind, gives_get]
  constructor
  · rintro ⟨v, w₁, ⟨hv, hw⟩, h⟩
    rw [hv, hw] at h
    cases hg : Assoc.get? elem (arrayTypes w.decls) with
    | some t =>
      rw [hg] at h
      simpa [gives_pure] using h
    | none =>
      rw [hg] at h
      simp only [gives_bind, gives_declare, gives_pure] at h
      obtain ⟨_, _, rfl, rfl, rfl⟩ := h
      exact ⟨rfl, rfl⟩
  · rintro ⟨rfl, rfl⟩
    refine ⟨_, _, ⟨rfl, rfl⟩, ?_⟩
    cases hg : Assoc.get? elem (arrayTypes w.decls) with
    | some t => simp [gives_pure]
    | none =>
      simp only [gives_bind, gives_declare, gives_pure]
      exact ⟨(), _, rfl, rfl, rfl⟩

theorem gives_arrayLocal {each : Path} {leaf : Leaf} :
    Gives (arrayLocal s each leaf) w name w' ↔
      name = w.identOf s (arrayLong (each ++ leaf.path)) ∧
        w' = w.withArray s (each ++ leaf.path) leaf.scalar := by
  unfold arrayLocal
  simp only [gives_bind, gives_arrayType, gives_identifier, gives_declare, gives_pure]
  have hn : ∀ long,
      (w.withArrayType leaf.scalar.elementDecl).identOf s long = w.identOf s long := by
    intro long
    unfold Work.identOf
    rw [Work.withArrayType_names]
  constructor
  · rintro ⟨_, _, ⟨rfl, rfl⟩, _, _, ⟨rfl, rfl⟩, _, _, rfl, rfl, rfl⟩
    exact ⟨hn _, by rw [hn]; rfl⟩
  · rintro ⟨rfl, rfl⟩
    refine ⟨_, _, ⟨rfl, rfl⟩, _, _, ⟨rfl, rfl⟩, (), _, rfl, (hn _).symm, ?_⟩
    show _ = Work.withDecl _ (.var (Work.identOf _ s (arrayLong (each ++ leaf.path))) _)
    rw [hn]
    rfl

/-! ## Sequences of steps -/

/-- A sequence of steps from one state to another, with the columns that arrays were made for.
Locals of composites have types in `P`. -/
inductive Grows (s : Setting) (P : String → Prop) (w : Work) :
    List (Path × Scalar) → Work → Prop
  | refl : Grows s P w [] w
  | slot {columns : List (Path × Scalar)} {w₁ : Work} (h : Grows s P w columns w₁)
    (capacity : Nat) (wire : Wire) : Grows s P w columns (w₁.withSlot capacity wire)
  | bridge {columns : List (Path × Scalar)} {w₁ : Work} (h : Grows s P w columns w₁)
    (field : String) {typeName : String} (ht : P typeName) :
    Grows s P w columns (w₁.withBridge s field typeName)
  | loop {columns : List (Path × Scalar)} {w₁ : Work} (h : Grows s P w columns w₁) :
    Grows s P w columns w₁.withLoop
  | array {columns : List (Path × Scalar)} {w₁ : Work} (h : Grows s P w columns w₁)
    (path : Path) (scalar : Scalar) :
    Grows s P w (columns ++ [(path, scalar)]) (w₁.withArray s path scalar)

namespace Grows

variable {P : String → Prop} {w₁ w₂ : Work} {a b columns : List (Path × Scalar)}

theorem trans (h₁ : Grows s P w a w₁) (h₂ : Grows s P w₁ b w₂) : Grows s P w (a ++ b) w₂ := by
  induction h₂ with
  | refl =>
    rw [List.append_nil]
    exact h₁
  | slot _ capacity wire ih => exact ih.slot capacity wire
  | bridge _ field ht ih => exact ih.bridge field ht
  | loop _ ih => exact ih.loop
  | array _ path scalar ih =>
    rw [← List.append_assoc]
    exact ih.array path scalar

/-- The identifiers given out afterwards are reached too. -/
theorem reached (h : Grows s P w columns w₁) (hw : w.names.Reached) : w₁.names.Reached := by
  induction h with
  | refl => exact hw
  | slot _ _ _ ih => exact ih
  | bridge _ field _ ih =>
    unfold Work.withBridge
    rw [Work.withDecl_names]
    exact ih.ident _ _
  | loop _ ih =>
    unfold Work.withLoop
    rw [Work.withDecl_names]
    exact ih
  | array _ path scalar ih =>
    rw [Work.withArray_names]
    exact ih.ident _ _

/-- A long name keeps its identifier. -/
theorem given (h : Grows s P w columns w₁) {package long : String}
    (hg : w.names.given package long = some name) :
    w₁.names.given package long = some name := by
  induction h with
  | refl => exact hg
  | slot _ _ _ ih => exact ih
  | bridge _ field _ ih =>
    unfold Work.withBridge
    rw [Work.withDecl_names]
    exact Names.given_ident_of_given ih _ _
  | loop _ ih =>
    unfold Work.withLoop
    rw [Work.withDecl_names]
    exact ih
  | array _ path scalar ih =>
    rw [Work.withArray_names]
    exact Names.given_ident_of_given ih _ _

/-- Declarations stay, and new ones come after them. -/
theorem decls_prefix (h : Grows s P w columns w₁) : w.decls <+: w₁.decls := by
  induction h with
  | refl => exact List.prefix_refl _
  | slot _ _ _ ih => exact ih
  | bridge _ field _ ih => exact ih.trans (Work.decls_prefix_withBridge _ s field _)
  | loop _ ih => exact ih.trans (Work.decls_prefix_withLoop _)
  | array _ path scalar ih => exact ih.trans (Work.decls_prefix_withArray _ s path scalar)

theorem declared (h : Grows s P w columns w₁) (hn : name ∈ w.decls.map Decl.name) :
    name ∈ w₁.decls.map Decl.name := by
  obtain ⟨d, hd, rfl⟩ := List.mem_map.mp hn
  exact List.mem_map_of_mem (h.decls_prefix.subset hd)

end Grows

end StoredCall
