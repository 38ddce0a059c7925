import StoredCall.Proofs.Stub.Emits

/-!
# Tables in a block

Every scalar inside the elements of a table gets an array, and the block copies between the arrays
and the table. The statements of a copy mention the placeholder of each array once, in the order of
the scalars, and outside the loop.

* `carriage_of_carry`: what making the arrays and their slots comes to.
* `gives_tableIn`, `gives_tableOut`: the parts of filling and reading a table.
* `emits_tableIn`, `emits_tableOut`: filling and reading a table.
-/

namespace StoredCall

open Text

variable {s : Setting} {P : String → Prop} {w w₁ w₂ w' : Work}

/-! ## Arrays -/

/-- The wire of a scalar inside the elements at a path. -/
def Leaf.wire (each : Path) (direction : Direction) (l : Leaf) : Wire :=
  scalarWire direction (each ++ l.path, l.scalar)

/-- The scalars inside the elements of a table got arrays and slots. -/
structure Carriage (s : Setting) (P : String → Prop) (each : Path) (direction : Direction)
    (w : Work) (leaves : List Leaf) (columns : List Carried) (w' : Work) : Prop where
  grows : Grows s P w (columnsOf (leaves.map (Leaf.wire each direction))) w'
  slots : w'.slots = addSlots s.capacity w.slots (leaves.map (Leaf.wire each direction))
  carried : columns.map Carried.leaf = leaves
  positions : columns.map Carried.position = List.range' (w.slots.length + 1) leaves.length
  declared : ∀ c ∈ columns, c.array ∈ w'.decls.map Decl.name
  given : ∀ c ∈ columns, w'.names.given s.package (arrayLong (each ++ c.leaf.path)) = some c.array

/-- The array and the slot of one scalar. -/
theorem carriage_of_leaf {each : Path} {direction : Direction} {leaf : Leaf} {array : String}
    {position : Nat} (he : .each ∈ each) (ha : Gives (arrayLocal s each leaf) w array w₁)
    (hb : Gives (bindSlot (each ++ leaf.path) direction (.array leaf.scalar.kind s.capacity)) w₁
      position w₂) : Carriage s P each direction w [leaf] [⟨leaf, array, position⟩] w₂ := by
  have hmem : .each ∈ each ++ leaf.path := List.mem_append_left _ he
  -- the slot that was made is the one of the leaf's wire
  rw [← Cargo.kind_scalar_of_mem hmem s.capacity leaf.scalar] at hb
  obtain ⟨rfl, rfl⟩ := gives_arrayLocal.mp ha
  obtain ⟨hposition, rfl⟩ :=
    (@gives_bindWire _ w₂ (Leaf.wire each direction leaf) s.capacity position).mp hb
  have hslots := w.withArray_slots s (each ++ leaf.path) leaf.scalar
  have hcolumns : columnsOf ([leaf].map (Leaf.wire each direction)) =
      [(each ++ leaf.path, leaf.scalar)] := List.filterMap_cons_some (if_pos hmem)
  refine ⟨?_, ?_, rfl, ?_, ?_, ?_⟩
  · rw [hcolumns]
    exact (Grows.refl.array _ _).slot _ _
  · show _ ++ [_] = w.slots ++ [_]
    rw [hslots]
  · rw [hposition, hslots]
    rfl
  · rw [List.forall_mem_singleton]
    exact Work.name_mem_withDecl _ _
  · rw [List.forall_mem_singleton]
    show (Work.withArray _ _ _ _).names.given _ _ = _
    rw [Work.withArray_names]
    exact Names.given_ident _ _ _

theorem Carriage.append {each : Path} {direction : Direction} {a b : List Leaf}
    {as bs : List Carried} (h₁ : Carriage s P each direction w a as w₁)
    (h₂ : Carriage s P each direction w₁ b bs w₂) :
    Carriage s P each direction w (a ++ b) (as ++ bs) w₂ := by
  have hlen : w₁.slots.length = w.slots.length + a.length := by
    rw [h₁.slots, length_addSlots, List.length_map]
  refine ⟨?_, ?_, ?_, ?_, ?_, ?_⟩
  · rw [List.map_append, columnsOf_append]
    exact h₁.grows.trans h₂.grows
  · rw [List.map_append, addSlots_append, ← h₁.slots, h₂.slots]
  · rw [List.map_append, h₁.carried, h₂.carried]
  · rw [List.map_append, h₁.positions, h₂.positions, hlen, List.length_append,
      range'_positions]
  · exact List.forall_mem_append.mpr
      ⟨fun c hc => h₂.grows.declared (h₁.declared c hc), h₂.declared⟩
  · exact List.forall_mem_append.mpr ⟨fun c hc => h₂.grows.given (h₁.given c hc), h₂.given⟩

theorem Carriage.leaf_mem {each : Path} {direction : Direction} {leaves : List Leaf}
    {columns : List Carried} (h : Carriage s P each direction w leaves columns w') {c : Carried}
    (hc : c ∈ columns) : c.leaf ∈ leaves :=
  h.carried ▸ List.mem_map_of_mem hc

/-- The columns are at consecutive positions. -/
theorem Carriage.position_eq {each : Path} {direction : Direction} {leaves : List Leaf}
    {columns : List Carried} (h : Carriage s P each direction w leaves columns w') {k : Nat}
    {c : Carried} (hc : columns[k]? = some c) : c.position = w.slots.length + 1 + k := by
  obtain ⟨hk, rfl⟩ := List.getElem?_eq_some_iff.mp hc
  have hp := congrArg (·[k]?) h.positions
  rw [← h.carried, List.length_map] at hp
  simpa [hk] using hp

theorem carriage_of_carry {each : Path} {direction : Direction} (he : .each ∈ each) :
    ∀ {leaves : List Leaf} {w w' : Work} {columns : List Carried},
      Gives (carry s each direction leaves) w columns w' →
        Carriage s P each direction w leaves columns w'
  | [], w, w', columns, h => by
    obtain ⟨rfl, rfl⟩ := gives_pure.mp h
    exact ⟨.refl, rfl, rfl, rfl, fun _ hc => absurd hc List.not_mem_nil,
      fun _ hc => absurd hc List.not_mem_nil⟩
  | leaf :: rest, w, w', columns, h => by
    obtain ⟨array, w₁, ha, h⟩ := gives_bind.mp h
    obtain ⟨position, w₂, hb, h⟩ := gives_bind.mp h
    obtain ⟨more, w₃, hc, h⟩ := gives_bind.mp h
    obtain ⟨rfl, rfl⟩ := gives_pure.mp h
    exact (carriage_of_leaf he ha hb).append (carriage_of_carry he hc)

theorem Expr.placeholders_select (e : Expr) (fields : List String) :
    (e.select fields).placeholders = e.placeholders := by
  unfold Expr.select
  induction fields generalizing e with
  | nil => rfl
  | cons f rest ih => exact ih (.field e f)

theorem Expr.names_select (e : Expr) (fields : List String) :
    (e.select fields).names = e.names ++ fields := by
  unfold Expr.select
  induction fields generalizing e with
  | nil => exact (List.append_nil _).symm
  | cons f rest ih =>
    rw [List.foldl_cons, ih (.field e f), Expr.names, List.append_assoc]
    rfl

theorem placeholdersAll_map {α : Type} (f : α → Stmt) : ∀ l : List α,
    placeholdersAll (l.map f) = l.flatMap fun a => (f a).placeholders
  | [] => rfl
  | a :: l => by rw [List.map_cons, placeholdersAll, placeholdersAll_map f l, List.flatMap_cons]

theorem forall_mem_namesAll {Q : String → Prop} : ∀ {stmts : List Stmt},
    (∀ n ∈ namesAll stmts, Q n) ↔ ∀ st ∈ stmts, ∀ n ∈ st.names, Q n
  | [] => by simp [namesAll]
  | st :: rest => by
    rw [namesAll, List.forall_mem_append, List.forall_mem_cons, forall_mem_namesAll]

/-! ## Copying -/

/-- Statements that copy between a table and the arrays of its columns, with names in `Q` if the
names of the columns are. -/
structure Copies (Q : String → Prop) (columns : List Carried) (stmts : List Stmt) : Prop where
  /-- Each column's placeholder occurs once, in order. -/
  marks : placeholdersAll stmts = columns.map Carried.position
  names : (∀ c ∈ columns, Q c.array ∧ ∀ n ∈ c.leaf.fields, Q n) → ∀ n ∈ namesAll stmts, Q n
  carries : ∀ c ∈ columns, Carries stmts c.position c.array

section Copying

variable {place index : Expr} {columns : List Carried}

/-- Filling a table reads the placeholders of its columns, in order. -/
theorem placeholders_copyIn {nestedType : Option String} (hp : place.placeholders = [])
    (hi : index.placeholders = []) :
    placeholdersAll (copyIn place index nestedType columns) = columns.map Carried.position := by
  cases columns with
  | nil => rfl
  | cons driver rest =>
    rw [List.map_eq_flatMap]
    cases nestedType <;>
      simp [copyIn, placeholdersAll, placeholdersAll_append, placeholdersAll_map, Stmt.placeholders,
        Expr.placeholders, Expr.placeholders_select, hp, hi]

/-- Reading a table fills the placeholders of its columns, in order. -/
theorem placeholders_copyOut {nested : Bool} {capacity : Nat} (hp : place.placeholders = [])
    (hi : index.placeholders = []) :
    placeholdersAll (copyOut place index nested capacity columns) =
      columns.map Carried.position := by
  cases columns with
  | nil => rfl
  | cons driver rest =>
    have hnone : rest.flatMap (fun _ => ([] : List Nat)) = [] :=
      List.flatMap_eq_nil_iff.mpr fun _ _ => rfl
    rw [List.map_eq_flatMap]
    cases nested <;>
      simp [copyOut, placeholdersAll, placeholdersAll_append, placeholdersAll_map,
        Stmt.placeholders, Expr.placeholders, Expr.placeholders_select, hp, hi, hnone]

theorem names_copyIn {nestedType : Option String} {Q : String → Prop}
    (hp : ∀ n ∈ place.names, Q n) (hi : ∀ n ∈ index.names, Q n) (ht : ∀ t ∈ nestedType, Q t)
    (hc : ∀ c ∈ columns, Q c.array ∧ ∀ n ∈ c.leaf.fields, Q n) :
    ∀ n ∈ namesAll (copyIn place index nestedType columns), Q n := by
  cases columns with
  | nil => exact fun _ h => absurd h List.not_mem_nil
  | cons driver rest =>
    have hd := hc driver List.mem_cons_self
    have hr : ∀ c ∈ rest, Q c.array := fun c h => (hc c (List.mem_cons_of_mem _ h)).1
    have hf : ∀ c ∈ rest, ∀ n ∈ c.leaf.fields, Q n :=
      fun c h => (hc c (List.mem_cons_of_mem _ h)).2
    cases nestedType with
    | none =>
      simp only [forall_mem_namesAll, copyIn, List.forall_mem_append, List.forall_mem_map,
        List.forall_mem_cons, Option.toList, Stmt.names, Expr.names, Expr.names_select]
      simpa +contextual [hp, hi, hd, hr] using hf
    | some typeName =>
      simp only [forall_mem_namesAll, copyIn, List.forall_mem_append, List.forall_mem_map,
        List.forall_mem_cons, Option.toList, Stmt.names, Expr.names, Expr.names_select]
      simpa +contextual [hp, hi, hd, hr, ht] using hf

theorem names_copyOut {nested : Bool} {capacity : Nat} {Q : String → Prop}
    (hp : ∀ n ∈ place.names, Q n) (hi : ∀ n ∈ index.names, Q n)
    (hc : ∀ c ∈ columns, Q c.array ∧ ∀ n ∈ c.leaf.fields, Q n) :
    ∀ n ∈ namesAll (copyOut place index nested capacity columns), Q n := by
  cases columns with
  | nil => exact fun _ h => absurd h List.not_mem_nil
  | cons driver rest =>
    have hd := hc driver List.mem_cons_self
    have hr : ∀ c ∈ rest, Q c.array := fun c h => (hc c (List.mem_cons_of_mem _ h)).1
    have hf : ∀ c ∈ rest, ∀ n ∈ c.leaf.fields, Q n :=
      fun c h => (hc c (List.mem_cons_of_mem _ h)).2
    cases nested with
    | false =>
      simp only [forall_mem_namesAll, copyOut, List.forall_mem_append, List.forall_mem_map,
        List.forall_mem_cons, Stmt.names, Expr.names, Expr.names_select, Bool.false_eq_true,
        if_false]
      simpa +contextual [hp, hi, hd, hr] using hf
    | true =>
      simp only [forall_mem_namesAll, copyOut, List.forall_mem_append, List.forall_mem_map,
        List.forall_mem_cons, Stmt.names, Expr.names, Expr.names_select, if_true]
      simpa +contextual [hp, hi, hd, hr] using hf

theorem copies_copyIn {nestedType : Option String} {Q : String → Prop}
    (hp : place.placeholders = []) (hi : index.placeholders = [])
    (hpn : ∀ n ∈ place.names, Q n) (hin : ∀ n ∈ index.names, Q n) (ht : ∀ t ∈ nestedType, Q t) :
    Copies Q columns (copyIn place index nestedType columns) where
  marks := placeholders_copyIn hp hi
  names := names_copyIn hpn hin ht
  carries := by
    intro c hc
    cases columns with
    | nil => exact absurd hc List.not_mem_nil
    | cons driver rest =>
      refine Or.inl ?_
      simp only [copyIn, List.append_assoc]
      exact List.mem_append_left _ (List.mem_map.mpr ⟨c, hc, rfl⟩)

theorem copies_copyOut {nested : Bool} {capacity : Nat} {Q : String → Prop}
    (hp : place.placeholders = []) (hi : index.placeholders = [])
    (hpn : ∀ n ∈ place.names, Q n) (hin : ∀ n ∈ index.names, Q n) :
    Copies Q columns (copyOut place index nested capacity columns) where
  marks := placeholders_copyOut hp hi
  names := names_copyOut hpn hin
  carries := by
    intro c hc
    cases columns with
    | nil => exact absurd hc List.not_mem_nil
    | cons driver rest =>
      refine Or.inr ?_
      simp only [copyOut]
      exact List.mem_append_right _ (List.mem_map.mpr ⟨c, hc, rfl⟩)

end Copying

/-! ## Filling and reading -/

theorem gives_elementLeaves {name : String} {elem : Option Argument} {leaves : List Leaf}
    (h : Gives (elementLeaves s name elem) w leaves w') :
    w' = w ∧ (leaves.map fun l => (l.path, l.scalar)) = scalarsElem [] elem ∧
      ∀ l ∈ leaves, (∀ n ∈ l.fields, n ∈ elementNames elem) ∧ .each ∉ l.path := by
  cases elem with
  | none => exact absurd h not_gives_throw
  | some elem =>
    obtain ⟨hl, rfl⟩ := gives_ofExcept.mp h
    refine ⟨rfl, Argument.map_leaves elem hl, fun l hm => ?_⟩
    obtain ⟨hnames, hflat⟩ := Argument.leaf_spec elem hl l hm
    refine ⟨fun n hn => (hnames n hn).resolve_left List.not_mem_nil, fun he => ?_⟩
    exact absurd (hflat he) List.not_mem_nil

/-- The wires of a table's columns are those of the scalars inside its elements. -/
theorem map_wire_leaves {each : Path} {direction : Direction} {elem : Option Argument}
    {leaves : List Leaf} (h : (leaves.map fun l => (l.path, l.scalar)) = scalarsElem [] elem) :
    leaves.map (Leaf.wire each direction) = (scalarsElem each elem).map (scalarWire direction) := by
  have he := scalarsElem_append each [] elem
  rw [List.append_nil] at he
  rw [he, ← h, List.map_map, List.map_map]
  rfl

section Moving

variable {name : String} {place : Expr} {path : Path} {elem : Option Argument} {leaves : List Leaf}
  {columns : List Carried} {direction : Direction} {stmts : List Stmt}

/-- Arrays and slots for the scalars inside an element, a loop index, and statements that copy. -/
theorem emits_of_copies (hl : Gives (elementLeaves s name elem) w leaves w₁)
    (hc : Gives (carry s path.elements direction leaves) w₁ columns w₂)
    (hflat : .each ∉ path) (he : ∀ n ∈ elementNames elem, P n)
    (hcopy : Copies (fun n => P n ∨ n ∈ w₂.withLoop.decls.map Decl.name) columns stmts) :
    Emits s P w ((scalarsElem path.elements elem).map (scalarWire direction)) stmts
      w₂.withLoop := by
  obtain ⟨rfl, hleaves, hspec⟩ := gives_elementLeaves hl
  have h : Carriage s P path.elements direction w₁ leaves columns w₂ :=
    carriage_of_carry (List.mem_append_right _ List.mem_cons_self) hc
  have hloop : Grows s P w₂ [] w₂.withLoop := Grows.refl.loop
  rw [← map_wire_leaves hleaves]
  refine ⟨h.grows.loop, ?_, ?_, ?_, ?_, ?_⟩
  · rw [Work.withLoop_slots, h.slots]
  · rw [hcopy.marks, h.positions, List.length_map]
  · refine hcopy.names fun c hm => ⟨Or.inr (hloop.declared (h.declared c hm)), fun n hn => ?_⟩
    exact Or.inl (he n ((hspec c.leaf (h.leaf_mem hm)).1 n hn))
  · intro i wire hi _
    rw [← h.carried, List.map_map, List.getElem?_map, Option.map_eq_some_iff] at hi
    obtain ⟨c, hc, rfl⟩ := hi
    have hmem : c ∈ columns := List.mem_of_getElem? hc
    rw [← h.position_eq hc]
    exact ⟨c.array, hcopy.carries c hmem, hloop.given (h.given c hmem)⟩
  · intro wire hwire
    obtain ⟨l, hm, rfl⟩ := List.mem_map.mp hwire
    refine ⟨?_, fun hc => (by cases hc), fun hc => (by cases hc)⟩
    show (path ++ [Step.each] ++ l.path).count Step.each ≤ 1
    rw [List.count_append, List.count_append, List.count_eq_zero_of_not_mem hflat,
      List.count_eq_zero_of_not_mem (hspec l hm).2]
    simp

/-- What names a table is declared still, once its arrays and its loop index are made. -/
theorem declared_of_carry (hl : Gives (elementLeaves s name elem) w leaves w₁)
    (hc : Gives (carry s path.elements direction leaves) w₁ columns w₂)
    (hn : ∀ n ∈ place.names, P n ∨ n ∈ w.decls.map Decl.name) :
    ∀ n ∈ place.names, P n ∨ n ∈ w₂.withLoop.decls.map Decl.name := by
  obtain ⟨rfl, -, -⟩ := gives_elementLeaves hl
  have h : Carriage s P path.elements direction w₁ leaves columns w₂ :=
    carriage_of_carry (List.mem_append_right _ List.mem_cons_self) hc
  exact fun n hm => (hn n hm).imp_right h.grows.loop.declared

/-- The index of a loop is declared with it. -/
theorem nextIndex_declared (P : String → Prop) (w : Work) :
    ∀ n ∈ (Expr.var w.nextIndex).names, P n ∨ n ∈ w.withLoop.decls.map Decl.name := by
  intro n hn
  rw [List.mem_singleton.mp hn]
  exact Or.inr (Work.name_mem_withDecl _ _)

/-- What filling a table is made of. -/
theorem gives_tableIn {typeName : Option String} {nested : Bool}
    (h : Gives (tableIn s name place path typeName elem nested) w stmts w') :
    ∃ leaves w₁ columns w₂ nestedType, Gives (elementLeaves s name elem) w leaves w₁ ∧
      Gives (carry s path.elements .input leaves) w₁ columns w₂ ∧ w' = w₂.withLoop ∧
      (∀ t ∈ nestedType, t ∈ typeName) ∧ nestedType.isSome = nested ∧
      stmts = copyIn place (.var w₂.nextIndex) nestedType columns := by
  obtain ⟨leaves, w₁, hl, h⟩ := gives_bind.mp h
  obtain ⟨columns, w₂, hc, h⟩ := gives_bind.mp h
  obtain ⟨index, w₃, hi, h⟩ := gives_bind.mp h
  obtain ⟨rfl, rfl⟩ := gives_loopIndex.mp hi
  cases nested with
  | false =>
    obtain ⟨rfl, rfl⟩ := gives_pure.mp h
    exact ⟨leaves, w₁, columns, w₂, none, hl, hc, rfl, by simp, rfl, rfl⟩
  | true =>
    cases typeName with
    | none => exact absurd h not_gives_throw
    | some typeName =>
      obtain ⟨rfl, rfl⟩ := gives_pure.mp h
      exact ⟨leaves, w₁, columns, w₂, some typeName, hl, hc, rfl, fun _ => id, rfl, rfl⟩

/-- What reading a table is made of. -/
theorem gives_tableOut {nested : Bool}
    (h : Gives (tableOut s name place path elem nested) w stmts w') :
    ∃ leaves w₁ columns w₂, Gives (elementLeaves s name elem) w leaves w₁ ∧
      Gives (carry s path.elements .output leaves) w₁ columns w₂ ∧ w' = w₂.withLoop ∧
      stmts = copyOut place (.var w₂.nextIndex) nested s.capacity columns := by
  obtain ⟨leaves, w₁, hl, h⟩ := gives_bind.mp h
  obtain ⟨columns, w₂, hc, h⟩ := gives_bind.mp h
  obtain ⟨index, w₃, hi, h⟩ := gives_bind.mp h
  obtain ⟨rfl, rfl⟩ := gives_loopIndex.mp hi
  obtain ⟨rfl, rfl⟩ := gives_pure.mp h
  exact ⟨leaves, w₁, columns, w₂, hl, hc, rfl, rfl⟩

/-- **Filling a table.** -/
theorem emits_tableIn {typeName : Option String} {nested : Bool}
    (h : Gives (tableIn s name place path typeName elem nested) w stmts w')
    (hflat : .each ∉ path) (hp : place.placeholders = [])
    (hn : ∀ n ∈ place.names, P n ∨ n ∈ w.decls.map Decl.name) (ht : ∀ t ∈ typeName, P t)
    (he : ∀ n ∈ elementNames elem, P n) :
    Emits s P w ((scalarsElem path.elements elem).map (scalarWire .input)) stmts w' := by
  obtain ⟨leaves, w₁, columns, w₂, nestedType, hl, hc, rfl, htype, -, rfl⟩ := gives_tableIn h
  exact emits_of_copies hl hc hflat he (copies_copyIn hp rfl (declared_of_carry hl hc hn)
    (nextIndex_declared P w₂) fun t hm => Or.inl (ht t (htype t hm)))

/-- **Reading a table.** -/
theorem emits_tableOut {nested : Bool}
    (h : Gives (tableOut s name place path elem nested) w stmts w')
    (hflat : .each ∉ path) (hp : place.placeholders = [])
    (hn : ∀ n ∈ place.names, P n ∨ n ∈ w.decls.map Decl.name) (he : ∀ n ∈ elementNames elem, P n) :
    Emits s P w ((scalarsElem path.elements elem).map (scalarWire .output)) stmts w' := by
  obtain ⟨leaves, w₁, columns, w₂, hl, hc, rfl, rfl⟩ := gives_tableOut h
  exact emits_of_copies hl hc hflat he
    (copies_copyOut hp rfl (declared_of_carry hl hc hn) (nextIndex_declared P w₂))

end Moving

end StoredCall
