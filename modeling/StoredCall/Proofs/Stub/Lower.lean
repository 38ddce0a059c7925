import StoredCall.Proofs.Stub.Tables

/-!
# Lowering a call

The parts of a call add up: what fills the locals of composite inputs, the call itself, and what
reads the locals of composite outputs. The wires of each part are read off the subprogram, and the
slots and the placeholders follow from the wires.

* `Argument.emits_lowerIn`, `Argument.emits_lowerOut`: what fills or reads a composite, for its
  scalars.
* `Subprogram.emits_lowerDirect`: all of a call, for `Subprogram.wires`.
* `Subprogram.lower_run`: hence the block and the slots that a subprogram without a replacement
  is turned into.
-/

namespace StoredCall

open Text

variable {s : Setting} {P : String → Prop} {w w₁ w₂ w' : Work} {stmts : List Stmt}

/-! ## Values at the boundary -/

/-- Values that stand in a call for wires, none of which goes through a table. -/
structure Passes (s : Setting) (P : String → Prop) (w : Work) (wires : List Wire)
    (values : List Expr) (w' : Work) : Prop where
  grows : Grows s P w [] w'
  slots : w'.slots = addSlots s.capacity w.slots wires
  flat : ∀ wire ∈ wires, .each ∉ wire.path
  placed : ∀ wire ∈ wires, wire.Placed
  marks : values.flatMap Expr.placeholders = List.range' (w.slots.length + 1) wires.length
  names : ∀ n ∈ values.flatMap Expr.names, P n ∨ n ∈ w'.decls.map Decl.name

theorem Passes.nil : Passes s P w [] [] w where
  grows := .refl
  slots := rfl
  flat := fun _ h => absurd h List.not_mem_nil
  placed := fun _ h => absurd h List.not_mem_nil
  marks := rfl
  names := fun _ h => absurd h List.not_mem_nil

theorem Passes.append {a b : List Wire} {as bs : List Expr} (h₁ : Passes s P w a as w₁)
    (h₂ : Passes s P w₁ b bs w₂) : Passes s P w (a ++ b) (as ++ bs) w₂ := by
  have hlen : w₁.slots.length = w.slots.length + a.length := by
    rw [h₁.slots, length_addSlots]
  refine ⟨h₁.grows.trans h₂.grows, ?_, ?_, ?_, ?_, ?_⟩
  · rw [h₂.slots, h₁.slots, addSlots_append]
  · exact List.forall_mem_append.mpr ⟨h₁.flat, h₂.flat⟩
  · exact List.forall_mem_append.mpr ⟨h₁.placed, h₂.placed⟩
  · rw [List.flatMap_append, h₁.marks, h₂.marks, hlen, List.length_append,
      range'_positions]
  · rw [List.flatMap_append, List.forall_mem_append]
    exact ⟨fun n hn => (h₁.names n hn).imp_right h₂.grows.declared, h₂.names⟩

theorem columnsOf_eq_nil {wires : List Wire} (h : ∀ wire ∈ wires, .each ∉ wire.path) :
    columnsOf wires = [] := by
  refine List.filterMap_eq_nil_iff.mpr fun wire hw => ?_
  cases wire.cargo with
  | cursor columns => rfl
  | scalar s => exact if_neg (h wire hw)

/-- The statement that passes the values. -/
theorem Passes.emits {wires : List Wire} {values : List Expr} {st : Stmt}
    (h : Passes s P w wires values w')
    (hmarks : st.placeholders = values.flatMap Expr.placeholders)
    (hnames : ∀ n ∈ st.names, P n ∨ n ∈ w'.decls.map Decl.name) :
    Emits s P w wires [st] w' := by
  refine ⟨?_, h.slots, ?_, ?_, ?_, h.placed⟩
  · rw [columnsOf_eq_nil h.flat]
    exact h.grows
  · rw [placeholdersAll, placeholdersAll, List.append_nil, hmarks, h.marks]
  · rw [namesAll, namesAll, List.append_nil]
    exact hnames
  · exact fun i wire hi he => absurd he (h.flat wire (List.mem_of_getElem? hi))

theorem passes_slot {wire : Wire} {position : Nat}
    (h : Gives (bindSlot wire.path wire.direction (wire.cargo.kind s.capacity wire.path)) w
      position w') (hflat : .each ∉ wire.path)
    (hc : ∀ {columns : List Column}, wire.cargo = .cursor columns → wire.direction = .output) :
    Passes s P w [wire] [.placeholder position] w' := by
  obtain ⟨rfl, rfl⟩ := gives_bindWire.mp h
  refine ⟨Grows.refl.slot _ _, rfl, ?_, ?_, rfl, ?_⟩
  · simpa using hflat
  · simpa using Wire.placed_of_flat hflat hc
  · exact fun _ h => absurd h (by simp [Expr.names])

/-! ## Composites -/

/-- A place in a block for the value at a path that goes through no table. -/
structure ValuePlace (P : String → Prop) (w : Work) (path : Path) (e : Expr) : Prop where
  flat : .each ∉ path
  marks : e.placeholders = []
  names : ∀ n ∈ e.names, P n ∨ n ∈ w.decls.map Decl.name

namespace ValuePlace

variable {path : Path} {e : Expr}

theorem grows (h : ValuePlace P w path e) {columns : List (Path × Scalar)}
    (hg : Grows s P w columns w') : ValuePlace P w' path e :=
  ⟨h.flat, h.marks, fun n hn => (h.names n hn).imp_right hg.declared⟩

theorem field (h : ValuePlace P w path e) {name : String} (hn : P name) (child : String) :
    ValuePlace P w (path.child child) (.field e name) := by
  refine ⟨?_, h.marks, fun n hm => ?_⟩
  · rw [Path.child, List.mem_append, List.mem_singleton, or_iff_left (by simp)]
    exact h.flat
  · rcases List.mem_append.mp hm with hm | hm
    · exact h.names n hm
    · rw [List.mem_singleton.mp hm]
      exact Or.inl hn

end ValuePlace

/-- One scalar at a path that goes through no table, and the statement with its placeholder. -/
theorem emits_scalar {path : Path} {direction : Direction} {scalar : Scalar} {position : Nat}
    {st : Stmt} (h : Gives (bindSlot path direction (.scalar scalar.kind)) w position w')
    (hflat : .each ∉ path) (hmark : st.placeholders = [position])
    (hn : ∀ n ∈ st.names, P n ∨ n ∈ w.decls.map Decl.name) :
    Emits s P w [scalarWire direction (path, scalar)] [st] w' := by
  rw [← Cargo.kind_scalar_of_notMem hflat s.capacity scalar] at h
  have hp : Passes s P w [scalarWire direction (path, scalar)] [.placeholder position] w' :=
    passes_slot h hflat fun hc => by cases hc
  exact hp.emits hmark fun n hm => (hn n hm).imp_right hp.grows.declared

mutual

/-- **Filling a composite.** -/
theorem Argument.emits_lowerIn : ∀ (a : Argument) {place : Expr} {path : Path} {w w' : Work}
    {stmts : List Stmt}, Gives (a.lowerIn s place path) w stmts w' → ValuePlace P w path place →
      (∀ n ∈ a.names, P n) → Emits s P w ((a.scalars path).map (scalarWire .input)) stmts w'
  | ⟨_, _, _, shape⟩, _, _, _, _, _, h, hp, hn =>
    Shape.emits_lowerIn shape h hp fun n hm => hn n (List.mem_cons_of_mem _ hm)

theorem Shape.emits_lowerIn {name : String} : ∀ (shape : Shape) {place : Expr} {path : Path}
    {w w' : Work} {stmts : List Stmt}, Gives (shape.lowerIn s name place path) w stmts w' →
      ValuePlace P w path place → (∀ n ∈ shape.names, P n) →
        Emits s P w ((shape.scalars path).map (scalarWire .input)) stmts w'
  | .scalar scalar, _, _, _, _, _, h, hp, _ => by
    obtain ⟨position, w₁, hb, h⟩ := gives_bind.mp h
    obtain ⟨rfl, rfl⟩ := gives_pure.mp h
    refine emits_scalar hb hp.flat ?_ ?_
    · rw [Stmt.placeholders, hp.marks]
      rfl
    · simpa [Stmt.names, Expr.names] using hp.names
  | .record _ [], _, _, _, _, _, h, _, _ => absurd h not_gives_throw
  | .record _ (f :: rest), _, _, _, _, _, h, hp, hn =>
    emits_lowerInAll (f :: rest) h hp fun n hm => hn n (List.mem_append_right _ hm)
  | .table _ _ _ true, _, _, _, _, _, h, _, _ => absurd h not_gives_throw
  | .table typeName elem nested false, _, _, _, _, _, h, hp, hn =>
    emits_tableIn h hp.flat hp.marks hp.names
      (fun t hm => hn t (List.mem_append_left _ (Option.mem_toList.mpr hm)))
      (fun n hm => hn n (List.mem_append_right _ hm))

theorem emits_lowerInAll : ∀ (fields : List Argument) {names : List String} {place : Expr}
    {path : Path} {w w' : Work} {stmts : List Stmt},
      Gives (lowerInAll s place path names fields) w stmts w' → ValuePlace P w path place →
        (∀ n ∈ argumentNames fields, P n) →
          Emits s P w ((scalarsAll path names fields).map (scalarWire .input)) stmts w'
  | [], _, _, _, _, _, _, h, _, _ => by
    obtain ⟨rfl, rfl⟩ := gives_pure.mp h
    exact Emits.nil
  | f :: rest, names, _, _, _, _, _, h, hp, hn => by
    obtain ⟨here, w₁, hh, h⟩ := gives_bind.mp h
    obtain ⟨more, w₂, hm, h⟩ := gives_bind.mp h
    obtain ⟨rfl, rfl⟩ := gives_pure.mp h
    rw [argumentNames, List.forall_mem_append] at hn
    have h₁ := Argument.emits_lowerIn f hh (hp.field (hn.1 _ f.name_mem_names) _) hn.1
    have h₂ := emits_lowerInAll rest hm (hp.grows h₁.grows) hn.2
    rw [scalarsAll, List.map_append]
    exact h₁.append h₂

end

mutual

/-- **Reading a composite.** -/
theorem Argument.emits_lowerOut : ∀ (a : Argument) {place : Expr} {path : Path} {w w' : Work}
    {stmts : List Stmt}, Gives (a.lowerOut s place path) w stmts w' → ValuePlace P w path place →
      (∀ n ∈ a.names, P n) → Emits s P w ((a.scalars path).map (scalarWire .output)) stmts w'
  | ⟨_, _, _, shape⟩, _, _, _, _, _, h, hp, hn =>
    Shape.emits_lowerOut shape h hp fun n hm => hn n (List.mem_cons_of_mem _ hm)

theorem Shape.emits_lowerOut {name : String} : ∀ (shape : Shape) {place : Expr} {path : Path}
    {w w' : Work} {stmts : List Stmt}, Gives (shape.lowerOut s name place path) w stmts w' →
      ValuePlace P w path place → (∀ n ∈ shape.names, P n) →
        Emits s P w ((shape.scalars path).map (scalarWire .output)) stmts w'
  | .scalar scalar, _, _, _, _, _, h, hp, _ => by
    obtain ⟨position, w₁, hb, h⟩ := gives_bind.mp h
    obtain ⟨rfl, rfl⟩ := gives_pure.mp h
    refine emits_scalar hb hp.flat ?_ ?_
    · rw [Stmt.placeholders, hp.marks]
      rfl
    · simpa [Stmt.names, Expr.names] using hp.names
  | .record _ [], _, _, _, _, _, h, _, _ => absurd h not_gives_throw
  | .record _ (f :: rest), _, _, _, _, _, h, hp, hn =>
    emits_lowerOutAll (f :: rest) h hp fun n hm => hn n (List.mem_append_right _ hm)
  | .table _ _ _ true, _, _, _, _, _, h, _, _ => absurd h not_gives_throw
  | .table typeName elem nested false, _, _, _, _, _, h, hp, hn =>
    emits_tableOut h hp.flat hp.marks hp.names fun n hm => hn n (List.mem_append_right _ hm)

theorem emits_lowerOutAll : ∀ (fields : List Argument) {names : List String} {place : Expr}
    {path : Path} {w w' : Work} {stmts : List Stmt},
      Gives (lowerOutAll s place path names fields) w stmts w' → ValuePlace P w path place →
        (∀ n ∈ argumentNames fields, P n) →
          Emits s P w ((scalarsAll path names fields).map (scalarWire .output)) stmts w'
  | [], _, _, _, _, _, _, h, _, _ => by
    obtain ⟨rfl, rfl⟩ := gives_pure.mp h
    exact Emits.nil
  | f :: rest, names, _, _, _, _, _, h, hp, hn => by
    obtain ⟨here, w₁, hh, h⟩ := gives_bind.mp h
    obtain ⟨more, w₂, hm, h⟩ := gives_bind.mp h
    obtain ⟨rfl, rfl⟩ := gives_pure.mp h
    rw [argumentNames, List.forall_mem_append] at hn
    have h₁ := Argument.emits_lowerOut f hh (hp.field (hn.1 _ f.name_mem_names) _) hn.1
    have h₂ := emits_lowerOutAll rest hm (hp.grows h₁.grows) hn.2
    rw [scalarsAll, List.map_append]
    exact h₁.append h₂

end

/-! ## Locals -/

theorem Shape.direct?_eq_none_iff {shape : Shape} :
    shape.direct? = none ↔ shape.isComposite = true := by
  rcases shape with _ | _ | ⟨_, _, _, _ | _⟩ <;> simp [Shape.direct?, Shape.isComposite]

/-- An argument under its field name. -/
def Passed.entry (p : Passed) : String × Argument := (p.field, p.arg)

/-- The route of a value fits its shape, and a local that it goes through is declared. -/
def Passed.Routed (w : Work) (p : Passed) : Prop :=
  match p.route with
  | .slot d => p.arg.shape.direct? = some d
  | .through name => p.arg.shape.isComposite = true ∧ name ∈ w.decls.map Decl.name

theorem Passed.Routed.grows {p : Passed} {columns : List (Path × Scalar)} (h : p.Routed w)
    (hg : Grows s P w columns w') : p.Routed w' := by
  unfold Passed.Routed at h ⊢
  split at h
  · exact h
  · exact ⟨h.1, hg.declared h.2⟩

theorem emits_routeOf {field : String} {a : Argument} {route : Route}
    (h : Gives (routeOf s field a) w route w') (hn : ∀ n ∈ a.names, P n) :
    Emits s P w [] [] w' ∧ Passed.Routed w' ⟨field, a, route⟩ := by
  unfold routeOf at h
  cases hd : a.shape.direct? with
  | some d =>
    rw [hd] at h
    obtain ⟨rfl, rfl⟩ := gives_pure.mp h
    exact ⟨Emits.nil, hd⟩
  | none =>
    rw [hd] at h
    obtain ⟨name, w₁, hb, h⟩ := gives_bind.mp h
    obtain ⟨rfl, rfl⟩ := gives_pure.mp h
    obtain ⟨rfl, typeName, ht, rfl⟩ := gives_bridge.mp hb
    have hc := Shape.direct?_eq_none_iff.mp hd
    have hP : P typeName := by
      refine hn typeName ?_
      cases a
      exact List.mem_cons_of_mem _ (Shape.typeName_mem_names hc ht)
    refine ⟨⟨Grows.refl.bridge field hP, Work.withBridge_slots w s field typeName, rfl, ?_, ?_, ?_⟩,
      hc, Work.name_mem_withDecl _ _⟩
    · exact fun _ h => absurd h List.not_mem_nil
    · exact fun _ _ h => absurd h (by simp)
    · exact fun _ h => absurd h List.not_mem_nil

/-- The local of a value is a place for it. -/
theorem place_of_declared {field name : String} (h : name ∈ w.decls.map Decl.name) :
    ValuePlace P w [.field field] (.var name) := by
  refine ⟨by simp, rfl, fun n hn => ?_⟩
  rw [List.mem_singleton.mp hn]
  exact Or.inr h

theorem leafWires_of_direct {a : Argument} {d : Direct} (h : a.shape.direct? = some d)
    (direction : Direction) (field : String) : leafWires direction (field, a) = [] := by
  refine if_neg fun hc => ?_
  rw [Shape.direct?_eq_none_iff.mpr hc] at h
  cases h

theorem emits_fillLocal {p : Passed} (h : Gives (fillLocal s p) w stmts w') (hr : p.Routed w)
    (hn : ∀ n ∈ p.arg.names, P n) :
    Emits s P w (fillWires p.entry) stmts w' := by
  obtain ⟨field, arg, route⟩ := p
  show Emits s P w (if arg.direction.isInput then leafWires .input (field, arg) else []) stmts w'
  cases route with
  | slot d =>
    obtain ⟨rfl, rfl⟩ := gives_pure.mp h
    rw [leafWires_of_direct hr, ite_self]
    exact Emits.nil
  | through name =>
    have h : Gives (if arg.direction.isInput then arg.lowerIn s (.var name) [.field field]
      else pure []) w stmts w' := h
    split at h
    · rename_i hin
      rw [if_pos hin, leafWires, if_pos hr.1]
      exact Argument.emits_lowerIn arg h (place_of_declared hr.2) hn
    · rename_i hin
      rw [if_neg hin]
      obtain ⟨rfl, rfl⟩ := gives_pure.mp h
      exact Emits.nil

theorem emits_readLocal {p : Passed} (h : Gives (readLocal s p) w stmts w') (hr : p.Routed w)
    (hn : ∀ n ∈ p.arg.names, P n) : Emits s P w (leafWires .output p.entry) stmts w' := by
  obtain ⟨field, arg, route⟩ := p
  cases route with
  | slot d =>
    obtain ⟨rfl, rfl⟩ := gives_pure.mp h
    rw [Passed.entry, leafWires_of_direct hr]
    exact Emits.nil
  | through name =>
    rw [Passed.entry, leafWires, if_pos hr.1]
    exact Argument.emits_lowerOut arg h (place_of_declared hr.2) hn

/-- Making the locals of composite arguments and filling those of inputs. -/
theorem emits_passIn : ∀ {entries : List (String × Argument)} {w w' : Work}
    {r : List Passed × List Stmt}, Gives (passIn s entries) w r w' →
      (∀ e ∈ entries, ∀ n ∈ e.2.names, P n) →
        Emits s P w (entries.flatMap fillWires) r.2 w' ∧ r.1.map Passed.entry = entries ∧
          ∀ p ∈ r.1, p.Routed w'
  | [], _, _, _, h, _ => by
    obtain ⟨rfl, rfl⟩ := gives_pure.mp h
    exact ⟨Emits.nil, rfl, fun _ h => absurd h List.not_mem_nil⟩
  | (field, arg) :: rest, _, _, _, h, hn => by
    obtain ⟨route, w₁, hr, h⟩ := gives_bind.mp h
    obtain ⟨here, w₂, hf, h⟩ := gives_bind.mp h
    obtain ⟨⟨more, stmts⟩, w₃, hm, h⟩ := gives_bind.mp h
    obtain ⟨rfl, rfl⟩ := gives_pure.mp h
    rw [List.forall_mem_cons] at hn
    obtain ⟨h₁, hroute⟩ := emits_routeOf hr hn.1
    have h₂ := emits_fillLocal hf hroute hn.1
    obtain ⟨h₃, hent, hrest⟩ := emits_passIn hm hn.2
    refine ⟨?_, congrArg (_ :: ·) hent, List.forall_mem_cons.mpr ⟨?_, hrest⟩⟩
    · exact h₁.append (h₂.append h₃)
    · exact (hroute.grows h₂.grows).grows h₃.grows

/-- Making the local of a composite return value. -/
theorem emits_passReturn {f : Subprogram} {ret : Option Passed}
    (h : Gives (passReturn s f) w ret w') (hn : ∀ r ∈ f.returns, ∀ n ∈ r.names, P n) :
    Emits s P w [] [] w' ∧ ret.toList.map Passed.entry = f.returnEntries ∧
      ∀ p ∈ ret, p.Routed w' := by
  unfold passReturn at h
  unfold Subprogram.returnEntries
  cases hr : f.returns with
  | none =>
    rw [hr] at h
    obtain ⟨rfl, rfl⟩ := gives_pure.mp h
    refine ⟨Emits.nil, ?_, fun _ h => absurd h (by simp)⟩
    cases f.retField <;> rfl
  | some ret =>
    have hfield : f.retField = some (freshName f.argFields Subprogram.returnField) := by
      rw [Subprogram.retField, hr]
      rfl
    rw [hr, hfield] at h
    obtain ⟨route, w₁, hroute, h⟩ := gives_bind.mp h
    obtain ⟨rfl, rfl⟩ := gives_pure.mp h
    obtain ⟨h₁, hrt⟩ := emits_routeOf hroute (hn ret hr)
    refine ⟨h₁, ?_, ?_⟩
    · rw [hfield]
      rfl
    · rintro _ ⟨⟩
      exact hrt

theorem passOut_cons (p : Passed) (rest : List Passed) :
    passOut s (p :: rest) = (if p.arg.direction.isOutput then readLocal s p else pure []) >>=
      fun here => passOut s rest >>= fun more => pure (here ++ more) := by
  rw [passOut]
  split <;> rfl

/-- Reading the locals of composite outputs. -/
theorem emits_passOut : ∀ {passed : List Passed} {w w' : Work} {stmts : List Stmt},
    Gives (passOut s passed) w stmts w' → (∀ p ∈ passed, p.Routed w) →
      (∀ p ∈ passed, ∀ n ∈ p.arg.names, P n) →
        Emits s P w ((passed.map Passed.entry).flatMap readWires) stmts w'
  | [], _, _, _, h, _, _ => by
    obtain ⟨rfl, rfl⟩ := gives_pure.mp h
    exact Emits.nil
  | p :: rest, w, _, _, h, hr, hn => by
    rw [passOut_cons] at h
    obtain ⟨here, w₁, hh, h⟩ := gives_bind.mp h
    obtain ⟨more, w₂, hm, h⟩ := gives_bind.mp h
    obtain ⟨rfl, rfl⟩ := gives_pure.mp h
    rw [List.forall_mem_cons] at hr hn
    have h₁ : Emits s P w (readWires p.entry) here w₁ := by
      show Emits s P w (if p.arg.direction.isOutput then leafWires .output p.entry else []) here w₁
      split at hh
      · rename_i ho
        rw [if_pos ho]
        exact emits_readLocal hh hr.1 hn.1
      · rename_i ho
        rw [if_neg ho]
        obtain ⟨rfl, rfl⟩ := gives_pure.mp hh
        exact Emits.nil
    have h₂ := emits_passOut hm (fun p hp => (hr.2 p hp).grows h₁.grows) hn.2
    exact h₁.append h₂

/-! ## The call -/

/-- A cursor is an output, and its columns are the scalars of a row. -/
theorem gives_bindDirect_cursor {name : String} {path : Path} {direction : Direction}
    {elem : Option Argument} {e : Expr}
    (h : Gives (bindDirect s name path direction (.cursor elem)) w e w') :
    direction = .output ∧ ∃ position, e = .placeholder position ∧
      Gives (bindSlot path .output (.cursor (rowColumns elem))) w position w' := by
  by_cases hd : direction = .output
  · subst hd
    have h : Gives (elementLeaves s name elem >>= fun leaves =>
      bindSlot path .output (.cursor (leaves.map fun leaf => ⟨leaf.path, leaf.scalar.kind⟩)) >>=
        fun position => pure (.placeholder position)) w e w' := h
    obtain ⟨leaves, w₁, hl, h⟩ := gives_bind.mp h
    obtain ⟨position, w₂, hb, h⟩ := gives_bind.mp h
    obtain ⟨rfl, rfl⟩ := gives_pure.mp h
    obtain ⟨rfl, hleaves, -⟩ := gives_elementLeaves hl
    refine ⟨rfl, position, rfl, ?_⟩
    rw [rowColumns, ← hleaves, List.map_map]
    exact hb
  · simp only [bindDirect, ne_eq, hd, not_false_eq_true, if_true] at h
    obtain ⟨_, _, ht, _⟩ := gives_bind.mp h
    exact absurd ht not_gives_throw

theorem passes_placeOf {p : Passed} {direction : Direction} {e : Expr}
    (h : Gives (placeOf s direction p) w e w') (hr : p.Routed w) :
    Passes s P w (directWires direction p.entry) [e] w' := by
  obtain ⟨field, ⟨name, position, dir, shape⟩, route⟩ := p
  cases route with
  | through var =>
    obtain ⟨rfl, rfl⟩ := gives_pure.mp h
    have hw : directWires direction (field, ⟨name, position, dir, shape⟩) = [] := by
      rcases shape with _ | _ | ⟨_, _, _, _ | _⟩ <;>
        first | rfl | exact absurd hr.1 (by simp [Shape.isComposite])
    rw [Passed.entry, hw]
    refine ⟨.refl, rfl, fun _ h => absurd h List.not_mem_nil, fun _ h => absurd h List.not_mem_nil,
      rfl, fun n hn => ?_⟩
    rw [List.flatMap_singleton, Expr.names, List.mem_singleton] at hn
    exact Or.inr (hn ▸ hr.2)
  | slot d =>
    have hflat : (.each : Step) ∉ [Step.field field] := by simp
    have hr : shape.direct? = some d := hr
    rcases shape with scalar | _ | ⟨_, elem, _, _ | _⟩
    · cases hr
      obtain ⟨position, w₁, hb, h⟩ := gives_bind.mp h
      obtain ⟨rfl, rfl⟩ := gives_pure.mp h
      exact passes_slot (Cargo.kind_scalar_of_notMem hflat s.capacity scalar ▸ hb) hflat
        fun hc => by cases hc
    · cases hr
    · cases hr
    · cases hr
      obtain ⟨rfl, position, rfl, hb⟩ := gives_bindDirect_cursor h
      exact passes_slot hb hflat fun _ => rfl

/-- The parameters of a call. -/
theorem passes_params : ∀ {passed : List Passed} {w w' : Work} {ps : List (String × Expr)},
    Gives (params s passed) w ps w' → (∀ p ∈ passed, p.Routed w) →
      Passes s P w ((passed.map Passed.entry).flatMap fun e => directWires e.2.direction e)
          (ps.map Prod.snd) w' ∧ ps.map Prod.fst = passed.map fun p => p.arg.name
  | [], _, _, _, h, _ => by
    obtain ⟨rfl, rfl⟩ := gives_pure.mp h
    exact ⟨Passes.nil, rfl⟩
  | p :: rest, _, _, _, h, hr => by
    obtain ⟨value, w₁, hv, h⟩ := gives_bind.mp h
    obtain ⟨more, w₂, hm, h⟩ := gives_bind.mp h
    obtain ⟨rfl, rfl⟩ := gives_pure.mp h
    rw [List.forall_mem_cons] at hr
    have h₁ := passes_placeOf (P := P) hv hr.1
    obtain ⟨h₂, hnames⟩ := passes_params hm fun p hp => (hr.2 p hp).grows h₁.grows
    exact ⟨h₁.append h₂, congrArg (_ :: ·) hnames⟩

theorem gives_map {α β : Type} {f : α → β} {x : Lower α} {b : β} :
    Gives (f <$> x) w b w' ↔ ∃ a, Gives x w a w' ∧ b = f a := by
  rw [map_eq_pure_bind, gives_bind]
  simp only [gives_pure]
  constructor
  · rintro ⟨a, w₁, hx, rfl, rfl⟩
    exact ⟨a, hx, rfl⟩
  · rintro ⟨a, hx, rfl⟩
    exact ⟨a, w', hx, rfl, rfl⟩

/-- What the result of a call goes to. -/
theorem passes_result {ret : Option Passed} {result : Option Expr}
    (h : Gives (ret.mapM (placeOf s .output)) w result w') (hr : ∀ p ∈ ret, p.Routed w) :
    Passes s P w ((ret.toList.map Passed.entry).flatMap (directWires .output)) result.toList
      w' := by
  cases ret with
  | none =>
    obtain ⟨rfl, rfl⟩ := gives_pure.mp h
    exact Passes.nil
  | some p =>
    obtain ⟨e, he, rfl⟩ := gives_map.mp h
    have hp := passes_placeOf (P := P) he (hr p rfl)
    simpa using hp

/-- The names that come from a subprogram that is called itself. -/
def Subprogram.callNames (f : Subprogram) : List String :=
  f.qualifiedName :: argumentNames (f.args ++ f.returns.toList) ++ f.handles

theorem Stmt.placeholders_call (result : Option Expr) (name : String)
    (ps : List (String × Expr)) : (Stmt.call result name ps).placeholders =
      (result.toList ++ ps.map Prod.snd).flatMap Expr.placeholders := by
  cases result <;> simp [Stmt.placeholders, List.flatMap_map]

theorem Stmt.forall_mem_names_call {Q : String → Prop} {result : Option Expr} {name : String}
    {ps : List (String × Expr)} (hname : Q name) (hps : ∀ n ∈ ps.map Prod.fst, Q n)
    (hvalues : ∀ n ∈ (result.toList ++ ps.map Prod.snd).flatMap Expr.names, Q n) :
    ∀ n ∈ (Stmt.call result name ps).names, Q n := by
  have hparams : ∀ n ∈ ps.flatMap (fun p => p.1 :: p.2.names), Q n := by
    intro n hn
    obtain ⟨p, hp, hn⟩ := List.mem_flatMap.mp hn
    rcases List.mem_cons.mp hn with rfl | hn
    · exact hps _ (List.mem_map_of_mem hp)
    · refine hvalues n (List.mem_flatMap.mpr ⟨p.2, ?_, hn⟩)
      exact List.mem_append_right _ (List.mem_map_of_mem hp)
  cases result with
  | none => exact List.forall_mem_cons.mpr ⟨hname, hparams⟩
  | some result =>
    refine List.forall_mem_append.mpr ⟨fun n hn => ?_, List.forall_mem_cons.mpr ⟨hname, hparams⟩⟩
    exact hvalues n (List.mem_flatMap.mpr ⟨result, List.mem_cons_self, hn⟩)

theorem guardCall_placeholders (exceptions : List String) (call : Stmt) :
    (guardCall exceptions call).placeholders = call.placeholders := by
  unfold guardCall
  split
  · rfl
  · rw [Stmt.placeholders, placeholdersAll, placeholdersAll, List.append_nil]

theorem mem_guardCall_names {exceptions : List String} {call : Stmt} {n : String}
    (h : n ∈ (guardCall exceptions call).names) : n ∈ call.names ∨ n ∈ exceptions := by
  unfold guardCall at h
  split at h
  · exact Or.inl h
  · rw [Stmt.names, namesAll, namesAll, List.append_nil] at h
    exact List.mem_append.mp h

/-- The call itself, with its exceptions. -/
theorem emits_call {f : Subprogram} {wires : List Wire} {result : Option Expr}
    {ps : List (String × Expr)} (h : Passes s P w wires (result.toList ++ ps.map Prod.snd) w')
    (hps : ∀ n ∈ ps.map Prod.fst, P n) (hname : P f.qualifiedName) (hx : ∀ n ∈ f.handles, P n) :
    Emits s P w wires [guardCall f.handles (.call result f.qualifiedName ps)] w' := by
  refine h.emits ?_ fun n hn => ?_
  · rw [guardCall_placeholders, Stmt.placeholders_call]
  · rcases mem_guardCall_names hn with hn | hn
    · exact Stmt.forall_mem_names_call (Or.inl hname) (fun n hm => Or.inl (hps n hm)) h.names n hn
    · exact Or.inl (hx n hn)

/-- Reading the local of a composite return value. -/
theorem emits_last {ret : Option Passed} (h : Gives (ret.elim (pure []) (readLocal s)) w stmts w')
    (hr : ∀ p ∈ ret, p.Routed w) (hn : ∀ p ∈ ret, ∀ n ∈ p.arg.names, P n) :
    Emits s P w ((ret.toList.map Passed.entry).flatMap (leafWires .output)) stmts w' := by
  cases ret with
  | none =>
    obtain ⟨rfl, rfl⟩ := gives_pure.mp h
    exact Emits.nil
  | some p => simpa using emits_readLocal h (hr p rfl) (hn p rfl)

/-- The steps of a call. -/
theorem lowerDirect_eq (f : Subprogram) : lowerDirect s f = (do
    let (passed, before) ← passIn s f.entries
    let ret ← passReturn s f
    let result ← ret.mapM (placeOf s .output)
    let ps ← params s passed
    let after ← passOut s passed
    let last ← ret.elim (pure []) (readLocal s)
    return before ++ guardCall f.handles (.call result f.qualifiedName ps) :: after ++ last) := by
  unfold lowerDirect
  refine bind_congr fun r => bind_congr fun ret => ?_
  cases ret <;> rfl

/-- **All of a call.** -/
theorem Subprogram.emits_lowerDirect {f : Subprogram} (h : Gives (lowerDirect s f) w stmts w')
    (hn : ∀ n ∈ f.callNames, P n) : Emits s P w f.wires stmts w' := by
  obtain ⟨hname, hargs, hx⟩ : P f.qualifiedName ∧
      (∀ n ∈ argumentNames (f.args ++ f.returns.toList), P n) ∧ ∀ n ∈ f.handles, P n := by
    simpa [callNames, or_imp, forall_and] using hn
  have hins : ∀ e ∈ f.entries, ∀ n ∈ e.2.names, P n := fun e he n hm =>
    hargs n (mem_argumentNames.mpr ⟨e.2, List.mem_append_left _ (List.of_mem_zip he).2, hm⟩)
  have houts : ∀ r ∈ f.returns, ∀ n ∈ r.names, P n := fun r hr n hm =>
    hargs n (mem_argumentNames.mpr ⟨r, List.mem_append_right _ (Option.mem_toList.mpr hr), hm⟩)
  rw [lowerDirect_eq] at h
  obtain ⟨⟨passed, before⟩, w₁, hin, h⟩ := gives_bind.mp h
  obtain ⟨ret, w₂, hret, h⟩ := gives_bind.mp h
  obtain ⟨result, w₃, hres, h⟩ := gives_bind.mp h
  obtain ⟨ps, w₄, hps, h⟩ := gives_bind.mp h
  obtain ⟨after, w₅, hout, h⟩ := gives_bind.mp h
  obtain ⟨last, w₆, hlast, h⟩ := gives_bind.mp h
  obtain ⟨rfl, rfl⟩ := gives_pure.mp h
  obtain ⟨h₁, hpassed, hr₁⟩ := emits_passIn (P := P) hin hins
  obtain ⟨h₂, hreturn, hr₂⟩ := emits_passReturn (P := P) hret houts
  have hnames : ∀ p ∈ passed, ∀ n ∈ p.arg.names, P n := fun p hp =>
    hins p.entry (hpassed ▸ List.mem_map_of_mem hp)
  have hnames' : ∀ p ∈ ret, ∀ n ∈ p.arg.names, P n := by
    intro p hp
    have hm : p.entry ∈ f.returnEntries :=
      hreturn ▸ List.mem_map_of_mem (Option.mem_toList.mpr hp)
    exact houts p.arg (Option.mem_toList.mp (List.of_mem_zip hm).2)
  have h₃ := passes_result (P := P) hres hr₂
  have hr₃ : ∀ p ∈ passed, p.Routed w₃ := fun p hp => ((hr₁ p hp).grows h₂.grows).grows h₃.grows
  obtain ⟨h₄, hfst⟩ := passes_params (P := P) hps hr₃
  have hcall := emits_call (h₃.append h₄) (f := f) (fun n hn => by
    obtain ⟨p, hp, rfl⟩ := List.mem_map.mp (hfst ▸ hn)
    exact hnames p hp _ p.arg.name_mem_names) hname hx
  have h₅ := emits_passOut hout (fun p hp => (hr₃ p hp).grows h₄.grows) hnames
  have h₆ := emits_last hlast
    (fun p hp => (((hr₂ p hp).grows h₃.grows).grows h₄.grows).grows h₅.grows) hnames'
  rw [hreturn, hpassed] at hcall
  rw [hpassed] at h₅
  rw [hreturn] at h₆
  simpa [Subprogram.wires] using (h₁.append (h₂.append (hcall.append h₅))).append h₆

namespace Subprogram

/-- How many elements an array of a call holds. -/
def arrayCapacity (f : Subprogram) (capacity : Nat) : Nat := f.maxTableSize.getD capacity

/-- What is fixed for the lowering of a subprogram. -/
def setting (f : Subprogram) (capacity : Nat) : Setting :=
  ⟨f.text, f.package, f.arrayCapacity capacity⟩

/-- **The block and the slots of a subprogram without a replacement are what its wires give.** -/
theorem lower_run {f : Subprogram} {capacity : Nat} {names names' : Names} {b : Block}
    {slots : List Slot} (hr : f.replacement = none)
    (h : (f.lower capacity).run names = (.ok (b, slots), names'))
    (hn : ∀ n ∈ f.callNames, P n) :
    ∃ loops, Emits (f.setting capacity) P { names } f.wires b.body
      { names := names', decls := b.decls, slots, loops } := by
  have hsetting : ⟨f.text, f.package, f.maxTableSize.getD capacity⟩ = f.setting capacity := rfl
  unfold lower at h
  simp only [hr, hsetting, ExceptT.run_mk] at h
  rcases hl : (lowerDirect (f.setting capacity) f).run { names } with ⟨_ | body, w⟩
  · rw [hl] at h
    cases h
  · rw [hl] at h
    cases h
    exact ⟨w.loops, emits_lowerDirect hl hn⟩

/-- What a subprogram with a replacement is turned into. -/
theorem lower_run_replacement {f : Subprogram} {capacity : Nat} {names names' : Names} {b : Block}
    {slots : List Slot} {r : Replacement} (hr : f.replacement = some r)
    (h : (f.lower capacity).run names = (.ok (b, slots), names')) :
    lowerReplacement f.text f.handles r = .ok (b, slots) := by
  unfold lower at h
  rw [hr] at h
  have h : (ofExcept (lowerReplacement f.text f.handles r) :
    ExceptT Error (StateM Names) (Block × List Slot)).run names = (.ok (b, slots), names') := h
  cases hl : lowerReplacement f.text f.handles r with
  | error e =>
    rw [hl] at h
    cases h
  | ok result =>
    rw [hl] at h
    cases h
    rfl

end Subprogram

theorem lowerReplacement_eq_ok {label : String} {handles : List String} {r : Replacement}
    {b : Block} {slots : List Slot} (h : lowerReplacement label handles r = .ok (b, slots)) :
    b = ⟨[], [guardCall handles (documentCall r.subprogram)]⟩ ∧
      slots = documentSlots r.format (r.subprogram.returns.toList.map (fun _ => .output)
        ++ r.subprogram.args.map Argument.direction) := by
  unfold lowerReplacement at h
  simp only at h
  split at h
  · cases h
    exact ⟨rfl, rfl⟩
  · cases h

end StoredCall
