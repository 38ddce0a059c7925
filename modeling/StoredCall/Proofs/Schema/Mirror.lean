import StoredCall.Proofs.Call.Outputs
import StoredCall.Proofs.Schema.Leaves

/-!
# Schemas mirror plans

A schema and a plan are made from the same subprogram, each on its own. What a plan can be made for,
a message can express; and what a message has for leaves is what the slots of the plan carry.

* `Subprogram.isExpressible_of_generate`: a subprogram that has a plan has a call in the schema.
* `Argument.scalars_ne_nil`: what can be expressed holds a scalar.
* `Wire.leafPaths` and `Slot.leafPaths`: the paths of the scalars that a wire or a slot carries, one
  for each column of a cursor.
* `Subprogram.crosses_input`, `Subprogram.crosses_output`: those of a call are the scalars of its
  request and of its response.
* **`Stub.mirrored_of_generate`**: hence the leaves of the request and the response in the schema
  are at the paths of the input and the output slots.
-/

namespace StoredCall

open Text

/-! ## What has a plan can be expressed -/

mutual

theorem Argument.expressible_of_leaves {label : String} : ∀ (a : Argument) {label' : String}
    {inElement : Bool} {fields : List String} {path : Path} {leaves : List Leaf},
      a.leaves label fields path = .ok leaves → a.expressible label' inElement = .ok ()
  | ⟨_, _, _, shape⟩, _, _, _, _, _, h => Shape.expressible_of_leaves shape h

/-- An element whose scalars can be listed has no table inside. -/
theorem Shape.expressible_of_leaves {label name : String} : ∀ (shape : Shape) {label' : String}
    {inElement : Bool} {fields : List String} {path : Path} {leaves : List Leaf},
      shape.leaves label name fields path = .ok leaves →
        shape.expressible label' name inElement = .ok ()
  | .scalar _, _, _, _, _, _, _ => rfl
  | .record _ [], _, _, _, _, _, h => by cases h
  | .record _ (f :: rest), _, _, _, _, _, h => expressibleAll_of_leaves (f :: rest) h
  | .table .., _, _, _, _, _, h => by cases h

theorem expressibleAll_of_leaves {label : String} : ∀ (fs : List Argument) {label' : String}
    {names fields : List String} {path : Path} {leaves : List Leaf},
      leavesAll label fields path names fs = .ok leaves → expressibleAll label' fs = .ok ()
  | [], _, _, _, _, _, _ => rfl
  | f :: rest, _, _, _, _, _, h => by
    obtain ⟨here, hhere, h⟩ := except_bind_eq_ok.mp h
    obtain ⟨more, hmore, -⟩ := except_bind_eq_ok.mp h
    exact except_bind_eq_ok.mpr
      ⟨(), Argument.expressible_of_leaves f hhere, expressibleAll_of_leaves rest hmore⟩

end

mutual

/-- What can be expressed holds a scalar, since an empty record is refused. -/
theorem Argument.scalars_ne_nil {label : String} : ∀ (a : Argument) {inElement : Bool}
    {path : Path}, a.expressible label inElement = .ok () → a.scalars path ≠ []
  | ⟨_, _, _, shape⟩, _, _, h => Shape.scalars_ne_nil shape h

theorem Shape.scalars_ne_nil {label name : String} : ∀ (shape : Shape) {inElement : Bool}
    {path : Path}, shape.expressible label name inElement = .ok () → shape.scalars path ≠ []
  | .scalar _, _, _, _ => List.cons_ne_nil _ _
  | .record _ [], _, _, h => by cases h
  | .record _ (f :: rest), _, _, h => by
    obtain ⟨_, hf, -⟩ := except_bind_eq_ok.mp h
    exact List.append_ne_nil_of_left_ne_nil (Argument.scalars_ne_nil f hf) _
  | .table _ _ _ _, true, _, h => by cases h
  | .table _ none _ _, false, _, h => by cases h
  | .table _ (some elem) _ _, false, _, h => Argument.scalars_ne_nil elem h

end

section Lower

variable {s : Setting} {w w₁ w' : Work} {stmts : List Stmt} {label : String}

theorem expressibleElement_of_leaves {name label' name' : String} {elem : Option Argument}
    {leaves : List Leaf} (h : Gives (elementLeaves s name elem) w leaves w') :
    expressibleElement label' name' elem = .ok () := by
  cases elem with
  | none => exact absurd h not_gives_throw
  | some elem => exact Argument.expressible_of_leaves elem (gives_ofExcept.mp h).1

mutual

/-- What can be filled can be expressed. -/
theorem Argument.expressible_of_lowerIn : ∀ (a : Argument) {place : Expr} {path : Path}
    {w w' : Work} {stmts : List Stmt}, Gives (a.lowerIn s place path) w stmts w' →
      a.expressible label false = .ok ()
  | ⟨_, _, _, shape⟩, _, _, _, _, _, h => Shape.expressible_of_lowerIn shape h

theorem Shape.expressible_of_lowerIn {name : String} : ∀ (shape : Shape) {place : Expr}
    {path : Path} {w w' : Work} {stmts : List Stmt},
      Gives (shape.lowerIn s name place path) w stmts w' →
        shape.expressible label name false = .ok ()
  | .scalar _, _, _, _, _, _, _ => rfl
  | .record _ [], _, _, _, _, _, h => absurd h not_gives_throw
  | .record _ (f :: rest), _, _, _, _, _, h => expressibleAll_of_lowerIn (f :: rest) h
  | .table _ _ _ true, _, _, _, _, _, h => absurd h not_gives_throw
  | .table _ _ _ false, _, _, _, _, _, h => by
    obtain ⟨leaves, w₁, hleaves, -⟩ := gives_bind.mp h
    exact expressibleElement_of_leaves hleaves

theorem expressibleAll_of_lowerIn : ∀ (fields : List Argument) {names : List String}
    {place : Expr} {path : Path} {w w' : Work} {stmts : List Stmt},
      Gives (lowerInAll s place path names fields) w stmts w' → expressibleAll label fields = .ok ()
  | [], _, _, _, _, _, _, _ => rfl
  | f :: rest, _, _, _, _, _, _, h => by
    obtain ⟨here, w₁, hhere, h⟩ := gives_bind.mp h
    obtain ⟨more, w₂, hmore, -⟩ := gives_bind.mp h
    exact except_bind_eq_ok.mpr
      ⟨(), Argument.expressible_of_lowerIn f hhere, expressibleAll_of_lowerIn rest hmore⟩

end

mutual

/-- What can be read can be expressed. -/
theorem Argument.expressible_of_lowerOut : ∀ (a : Argument) {place : Expr} {path : Path}
    {w w' : Work} {stmts : List Stmt}, Gives (a.lowerOut s place path) w stmts w' →
      a.expressible label false = .ok ()
  | ⟨_, _, _, shape⟩, _, _, _, _, _, h => Shape.expressible_of_lowerOut shape h

theorem Shape.expressible_of_lowerOut {name : String} : ∀ (shape : Shape) {place : Expr}
    {path : Path} {w w' : Work} {stmts : List Stmt},
      Gives (shape.lowerOut s name place path) w stmts w' →
        shape.expressible label name false = .ok ()
  | .scalar _, _, _, _, _, _, _ => rfl
  | .record _ [], _, _, _, _, _, h => absurd h not_gives_throw
  | .record _ (f :: rest), _, _, _, _, _, h => expressibleAll_of_lowerOut (f :: rest) h
  | .table _ _ _ true, _, _, _, _, _, h => absurd h not_gives_throw
  | .table _ _ _ false, _, _, _, _, _, h => by
    obtain ⟨leaves, w₁, hleaves, -⟩ := gives_bind.mp h
    exact expressibleElement_of_leaves hleaves

theorem expressibleAll_of_lowerOut : ∀ (fields : List Argument) {names : List String}
    {place : Expr} {path : Path} {w w' : Work} {stmts : List Stmt},
      Gives (lowerOutAll s place path names fields) w stmts w' →
        expressibleAll label fields = .ok ()
  | [], _, _, _, _, _, _, _ => rfl
  | f :: rest, _, _, _, _, _, _, h => by
    obtain ⟨here, w₁, hhere, h⟩ := gives_bind.mp h
    obtain ⟨more, w₂, hmore, -⟩ := gives_bind.mp h
    exact except_bind_eq_ok.mpr
      ⟨(), Argument.expressible_of_lowerOut f hhere, expressibleAll_of_lowerOut rest hmore⟩

end

/-- A value that stands in the call can be expressed, if it does not go through a local or what goes
through its local can be. -/
theorem Passed.expressible {p : Passed} {direction : Direction} {e : Expr}
    (hplace : Gives (placeOf s direction p) w e w') (hr : p.Routed w₁)
    (hlocal : ∀ name, p.route = .through name → p.arg.expressible label false = .ok ()) :
    p.arg.expressible label false = .ok () := by
  obtain ⟨field, ⟨name, position, dir, shape⟩, route⟩ := p
  cases route with
  | through name => exact hlocal name rfl
  | slot d =>
    have hr : shape.direct? = some d := hr
    rcases shape with scalar | _ | ⟨_, elem, _, _ | _⟩
    · rfl
    · cases hr
    · cases hr
    · cases hr
      obtain ⟨rfl, -⟩ := gives_bindDirect_cursor hplace
      have hplace : Gives (elementLeaves s name elem >>= _) w e w' := hplace
      obtain ⟨leaves, w₂, hleaves, -⟩ := gives_bind.mp hplace
      exact expressibleElement_of_leaves hleaves

/-- Each argument got its parts of the block. -/
theorem gives_fillLocal_of_passIn : ∀ {entries : List (String × Argument)} {w w' : Work}
    {r : List Passed × List Stmt}, Gives (passIn s entries) w r w' →
      ∀ p ∈ r.1, ∃ w₁ stmts w₂, Gives (fillLocal s p) w₁ stmts w₂
  | [], _, _, _, h => by
    obtain ⟨rfl, rfl⟩ := gives_pure.mp h
    exact fun _ h => absurd h List.not_mem_nil
  | (field, arg) :: rest, _, _, _, h => by
    obtain ⟨route, w₁, hr, h⟩ := gives_bind.mp h
    obtain ⟨here, w₂, hf, h⟩ := gives_bind.mp h
    obtain ⟨⟨more, stmts⟩, w₃, hm, h⟩ := gives_bind.mp h
    obtain ⟨rfl, rfl⟩ := gives_pure.mp h
    exact List.forall_mem_cons.mpr ⟨⟨_, _, _, hf⟩, gives_fillLocal_of_passIn hm⟩

theorem gives_placeOf_of_params : ∀ {passed : List Passed} {w w' : Work}
    {ps : List (String × Expr)}, Gives (params s passed) w ps w' →
      ∀ p ∈ passed, ∃ w₁ e w₂, Gives (placeOf s p.arg.direction p) w₁ e w₂
  | [], _, _, _, _ => fun _ h => absurd h List.not_mem_nil
  | p :: rest, _, _, _, h => by
    obtain ⟨value, w₁, hv, h⟩ := gives_bind.mp h
    obtain ⟨more, w₂, hm, -⟩ := gives_bind.mp h
    exact List.forall_mem_cons.mpr ⟨⟨_, _, _, hv⟩, gives_placeOf_of_params hm⟩

theorem gives_readLocal_of_passOut : ∀ {passed : List Passed} {w w' : Work} {stmts : List Stmt},
    Gives (passOut s passed) w stmts w' → ∀ p ∈ passed, p.arg.direction.isOutput = true →
      ∃ w₁ stmts w₂, Gives (readLocal s p) w₁ stmts w₂
  | [], _, _, _, _ => fun _ h => absurd h List.not_mem_nil
  | p :: rest, _, _, _, h => by
    rw [passOut_cons] at h
    obtain ⟨here, w₁, hh, h⟩ := gives_bind.mp h
    obtain ⟨more, w₂, hm, -⟩ := gives_bind.mp h
    refine List.forall_mem_cons.mpr ⟨fun hout => ?_, gives_readLocal_of_passOut hm⟩
    rw [if_pos hout] at hh
    exact ⟨_, _, _, hh⟩

theorem Subprogram.map_snd_entries (f : Subprogram) : f.entries.map Prod.snd = f.args :=
  List.map_snd_zip (by rw [f.length_argFields])

theorem Subprogram.map_snd_returnEntries (f : Subprogram) :
    f.returnEntries.map Prod.snd = f.returns.toList := by
  unfold returnEntries retField
  cases f.returns <;> rfl

theorem Direction.isInput_or_isOutput (d : Direction) : d.isInput = true ∨ d.isOutput = true := by
  cases d <;> simp [isInput, isOutput]

/-- A value that was read, or stands in the call as a placeholder, can be expressed. -/
theorem Passed.expressible_of_readLocal {p : Passed} {direction : Direction} {e : Expr}
    {w₂ w₃ : Work} (hplace : Gives (placeOf s direction p) w e w') (hr : p.Routed w₁)
    (hread : Gives (readLocal s p) w₂ stmts w₃) : p.arg.expressible label false = .ok () := by
  refine Passed.expressible hplace hr fun name hroute => ?_
  unfold readLocal at hread
  rw [hroute] at hread
  exact Argument.expressible_of_lowerOut p.arg hread

theorem Passed.expressible_of_fillLocal {p : Passed} {direction : Direction} {e : Expr}
    {w₂ w₃ : Work} (hplace : Gives (placeOf s direction p) w e w') (hr : p.Routed w₁)
    (hfill : Gives (fillLocal s p) w₂ stmts w₃) (hin : p.arg.direction.isInput = true) :
    p.arg.expressible label false = .ok () := by
  refine Passed.expressible hplace hr fun name hroute => ?_
  unfold fillLocal at hfill
  simp only [hroute, hin, if_true] at hfill
  exact Argument.expressible_of_lowerIn p.arg hfill

/-- **A subprogram that is turned into a block can be expressed.** -/
theorem Subprogram.expressible_of_lowerDirect {f : Subprogram}
    (h : Gives (lowerDirect s f) w stmts w') : f.expressible = .ok () := by
  rw [lowerDirect_eq] at h
  obtain ⟨⟨passed, before⟩, w₁, hin, h⟩ := gives_bind.mp h
  obtain ⟨ret, w₂, hret, h⟩ := gives_bind.mp h
  obtain ⟨result, w₃, hres, h⟩ := gives_bind.mp h
  obtain ⟨ps, w₄, hps, h⟩ := gives_bind.mp h
  obtain ⟨after, w₅, hout, h⟩ := gives_bind.mp h
  obtain ⟨last, w₆, hlast, -⟩ := gives_bind.mp h
  obtain ⟨-, hpassed, hr₁⟩ := emits_passIn (P := fun _ => True) hin fun _ _ _ _ => trivial
  obtain ⟨-, hreturn, hr₂⟩ := emits_passReturn (P := fun _ => True) hret fun _ _ _ _ => trivial
  refine expressibleAll_eq_ok_iff.mpr (List.forall_mem_append.mpr ⟨fun a ha => ?_, fun a ha => ?_⟩)
  · rw [← f.map_snd_entries, ← hpassed, List.map_map] at ha
    obtain ⟨p, hp, rfl⟩ := List.mem_map.mp ha
    obtain ⟨_, _, _, hplace⟩ := gives_placeOf_of_params hps p hp
    rcases p.arg.direction.isInput_or_isOutput with hd | hd
    · obtain ⟨_, _, _, hfill⟩ := gives_fillLocal_of_passIn hin p hp
      exact Passed.expressible_of_fillLocal hplace (hr₁ p hp) hfill hd
    · obtain ⟨_, _, _, hread⟩ := gives_readLocal_of_passOut hout p hp hd
      exact Passed.expressible_of_readLocal hplace (hr₁ p hp) hread
  · rw [← f.map_snd_returnEntries, ← hreturn, List.map_map] at ha
    obtain ⟨p, hp, rfl⟩ := List.mem_map.mp ha
    obtain rfl : ret = some p := Option.mem_toList.mp hp
    obtain ⟨_, hplace, -⟩ := gives_map.mp hres
    exact Passed.expressible_of_readLocal hplace (hr₂ p rfl) hlast

end Lower

/-- What has a plan of its own has a call in the schema. -/
theorem Subprogram.isExpressible_of_generate {c : StubConfig} {f : Subprogram}
    {names names' : Names} {stub : Stub} (hr : f.replacement = none)
    (h : (Stub.generate c f).run names = (.ok stub, names')) : f.isExpressible = true := by
  obtain ⟨block, slots, hlower, -⟩ := Stub.lower_of_generate h
  unfold Subprogram.lower at hlower
  simp only [hr, ExceptT.run_mk] at hlower
  rcases hrun : (lowerDirect (f.setting c.maxTableSize) f).run { names } with ⟨_ | stmts, w⟩
  · rw [setting, arrayCapacity] at hrun
    rw [hrun] at hlower
    cases hlower
  · exact Subprogram.isExpressible_iff.mpr (Subprogram.expressible_of_lowerDirect hrun)

/-! ## What slots carry -/

/-- The paths of the scalars that a wire carries: those of its columns inside the rows of a
cursor. -/
def Wire.leafPaths (wire : Wire) : List Path :=
  match wire.cargo with
  | .scalar _ => [wire.path]
  | .cursor columns => columns.map fun c => wire.path.elements ++ c.path

/-- The paths of the scalars that a slot carries. -/
def Slot.leafPaths (slot : Slot) : List Path :=
  match slot.kind with
  | .cursor columns => columns.map fun c => slot.path.elements ++ c.path
  | _ => [slot.path]

theorem Wire.leafPaths_slot (wire : Wire) (capacity : Nat) (before : List Slot) :
    (wire.slot capacity before).leafPaths = wire.leafPaths := by
  have hkind : (wire.slot capacity before).kind = wire.cargo.kind capacity wire.path := rfl
  obtain ⟨path, direction, s | columns⟩ := wire
  · unfold Slot.leafPaths
    rw [hkind]
    by_cases h : .each ∈ path
    · rw [Cargo.kind_scalar_of_mem h]
      rfl
    · rw [Cargo.kind_scalar_of_notMem h]
      rfl
  · rfl

/-- A wire in one of the chosen directions carries the scalar at a path. -/
def Crosses (chosen : Direction → Bool) (wires : List Wire) (p : Path) : Prop :=
  ∃ wire ∈ wires, chosen wire.direction = true ∧ p ∈ wire.leafPaths

section Crosses

variable {chosen : Direction → Bool} {p : Path} {d : Direction} {e : String × Argument}

theorem crosses_append {a b : List Wire} :
    Crosses chosen (a ++ b) p ↔ Crosses chosen a p ∨ Crosses chosen b p := by
  simp [Crosses, or_and_right, exists_or]

theorem crosses_flatMap {g : String × Argument → List Wire} {entries : Named} :
    Crosses chosen (entries.flatMap g) p ↔ ∃ e ∈ entries, Crosses chosen (g e) p := by
  unfold Crosses
  constructor
  · rintro ⟨wire, hw, h⟩
    obtain ⟨e, he, hw⟩ := List.mem_flatMap.mp hw
    exact ⟨e, he, wire, hw, h⟩
  · rintro ⟨e, he, wire, hw, h⟩
    exact ⟨wire, List.mem_flatMap.mpr ⟨e, he, hw⟩, h⟩

theorem crosses_if {b : Bool} {wires : List Wire} :
    Crosses chosen (if b then wires else []) p ↔ b = true ∧ Crosses chosen wires p := by
  cases b <;> simp [Crosses]

/-- The wires of a composite carry its scalars. -/
theorem crosses_leafWires : Crosses chosen (leafWires d e) p ↔ e.2.shape.isComposite = true ∧
    chosen d = true ∧ p ∈ (e.2.scalars [.field e.1]).map Prod.fst := by
  rw [leafWires, crosses_if]
  refine and_congr_right fun _ => ?_
  constructor
  · rintro ⟨_, hw, hd, hp⟩
    obtain ⟨x, hx, rfl⟩ := List.mem_map.mp hw
    rw [List.mem_singleton.mp hp]
    exact ⟨hd, List.mem_map_of_mem hx⟩
  · rintro ⟨hd, hp⟩
    obtain ⟨x, hx, rfl⟩ := List.mem_map.mp hp
    exact ⟨_, List.mem_map_of_mem hx, hd, List.mem_singleton_self _⟩

/-- The wire of a scalar carries it, and that of a cursor the scalars of its rows. -/
theorem crosses_directWires : Crosses chosen (directWires d e) p ↔
    e.2.shape.isComposite = false ∧ chosen d = true ∧
      p ∈ (e.2.scalars [.field e.1]).map Prod.fst := by
  obtain ⟨n, name, position, direction, shape⟩ := e
  rcases shape with s | _ | ⟨_, elem, _, _ | _⟩
  · simp [Crosses, directWires, Shape.isComposite, Wire.leafPaths, Argument.scalars, Shape.scalars]
  · simp [Crosses, directWires, Shape.isComposite]
  · simp [Crosses, directWires, Shape.isComposite]
  · have hrows : (rowColumns elem).map (fun c => Path.elements [.field n] ++ c.path) =
        (scalarsElem (Path.elements [.field n]) elem).map Prod.fst := by
      have happend := scalarsElem_append (Path.elements [.field n]) [] elem
      rw [List.append_nil] at happend
      rw [happend, rowColumns, List.map_map, List.map_map]
      rfl
    have hpaths : Wire.leafPaths ⟨[.field n], d, .cursor (rowColumns elem)⟩ =
        (scalarsElem (Path.elements [.field n]) elem).map Prod.fst := hrows
    simp only [Crosses, directWires, Shape.isComposite, List.mem_singleton, exists_eq_left, hpaths,
      true_and]
    rfl

namespace Subprogram

variable {f : Subprogram}

/-- **What a call takes in** is its request. -/
theorem crosses_input : Crosses Direction.isInput f.wires p ↔ p ∈ pathsOf f.requestFields := by
  have hno : Direction.output.isInput = false := rfl
  rw [mem_pathsOf]
  unfold wires fillWires readWires
  simp only [crosses_append, crosses_flatMap, crosses_if, crosses_leafWires, crosses_directWires,
    hno, Bool.false_eq_true, false_and, and_false, exists_false, or_false]
  constructor
  · rintro (⟨e, he, hin, -, -, hp⟩ | ⟨e, he, -, hin, hp⟩) <;>
      exact ⟨e, List.mem_filter.mpr ⟨he, hin⟩, hp⟩
  · rintro ⟨e, he, hp⟩
    obtain ⟨he, hin⟩ := List.mem_filter.mp he
    by_cases hc : e.2.shape.isComposite = true
    · exact .inl ⟨e, he, hin, hc, rfl, hp⟩
    · exact .inr ⟨e, he, Bool.eq_false_iff.mpr hc, hin, hp⟩

/-- **What a call gives out** is its response. -/
theorem crosses_output : Crosses Direction.isOutput f.wires p ↔ p ∈ pathsOf f.responseFields := by
  have hno : Direction.input.isOutput = false := rfl
  rw [mem_pathsOf]
  unfold wires fillWires readWires
  simp only [crosses_append, crosses_flatMap, crosses_if, crosses_leafWires, crosses_directWires,
    hno, Bool.false_eq_true, false_and, and_false, exists_false, false_or]
  constructor
  · rintro (((⟨e, he, -, -, hp⟩ | ⟨e, he, -, hout, hp⟩) | ⟨e, he, hout, -, -, hp⟩) |
      ⟨e, he, -, -, hp⟩)
    · exact ⟨e, List.mem_append_left _ he, hp⟩
    · exact ⟨e, List.mem_append_right _ (List.mem_filter.mpr ⟨he, hout⟩), hp⟩
    · exact ⟨e, List.mem_append_right _ (List.mem_filter.mpr ⟨he, hout⟩), hp⟩
    · exact ⟨e, List.mem_append_left _ he, hp⟩
  · rintro ⟨e, he, hp⟩
    by_cases hc : e.2.shape.isComposite = true
    · rcases List.mem_append.mp he with he | he
      · exact .inr ⟨e, he, hc, rfl, hp⟩
      · obtain ⟨he, hout⟩ := List.mem_filter.mp he
        exact .inl (.inr ⟨e, he, hout, hc, rfl, hp⟩)
    · have hc := Bool.eq_false_iff.mpr hc
      rcases List.mem_append.mp he with he | he
      · exact .inl (.inl (.inl ⟨e, he, hc, rfl, hp⟩))
      · obtain ⟨he, hout⟩ := List.mem_filter.mp he
        exact .inl (.inl (.inr ⟨e, he, hc, hout, hp⟩))

end Subprogram

end Crosses

namespace Stub

variable {c : StubConfig} {f : Subprogram} {names names' : Names} {stub : Stub} {p : Path}

/-- The slots of a generated plan carry what the wires of its subprogram carry. -/
theorem exists_slot_iff_crosses (hr : f.replacement = none)
    (h : (generate c f).run names = (.ok stub, names')) {chosen : Direction → Bool} :
    (∃ slot ∈ stub.plan.slots, chosen slot.direction = true ∧ p ∈ slot.leafPaths) ↔
      Crosses chosen f.wires p := by
  constructor
  · rintro ⟨slot, hs, hd, hp⟩
    obtain ⟨wire, hw, -, before, rfl⟩ := wire_of_generate hr h hs
    rw [Wire.leafPaths_slot] at hp
    exact ⟨wire, hw, hd, hp⟩
  · rintro ⟨wire, hw, hd, hp⟩
    obtain ⟨i, hi⟩ := List.getElem?_of_mem hw
    have hslot : _ ∈ addSlots (f.arrayCapacity c.maxTableSize) [] f.wires :=
      List.mem_of_getElem? (slot_of_wire hi)
    rw [← (slots_of_generate hr h).1] at hslot
    exact ⟨_, hslot, hd, by rwa [Wire.leafPaths_slot]⟩

/-- The paths of input slots are those of a request. Cursors only come out. -/
theorem exists_input_iff (hr : f.replacement = none)
    (h : (generate c f).run names = (.ok stub, names')) :
    (∃ slot ∈ stub.plan.slots, slot.direction.isInput = true ∧ slot.path = p) ↔
      p ∈ pathsOf f.requestFields := by
  rw [← Subprogram.crosses_input, ← exists_slot_iff_crosses hr h]
  refine exists_congr fun slot => and_congr_right fun hs => and_congr_right fun hin => ?_
  obtain ⟨wire, hw, hplaced, before, rfl⟩ := wire_of_generate hr h hs
  have hpaths : (wire.slot (f.arrayCapacity c.maxTableSize) before).leafPaths = [wire.path] := by
    rw [Wire.leafPaths_slot]
    unfold Wire.leafPaths
    cases hcargo : wire.cargo with
    | scalar s => rfl
    | cursor columns =>
      have hin : wire.direction.isInput = true := hin
      rw [hplaced.comesOut hcargo] at hin
      cases hin
  rw [hpaths, List.mem_singleton]
  exact eq_comm

end Stub

/-- Fewer subprograms have fewer record types. -/
theorem TypesAgree.mono {fs gs : List Subprogram} (h : TypesAgree gs) (hsub : fs ⊆ gs) :
    TypesAgree fs := by
  have hinside : ∀ {a}, Inside fs a → Inside gs a := fun {a} ha => by
    induction ha with
    | arg hf ha => exact .arg (hsub hf) ha
    | part _ hb ih => exact ih.part hb
  exact fun a b t as bs ha hb => h a b t as bs (hinside ha) (hinside hb)

/-- **Schemas mirror plans.** If records of one type name have the same fields, a subprogram that
has a plan of its own has a call in the schema. The leaves of its request are at the paths of the
input slots, and those of its response at the paths of what the output slots carry. -/
theorem Stub.mirrored_of_generate {fs : List Subprogram} (hagree : TypesAgree fs) {f : Subprogram}
    (hf : f ∈ fs) (hr : f.replacement = none) {c : StubConfig} {names names' : Names} {stub : Stub}
    (h : (generate c f).run names = (.ok stub, names')) (sc : SchemaConfig) (package : String) :
    ∃ s, Schema.ofSubprograms sc package fs = .ok s ∧ ∃ rpc ∈ s.rpcs, rpc.name = pascal f.ident ∧
      (∀ p, s.HasLeaf rpc.input p ↔
        ∃ slot ∈ stub.plan.slots, slot.direction.isInput = true ∧ slot.path = p) ∧
      ∀ p, s.HasLeaf rpc.output p ↔
        ∃ slot ∈ stub.plan.slots, slot.direction.isOutput = true ∧ p ∈ slot.leafPaths := by
  obtain ⟨s, layout, e, hs, hmessages, -, hsound, hcalls, -⟩ := Schema.exists_sound sc package fs
  have hagree := hagree.mono (List.filter_sublist (p := Subprogram.isExpressible)).subset
  obtain ⟨rpc, hrpc, hcall⟩ := exists_of_forall₂ hcalls
    (List.mem_filter.mpr ⟨hf, Subprogram.isExpressible_of_generate hr h⟩)
  refine ⟨s, hs, rpc, hrpc, hcall.name, fun p => ?_, fun p => ?_⟩
  · rw [Schema.hasLeaf_iff hsound hagree hmessages hcall.input, exists_input_iff hr h, Purpose.args]
  · rw [Schema.hasLeaf_iff hsound hagree hmessages hcall.output, exists_slot_iff_crosses hr h,
      Subprogram.crosses_output, Purpose.args]

namespace Stub

/-- A procedure with a table of the records that a statement takes one of. -/
def openAccounts : Subprogram where
  package := "BILLING"
  name := "OPEN_ACCOUNTS"
  args := [
    { name := "P_ACCOUNTS", direction := .input, shape := .table (some "BILLING.ACCOUNTS") (some
      { name := "", direction := .input, shape := .record (some "BILLING.ACCOUNT") [
        textArgument "OWNER" .input] }) true false }]

/-- The shapes inside the two subprograms. -/
inductive IsBilling : Shape → Prop where
  | text : IsBilling (.scalar (.named "VARCHAR2"))
  | account (d : Direction) :
      IsBilling (.record (some "BILLING.ACCOUNT") [textArgument "OWNER" d])
  | line : IsBilling (.record (some "BILLING.LINE") [
      textArgument "ID" .output, textArgument "NOTE" .output])
  | rows {t : Option String} {elem : Argument} {nested cursor : Bool} : IsBilling elem.shape →
      IsBilling (.table t (some elem) nested cursor)

theorem IsBilling.part {shape : Shape} (h : IsBilling shape) {b : Argument}
    (hb : b ∈ shape.parts) : IsBilling b.shape := by
  cases h with
  | text => cases hb
  | account d =>
    rw [List.mem_singleton.mp hb]
    exact .text
  | line =>
    rcases List.mem_pair.mp hb with rfl | rfl <;> exact .text
  | rows h =>
    rw [List.mem_singleton.mp hb]
    exact h

theorem IsBilling.record {t : String} {fields : List Argument}
    (h : IsBilling (.record (some t) fields)) :
    (t = "BILLING.ACCOUNT" ∧ ∃ d, fields = [textArgument "OWNER" d]) ∨
      (t = "BILLING.LINE" ∧ fields = [textArgument "ID" .output, textArgument "NOTE" .output]) := by
  cases h with
  | account d => exact .inl ⟨rfl, d, rfl⟩
  | line => exact .inr ⟨rfl, rfl⟩

theorem isBilling_of_inside {a : Argument} (h : Inside [openAccounts, statement] a) :
    IsBilling a.shape := by
  induction h with
  | arg hf ha =>
    rcases List.mem_pair.mp hf with rfl | rfl
    · obtain rfl := List.mem_singleton.mp ha
      exact .rows (.account _)
    · simp only [statement, Option.toList_some, List.cons_append, List.nil_append, List.mem_cons,
        List.not_mem_nil, or_false] at ha
      rcases ha with rfl | rfl | rfl | rfl | rfl | rfl
      · exact .text
      · exact .account _
      · exact .rows .line
      · exact .rows .text
      · exact .rows .text
      · exact .text
  | part _ hb ih => exact ih.part hb

theorem openAccounts_typesAgree : TypesAgree [openAccounts, statement] := by
  intro a b t as bs ha hb has hbs
  have ha := isBilling_of_inside ha
  have hb := isBilling_of_inside hb
  rw [has] at ha
  rw [hbs] at hb
  rcases ha.record with ⟨rfl, d, rfl⟩ | ⟨rfl, rfl⟩ <;>
    rcases hb.record with ⟨ht, d', rfl⟩ | ⟨ht, rfl⟩
  · exact ⟨rfl, trivial, trivial⟩
  · exact absurd ht (by decide)
  · exact absurd ht (by decide)
  · exact ⟨rfl, trivial, rfl, trivial, trivial⟩

/-- The message of accounts is made for those that are opened, and the statement shares it. -/
theorem statement_mirrored : TypesAgree [openAccounts, statement] ∧
    statement ∈ [openAccounts, statement] ∧ statement.replacement = none ∧ ∃ stub names' s,
      (generate {} statement).run [] = (.ok stub, names') ∧
      Schema.ofSubprograms {} "BILLING" [openAccounts, statement] = .ok s ∧ ∃ rpc ∈ s.rpcs,
        rpc.name = "Statement" ∧
        (∀ p, s.HasLeaf rpc.input p ↔ p = [.field "p_account", .field "owner"]) ∧
        ∀ p, s.HasLeaf rpc.output p ↔ p ∈ ([[.field "ret_2"], [.field "ret"],
          [.field "p_paid", .each], [.field "p_open", .each], [.field "p_account", .field "owner"],
          [.field "p_lines", .each, .field "id"], [.field "p_lines", .each, .field "note"]] :
            List Path) := by
  have hslots : ((generate {} statement).run []).1.map (fun stub =>
      ((stub.plan.slots.filter fun slot => slot.direction.isInput).map Slot.path,
        (stub.plan.slots.filter fun slot => slot.direction.isOutput).flatMap Slot.leafPaths)) =
      .ok ([[.field "p_account", .field "owner"]], [[.field "ret_2"], [.field "ret"],
        [.field "p_paid", .each], [.field "p_open", .each], [.field "p_account", .field "owner"],
        [.field "p_lines", .each, .field "id"], [.field "p_lines", .each, .field "note"]]) := by
    decide +kernel
  have hmem : statement ∈ [openAccounts, statement] := List.mem_cons_of_mem _ List.mem_cons_self
  rcases hg : (generate {} statement).run [] with ⟨_ | stub, names'⟩
  · rw [hg] at hslots
    cases hslots
  · rw [hg] at hslots
    obtain ⟨hin, hout⟩ := Prod.mk.inj (Except.ok.inj hslots)
    obtain ⟨s, hs, rpc, hrpc, hname, hinput, houtput⟩ :=
      mirrored_of_generate openAccounts_typesAgree hmem rfl hg {} "BILLING"
    refine ⟨openAccounts_typesAgree, hmem, rfl, stub, names', s, rfl, hs, rpc, hrpc, ?_, ?_, ?_⟩
    · rw [hname]
      decide +kernel
    · intro p
      rw [hinput, ← List.mem_singleton, ← hin]
      simp [and_assoc]
    · intro p
      rw [houtput, ← hout]
      simp [and_assoc]

end Stub

end StoredCall
