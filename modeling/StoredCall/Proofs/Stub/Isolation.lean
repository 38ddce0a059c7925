import StoredCall.Proofs.Schema.Mirror

/-!
# Stubs are made each for itself

The stubs of a package are made one after the other, and share the identifiers of their locals:
which one a local gets depends on the subprograms before, also on those that were refused. Nothing
else does. Whether a subprogram is accepted, why it is refused and what its call takes and gives is
the same as if its stub were the only one.

* `Error.Refuses` are the failures that say why one subprogram cannot be represented.
* `Tandem` runs two programs side by side, each from a state of its own: both are refused for one
  reason, or both succeed with results that are related.
* `Subprogram.tandem_lowerDirect`: so do two runs that lower a subprogram.
* `columns_ne_nil`: every table that is copied has a column for the loop to go by.
* **`Stub.isolated_generateAll`**: the stubs that are made together are those that can be made
  alone.
-/

namespace StoredCall

open Text

/-! ## Runs side by side -/

/-- A failure that says why the subprogram of a label cannot be represented. -/
inductive Error.Refuses (label : String) : Error → Prop
  | notSupported (reason : Unsupported) : Refuses label (.notSupported label reason)
  | missingElementType (argument : String) : Refuses label (.missingElementType label argument)

theorem Error.Refuses.isSkippable {label : String} {e : Error} (h : e.Refuses label) :
    e.isSkippable = true := by
  cases h <;> rfl

/-- Two results are related, or they are one and the same refusal. -/
inductive SameVerdict {α β : Type} (label : String) (R : α → β → Prop) :
    Except Error α → Except Error β → Prop
  | accepted {a : α} {b : β} (h : R a b) : SameVerdict label R (.ok a) (.ok b)
  | refused {e : Error} (h : e.Refuses label) : SameVerdict label R (.error e) (.error e)

/-- Two programs come to the same verdict, whatever each of them starts from. -/
def Tandem {α β : Type} (label : String) (R : α → β → Prop) (x : Lower α) (y : Lower β) : Prop :=
  ∀ w v, SameVerdict label R (x.run w).1 (y.run v).1

/-- Results of any kind. -/
abbrev Any {α β : Type} : α → β → Prop := fun _ _ => True

section Tandem

variable {α β γ δ : Type} {label : String} {R : α → β → Prop} {S : γ → δ → Prop}

theorem SameVerdict.cases {x : Except Error α} {y : Except Error β} (h : SameVerdict label R x y) :
    (∃ a b, x = .ok a ∧ y = .ok b ∧ R a b) ∨
      ∃ e, x = .error e ∧ y = .error e ∧ e.Refuses label := by
  cases h with
  | accepted h => exact .inl ⟨_, _, rfl, rfl, h⟩
  | refused h => exact .inr ⟨_, rfl, rfl, h⟩

theorem SameVerdict.bind {x : Except Error α} {y : Except Error β} {f : α → Except Error γ}
    {g : β → Except Error δ} (h : SameVerdict label R x y)
    (hf : ∀ a b, R a b → SameVerdict label S (f a) (g b)) :
    SameVerdict label S (x >>= f) (y >>= g) := by
  cases h with
  | accepted h => exact hf _ _ h
  | refused h => exact .refused h

theorem tandem_pure {a : α} {b : β} (h : R a b) : Tandem label R (pure a) (pure b) :=
  fun _ _ => .accepted h

theorem tandem_throw {e : Error} (h : e.Refuses label) : Tandem label R (throw e) (throw e) :=
  fun _ _ => .refused h

theorem tandem_ofExcept {x : Except Error α} {y : Except Error β} (h : SameVerdict label R x y) :
    Tandem label R (ofExcept x) (ofExcept y) := by
  intro w v
  rw [run_ofExcept, run_ofExcept]
  exact h

/-- Programs that never fail come to the same verdict. -/
theorem tandem_of_gives {x : Lower α} {y : Lower β} (hx : ∀ w, ∃ a w', Gives x w a w')
    (hy : ∀ w, ∃ b w', Gives y w b w') : Tandem label Any x y := by
  intro w v
  obtain ⟨a, w', ha⟩ := hx w
  obtain ⟨b, v', hb⟩ := hy v
  rw [ha, hb]
  exact .accepted trivial

/-- Runs that go on from the same verdict come to the same verdict, if what comes second does for
all results of the first that are related. -/
theorem SameVerdict.run_bind {σ : Type} {x : ExceptT Error (StateM σ) α}
    {y : ExceptT Error (StateM σ) β} {f : α → ExceptT Error (StateM σ) γ}
    {g : β → ExceptT Error (StateM σ) δ} {w v : σ} (h : SameVerdict label R (x.run w).1 (y.run v).1)
    (hf : ∀ a b w' v', R a b → SameVerdict label S ((f a).run w').1 ((g b).run v').1) :
    SameVerdict label S ((x >>= f).run w).1 ((y >>= g).run v).1 := by
  rw [StoredCall.run_bind, StoredCall.run_bind]
  rcases h.cases with ⟨a, b, hx, hy, hab⟩ | ⟨e, hx, hy, he⟩
  · rw [run_of_fst hx, run_of_fst hy]
    exact hf a b _ _ hab
  · rw [run_of_fst hx, run_of_fst hy]
    exact .refused he

/-- **Programs that follow each other keep in tandem.** -/
theorem Tandem.bind {x : Lower α} {y : Lower β} {f : α → Lower γ} {g : β → Lower δ}
    (h : Tandem label R x y) (hf : ∀ a b, R a b → Tandem label S (f a) (g b)) :
    Tandem label S (x >>= f) (y >>= g) :=
  fun w v => (h w v).run_bind fun a b w' v' hab => hf a b hab w' v'

/-- Results that do not matter are left out of account. -/
theorem Tandem.andThen {x : Lower α} {y : Lower β} {f : α → Lower γ} {g : β → Lower δ}
    (h : Tandem label Any x y) (hf : ∀ a b, Tandem label S (f a) (g b)) :
    Tandem label S (x >>= f) (y >>= g) :=
  h.bind fun a b _ => hf a b

end Tandem

/-! ## Elements of tables -/

mutual

/-- The scalars of an element can be listed, or the element is refused. -/
theorem Argument.sameVerdict_leaves {label : String} : ∀ (a : Argument) (fields : List String)
    (path : Path), SameVerdict label Eq (a.leaves label fields path) (a.leaves label fields path)
  | ⟨name, _, _, shape⟩, fields, path => Shape.sameVerdict_leaves shape name fields path

theorem Shape.sameVerdict_leaves {label : String} : ∀ (shape : Shape) (name : String)
    (fields : List String) (path : Path),
      SameVerdict label Eq (shape.leaves label name fields path)
        (shape.leaves label name fields path)
  | .scalar _, _, _, _ => .accepted rfl
  | .record _ [], _, _, _ => .refused (.notSupported _)
  | .record _ (f :: rest), _, fields, path => sameVerdict_leavesAll (f :: rest) _ fields path
  | .table .., _, _, _ => .refused (.notSupported _)

theorem sameVerdict_leavesAll {label : String} : ∀ (fs : List Argument) (names fields : List String)
    (path : Path), SameVerdict label Eq (leavesAll label fields path names fs)
      (leavesAll label fields path names fs)
  | [], _, _, _ => .accepted rfl
  | f :: rest, names, fields, path => by
    rw [leavesAll]
    refine (Argument.sameVerdict_leaves f _ _).bind fun here _ hhere => ?_
    refine (sameVerdict_leavesAll rest names.tail fields path).bind fun more _ hmore => ?_
    exact .accepted (hhere ▸ hmore ▸ rfl)

end

section Lowering

variable {s : Setting} {label : String}

theorem tandem_elementLeaves (name : String) (elem : Option Argument) :
    Tandem s.label Eq (elementLeaves s name elem) (elementLeaves s name elem) := by
  cases elem with
  | none => exact tandem_throw (.missingElementType name)
  | some elem => exact tandem_ofExcept (elem.sameVerdict_leaves [] [])

/-! ## What never fails -/

theorem tandem_bindSlot (path : Path) (direction : Direction) (kind : SlotKind) :
    Tandem label Any (bindSlot path direction kind) (bindSlot path direction kind) :=
  tandem_of_gives (fun _ => ⟨_, _, gives_bindSlot.mpr ⟨rfl, rfl⟩⟩)
    fun _ => ⟨_, _, gives_bindSlot.mpr ⟨rfl, rfl⟩⟩

theorem tandem_loopIndex : Tandem label Any loopIndex loopIndex :=
  tandem_of_gives (fun _ => ⟨_, _, gives_loopIndex.mpr ⟨rfl, rfl⟩⟩)
    fun _ => ⟨_, _, gives_loopIndex.mpr ⟨rfl, rfl⟩⟩

theorem tandem_arrayLocal (each : Path) (leaf : Leaf) :
    Tandem label Any (arrayLocal s each leaf) (arrayLocal s each leaf) :=
  tandem_of_gives (fun _ => ⟨_, _, gives_arrayLocal.mpr ⟨rfl, rfl⟩⟩)
    fun _ => ⟨_, _, gives_arrayLocal.mpr ⟨rfl, rfl⟩⟩

theorem tandem_carry (each : Path) (direction : Direction) : ∀ leaves : List Leaf,
    Tandem label Any (carry s each direction leaves) (carry s each direction leaves)
  | [] => tandem_pure trivial
  | leaf :: rest => by
    rw [carry]
    refine (tandem_arrayLocal each leaf).andThen fun _ _ => ?_
    refine (tandem_bindSlot _ _ _).andThen fun _ _ => ?_
    exact (tandem_carry each direction rest).andThen fun _ _ => tandem_pure trivial

/-- **A table that is copied has a column**, by which the loop of the copy goes. -/
theorem columns_ne_nil {name : String} {elem : Option Argument} {path : Path}
    {direction : Direction} {w w' : Work} {columns : List Carried}
    (h : Gives (elementLeaves s name elem >>= carry s path.elements direction) w columns w') :
    columns ≠ [] := by
  obtain ⟨leaves, w₁, hleaves, hcarry⟩ := gives_bind.mp h
  have he : .each ∈ path.elements := List.mem_append_right _ List.mem_cons_self
  have hcarriage := carriage_of_carry (P := fun _ => True) he hcarry
  rintro rfl
  cases elem with
  | none => exact absurd hleaves not_gives_throw
  | some elem =>
    obtain ⟨hleaves, -⟩ := gives_ofExcept.mp hleaves
    have hnone : elem.scalars [] = [] := by
      rw [← elem.map_leaves hleaves, ← hcarriage.carried]
      rfl
    have hexpr : elem.expressible s.label true = .ok () := elem.expressible_of_leaves hleaves
    exact elem.scalars_ne_nil hexpr hnone

/-! ## Composites -/

theorem tandem_tableIn (name : String) (place place' : Expr) (path : Path)
    (typeName : Option String) (elem : Option Argument) (nested : Bool) :
    Tandem s.label Any (tableIn s name place path typeName elem nested)
      (tableIn s name place' path typeName elem nested) := by
  unfold tableIn
  refine (tandem_elementLeaves name elem).bind ?_
  rintro leaves _ rfl
  refine (tandem_carry _ _ leaves).andThen fun _ _ => tandem_loopIndex.andThen fun _ _ => ?_
  cases nested with
  | false => exact tandem_pure trivial
  | true =>
    cases typeName with
    | none => exact tandem_throw (.notSupported _)
    | some typeName => exact tandem_pure trivial

theorem tandem_tableOut (name : String) (place place' : Expr) (path : Path)
    (elem : Option Argument) (nested : Bool) :
    Tandem s.label Any (tableOut s name place path elem nested)
      (tableOut s name place' path elem nested) := by
  unfold tableOut
  refine (tandem_elementLeaves name elem).bind ?_
  rintro leaves _ rfl
  refine (tandem_carry _ _ leaves).andThen fun _ _ => tandem_loopIndex.andThen fun _ _ => ?_
  exact tandem_pure trivial

mutual

/-- **Filling a composite**, whatever the local that stands for it. -/
theorem Argument.tandem_lowerIn : ∀ (a : Argument) (place place' : Expr) (path : Path),
    Tandem s.label Any (a.lowerIn s place path) (a.lowerIn s place' path)
  | ⟨name, _, _, shape⟩, place, place', path =>
    Shape.tandem_lowerIn shape name place place' path

theorem Shape.tandem_lowerIn : ∀ (shape : Shape) (name : String) (place place' : Expr)
    (path : Path), Tandem s.label Any (shape.lowerIn s name place path)
      (shape.lowerIn s name place' path)
  | .scalar _, _, _, _, _ => (tandem_bindSlot _ _ _).andThen fun _ _ => tandem_pure trivial
  | .record _ [], _, _, _, _ => tandem_throw (.notSupported _)
  | .record _ (f :: rest), _, place, place', path =>
    tandem_lowerInAll (f :: rest) _ place place' path
  | .table _ _ _ true, _, _, _, _ => tandem_throw (.notSupported _)
  | .table typeName elem nested false, name, place, place', path =>
    tandem_tableIn name place place' path typeName elem nested

theorem tandem_lowerInAll : ∀ (fields : List Argument) (names : List String)
    (place place' : Expr) (path : Path), Tandem s.label Any
      (lowerInAll s place path names fields) (lowerInAll s place' path names fields)
  | [], _, _, _, _ => tandem_pure trivial
  | f :: rest, names, place, place', path => by
    rw [lowerInAll, lowerInAll]
    refine (Argument.tandem_lowerIn f _ _ _).andThen fun _ _ => ?_
    refine (tandem_lowerInAll rest names.tail place place' path).andThen fun _ _ => ?_
    exact tandem_pure trivial

end

mutual

/-- **Reading a composite**, whatever the local that stands for it. -/
theorem Argument.tandem_lowerOut : ∀ (a : Argument) (place place' : Expr) (path : Path),
    Tandem s.label Any (a.lowerOut s place path) (a.lowerOut s place' path)
  | ⟨name, _, _, shape⟩, place, place', path =>
    Shape.tandem_lowerOut shape name place place' path

theorem Shape.tandem_lowerOut : ∀ (shape : Shape) (name : String) (place place' : Expr)
    (path : Path), Tandem s.label Any (shape.lowerOut s name place path)
      (shape.lowerOut s name place' path)
  | .scalar _, _, _, _, _ => (tandem_bindSlot _ _ _).andThen fun _ _ => tandem_pure trivial
  | .record _ [], _, _, _, _ => tandem_throw (.notSupported _)
  | .record _ (f :: rest), _, place, place', path =>
    tandem_lowerOutAll (f :: rest) _ place place' path
  | .table _ _ _ true, _, _, _, _ => tandem_throw (.notSupported _)
  | .table _ elem nested false, name, place, place', path =>
    tandem_tableOut name place place' path elem nested

theorem tandem_lowerOutAll : ∀ (fields : List Argument) (names : List String)
    (place place' : Expr) (path : Path), Tandem s.label Any
      (lowerOutAll s place path names fields) (lowerOutAll s place' path names fields)
  | [], _, _, _, _ => tandem_pure trivial
  | f :: rest, names, place, place', path => by
    rw [lowerOutAll, lowerOutAll]
    refine (Argument.tandem_lowerOut f _ _ _).andThen fun _ _ => ?_
    refine (tandem_lowerOutAll rest names.tail place place' path).andThen fun _ _ => ?_
    exact tandem_pure trivial

end

/-! ## The call -/

/-- Two ways by which one argument gets to the call: the slot that can stand for it, or a local each
if it is a composite. -/
inductive Passed.Alike : Passed → Passed → Prop
  | slot {field : String} {a : Argument} {d : Direct} (h : a.shape.direct? = some d) :
    Alike ⟨field, a, .slot d⟩ ⟨field, a, .slot d⟩
  | through {field : String} {a : Argument} (name name' : String) (h : a.shape.direct? = none) :
    Alike ⟨field, a, .through name⟩ ⟨field, a, .through name'⟩

theorem Passed.Alike.arg_eq {p q : Passed} (h : p.Alike q) : p.arg = q.arg := by
  cases h <;> rfl

/-- A composite goes through a local. -/
theorem Passed.Routed.through_of_isComposite {p : Passed} {w : Work} (h : p.Routed w)
    (hc : p.arg.shape.isComposite = true) : ∃ name, p.route = .through name := by
  obtain ⟨field, a, d | name⟩ := p
  · have h : a.shape.direct? = some d := h
    rw [Shape.direct?_eq_none_iff.mpr hc] at h
    cases h
  · exact ⟨name, rfl⟩

theorem tandem_bridge (a : Argument) (field : String) :
    Tandem s.label Any (bridge s a (bridgeLong field)) (bridge s a (bridgeLong field)) := by
  cases ht : a.shape.typeName with
  | none =>
    unfold bridge
    rw [ht]
    exact tandem_throw (.notSupported _)
  | some typeName =>
    exact tandem_of_gives (fun _ => ⟨_, _, gives_bridge.mpr ⟨rfl, typeName, ht, rfl⟩⟩)
      fun _ => ⟨_, _, gives_bridge.mpr ⟨rfl, typeName, ht, rfl⟩⟩

theorem tandem_routeOf (field : String) (a : Argument) :
    Tandem s.label (fun r r' => Passed.Alike ⟨field, a, r⟩ ⟨field, a, r'⟩) (routeOf s field a)
      (routeOf s field a) := by
  unfold routeOf
  cases hd : a.shape.direct? with
  | some d => exact tandem_pure (.slot hd)
  | none =>
    exact (tandem_bridge a field).andThen fun name name' => tandem_pure (.through name name' hd)

theorem tandem_fillLocal {p q : Passed} (h : p.Alike q) :
    Tandem s.label Any (fillLocal s p) (fillLocal s q) := by
  cases h with
  | slot h => exact tandem_pure trivial
  | @through field a name name' h =>
    unfold fillLocal
    simp only
    split
    · exact a.tandem_lowerIn _ _ _
    · exact tandem_pure trivial

theorem tandem_readLocal {p q : Passed} (h : p.Alike q) :
    Tandem s.label Any (readLocal s p) (readLocal s q) := by
  cases h with
  | slot h => exact tandem_pure trivial
  | @through field a name name' h => exact a.tandem_lowerOut _ _ _

theorem tandem_bindDirect (name : String) (path : Path) (direction : Direction) (d : Direct) :
    Tandem s.label Any (bindDirect s name path direction d)
      (bindDirect s name path direction d) := by
  cases d with
  | scalar scalar => exact (tandem_bindSlot _ _ _).andThen fun _ _ => tandem_pure trivial
  | cursor elem =>
    by_cases hd : direction = .output
    · subst hd
      refine (tandem_elementLeaves name elem).bind ?_
      rintro leaves _ rfl
      exact (tandem_bindSlot _ _ _).andThen fun _ _ => tandem_pure trivial
    -- a cursor that goes in is refused before its rows are looked at
    · simp only [bindDirect, ne_eq, hd, not_false_eq_true, if_true]
      refine Tandem.bind (R := fun _ _ => False) ?_ fun _ _ h => h.elim
      exact tandem_throw (.notSupported _)

theorem tandem_placeOf (direction : Direction) {p q : Passed} (h : p.Alike q) :
    Tandem s.label Any (placeOf s direction p) (placeOf s direction q) := by
  cases h with
  | slot h => exact tandem_bindDirect _ _ _ _
  | through name name' h => exact tandem_pure trivial

/-- Making the locals of composite arguments and filling those of inputs. -/
theorem tandem_passIn : ∀ entries : List (String × Argument),
    Tandem s.label (fun r r' => List.Forall₂ Passed.Alike r.1 r'.1) (passIn s entries)
      (passIn s entries)
  | [] => tandem_pure .nil
  | (field, a) :: rest => by
    rw [passIn]
    refine (tandem_routeOf field a).bind fun r r' hroute => ?_
    refine (tandem_fillLocal hroute).andThen fun _ _ => ?_
    refine (tandem_passIn rest).bind fun more more' hmore => ?_
    exact tandem_pure (.cons hroute hmore)

theorem tandem_passReturn (f : Subprogram) :
    Tandem s.label (Option.Rel Passed.Alike) (passReturn s f) (passReturn s f) := by
  unfold passReturn
  split
  · exact (tandem_routeOf _ _).bind fun r r' hroute => tandem_pure (.some hroute)
  · exact tandem_pure .none

/-- The parameters of a call. -/
theorem tandem_params : ∀ {ps qs : List Passed}, List.Forall₂ Passed.Alike ps qs →
    Tandem s.label Any (params s ps) (params s qs)
  | _, _, .nil => tandem_pure trivial
  | p :: ps, q :: qs, .cons h hrest => by
    rw [params, params, ← h.arg_eq]
    refine (tandem_placeOf _ h).andThen fun _ _ => ?_
    exact (tandem_params hrest).andThen fun _ _ => tandem_pure trivial

/-- Reading the locals of composite outputs. -/
theorem tandem_passOut : ∀ {ps qs : List Passed}, List.Forall₂ Passed.Alike ps qs →
    Tandem s.label Any (passOut s ps) (passOut s qs)
  | _, _, .nil => tandem_pure trivial
  | p :: ps, q :: qs, .cons h hrest => by
    rw [passOut_cons, passOut_cons, ← h.arg_eq]
    refine Tandem.andThen ?_ fun _ _ =>
      (tandem_passOut hrest).andThen fun _ _ => tandem_pure trivial
    split
    · exact tandem_readLocal h
    · exact tandem_pure trivial

theorem tandem_result {ret ret' : Option Passed} (h : Option.Rel Passed.Alike ret ret') :
    Tandem s.label Any (ret.mapM (placeOf s .output)) (ret'.mapM (placeOf s .output)) := by
  cases h with
  | none => exact tandem_pure trivial
  | some h => exact (tandem_placeOf .output h).andThen fun _ _ => tandem_pure trivial

theorem tandem_last {ret ret' : Option Passed} (h : Option.Rel Passed.Alike ret ret') :
    Tandem s.label Any (ret.elim (pure []) (readLocal s)) (ret'.elim (pure []) (readLocal s)) := by
  cases h with
  | none => exact tandem_pure trivial
  | some h => exact tandem_readLocal h

/-- **Lowering a subprogram comes to one verdict**, from any two states. -/
theorem Subprogram.tandem_lowerDirect (f : Subprogram) :
    Tandem s.label Any (lowerDirect s f) (lowerDirect s f) := by
  rw [lowerDirect_eq]
  refine (tandem_passIn f.entries).bind fun _ _ hpassed => ?_
  refine (tandem_passReturn f).bind fun _ _ hret => ?_
  refine (tandem_result hret).andThen fun _ _ => ?_
  refine (tandem_params hpassed).andThen fun _ _ => ?_
  refine (tandem_passOut hpassed).andThen fun _ _ => ?_
  exact (tandem_last hret).andThen fun _ _ => tandem_pure trivial

end Lowering

/-! ## Subprograms -/

namespace Subprogram

theorem sameVerdict_lowerReplacement (label : String) (handles : List String) (r : Replacement) :
    SameVerdict label Eq (lowerReplacement label handles r) (lowerReplacement label handles r) := by
  unfold lowerReplacement
  simp only
  split
  · exact .accepted rfl
  · exact .refused (.notSupported _)

/-- **Lowering a subprogram comes to one verdict and to the same slots**, whatever identifiers have
been given out before. -/
theorem sameVerdict_lower (f : Subprogram) (capacity : Nat) (names names' : Names) :
    SameVerdict f.text (fun r r' => r.2 = r'.2) ((f.lower capacity).run names).1
      ((f.lower capacity).run names').1 := by
  unfold lower
  cases hr : f.replacement with
  | some r =>
    simp only [run_ofExcept]
    rcases (sameVerdict_lowerReplacement f.text f.handles r).cases with h | ⟨e, he, -, href⟩
    · obtain ⟨a, -, ha, -, -⟩ := h
      rw [ha]
      exact .accepted rfl
    · rw [he]
      exact .refused href
  | none =>
    have hsetting : ⟨f.text, f.package, f.maxTableSize.getD capacity⟩ = f.setting capacity := rfl
    have h := f.tandem_lowerDirect (s := f.setting capacity) { names } { names := names' }
    simp only [hsetting, ExceptT.run_mk]
    rcases h.cases with ⟨body, body', hw, hv, -⟩ | ⟨e, hw, hv, he⟩
    · have hw := gives_of_fst hw
      have hv := gives_of_fst hv
      -- both lists of slots are made from the wires, in which no identifier of a local occurs
      have hslots := (emits_lowerDirect (P := fun _ => True) hw fun _ _ => trivial).slots
      have hslots' := (emits_lowerDirect (P := fun _ => True) hv fun _ _ => trivial).slots
      rw [hw, hv]
      exact .accepted (hslots.trans hslots'.symm)
    · rw [run_of_fst hw, run_of_fst hv]
      exact .refused he

end Subprogram

/-! ## Stubs -/

namespace Stub

/-- Two stubs are for the same call: their plans differ at most in the text of the block, where
locals may go by other identifiers. -/
structure SameCall (a b : Stub) : Prop where
  subprogram : a.subprogram = b.subprogram
  plan : a.plan = { b.plan with block := a.plan.block }

/-- The stub of a subprogram that is made with no identifiers given out before, if it can be. -/
def alone (c : StubConfig) (f : Subprogram) : Option Stub := ((generate c f).run []).1.toOption

/-- **A stub is made for the same call or refused for the same reason**, whatever identifiers have
been given out before. -/
theorem sameVerdict_generate (c : StubConfig) (f : Subprogram) (names names' : Names) :
    SameVerdict f.text SameCall ((generate c f).run names).1 ((generate c f).run names').1 := by
  refine (f.sameVerdict_lower c.maxTableSize names names').run_bind ?_
  rintro ⟨block, slots⟩ ⟨block', slots'⟩ w w' hslots
  obtain rfl : slots = slots' := hslots
  exact .accepted ⟨rfl, rfl⟩

theorem generateEach_cons (c : StubConfig) (f : Subprogram) (rest : List Subprogram) :
    generateEach c (f :: rest) = (tryCatch (do return some (← generate c f))
      (fun e => if e.isSkippable then return none else throw e) >>= fun stub =>
        generateEach c rest >>= fun more => pure (stub.toList ++ more)) := by
  rw [generateEach]

/-- A subprogram is left out if it is refused. -/
theorem gives_attempt {c : StubConfig} {f : Subprogram} {names : Names}
    (h : ∀ e, ((generate c f).run names).1 = .error e → e.isSkippable = true) :
    Gives (tryCatch (do return some (← generate c f))
      (fun e => if e.isSkippable then return none else throw e)) names
        ((generate c f).run names).1.toOption ((generate c f).run names).2 := by
  have hends : Ends (tryCatch (do return some (← generate c f))
      (fun e => if e.isSkippable then return none else throw e)) names
        (fun r names' => ((generate c f).run names).1.toOption = r ∧
          ((generate c f).run names).2 = names') fun _ _ => False := by
    rw [ends_tryCatch, ends_bind]
    refine (ends_run (generate c f) names).mono (fun stub names' hrun => ?_) fun e names' hrun => ?_
    · rw [hrun]
      exact ⟨rfl, rfl⟩
    · have hskip := h e (by rw [hrun])
      simp only [hskip, if_true]
      rw [hrun]
      exact ⟨rfl, rfl⟩
  obtain ⟨r, names', hgives, rfl, rfl⟩ := hends.exists_gives fun _ _ h => h
  exact hgives

/-- **The stubs that are made together are those that can be made alone**, in their order and each
for the same call. -/
theorem gives_generateEach (c : StubConfig) : ∀ (fs : List Subprogram) (names : Names),
    ∃ stubs names', Gives (generateEach c fs) names stubs names' ∧
      List.Forall₂ SameCall stubs (fs.filterMap (alone c))
  | [], names => ⟨[], names, rfl, .nil⟩
  | f :: rest, names => by
    -- what follows starts from the identifiers that `f` leaves, accepted or not
    have hverdict := sameVerdict_generate c f names []
    have hskip : ∀ e, ((generate c f).run names).1 = .error e → e.isSkippable = true := by
      intro e he
      rcases hverdict.cases with ⟨a, b, ha, -⟩ | ⟨e', he', -, href⟩
      · rw [ha] at he
        cases he
      · rw [he'] at he
        cases he
        exact href.isSkippable
    obtain ⟨more, names', hmore, hsame⟩ := gives_generateEach c rest ((generate c f).run names).2
    refine ⟨((generate c f).run names).1.toOption.toList ++ more, names', ?_, ?_⟩
    · rw [generateEach_cons, gives_bind]
      refine ⟨_, _, gives_attempt hskip, gives_bind.mpr ⟨more, names', hmore, ?_⟩⟩
      exact gives_pure.mpr ⟨rfl, rfl⟩
    · rcases hverdict.cases with ⟨a, b, ha, hb, hab⟩ | ⟨e, he, he', -⟩
      · have hb : alone c f = some b := by rw [alone, hb]; rfl
        rw [ha, List.filterMap_cons_some hb]
        exact .cons hab hsame
      · have hb : alone c f = none := by rw [alone, he']; rfl
        rw [he, List.filterMap_cons_none hb]
        exact hsame

/-- Making the stubs of subprograms succeeds, and makes each of them as if it were alone. -/
structure Isolated (c : StubConfig) (fs : List Subprogram) : Prop where
  /-- The stubs are those that can be made alone, in the order of the subprograms. -/
  made : ∃ stubs, generateAll c fs = .ok stubs ∧
    List.Forall₂ SameCall stubs (fs.filterMap (alone c))
  /-- Whatever identifiers have been given out before, a subprogram is accepted for the same call as
  alone, or refused for the same reason: something is not supported, or a table has no element
  type. -/
  verdict : ∀ (f : Subprogram) (names : Names),
    SameVerdict f.text SameCall ((generate c f).run names).1 ((generate c f).run []).1
  /-- A table that is copied has a first column, by which the loop goes. -/
  driven : ∀ {s : Setting} {name : String} {elem : Option Argument} {path : Path}
    {direction : Direction} {w w' : Work} {columns : List Carried},
    Gives (elementLeaves s name elem >>= carry s path.elements direction) w columns w' →
      columns ≠ []
  /-- A composite argument does not stand in the call as a placeholder. -/
  bridged : ∀ {s : Setting} {entries : List (String × Argument)} {w w' : Work}
    {r : List Passed × List Stmt}, Gives (passIn s entries) w r w' →
      ∀ p ∈ r.1, p.arg.shape.isComposite = true → ∃ name, p.route = .through name
  /-- Neither does a composite return value. -/
  bridgedReturn : ∀ {s : Setting} {f : Subprogram} {w w' : Work} {p : Passed},
    Gives (passReturn s f) w (some p) w' → p.arg.shape.isComposite = true →
      ∃ name, p.route = .through name

/-- **Stubs are made each for itself.** -/
theorem isolated_generateAll (c : StubConfig) (fs : List Subprogram) : Isolated c fs where
  made := by
    obtain ⟨stubs, names', hgives, hsame⟩ := gives_generateEach c fs []
    exact ⟨stubs, congrArg Prod.fst hgives, hsame⟩
  verdict := fun f names => sameVerdict_generate c f names []
  driven := columns_ne_nil
  bridged := fun h p hp hc => by
    obtain ⟨-, -, hrouted⟩ := emits_passIn (P := fun _ => True) h fun _ _ _ _ => trivial
    exact (hrouted p hp).through_of_isComposite hc
  bridgedReturn := fun h hc => by
    obtain ⟨-, -, hrouted⟩ := emits_passReturn (P := fun _ => True) h fun _ _ _ _ => trivial
    exact (hrouted _ rfl).through_of_isComposite hc

end Stub

end StoredCall
