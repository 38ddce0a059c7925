import StoredCall.Proofs.Call.Inputs
import StoredCall.Proofs.Stub.GlueText

/-!
# Running glue

The operations of glue are the functions that a call is made of, named in the text. Running them one
after the other, with the binds in a list that grows, does what carrying the plan out does.

* `Glue.run` runs the operations of a program. A bind that is not there stops it, which carrying a
  plan out reports as a failure of its own.
* `Glue.CarriesOut`: each operation of a program does what one slot of a plan asks for.
* `Glue.run_ofPlan`: the program of a plan ends as a call of the plan does, with the same state of
  the database.
* **`Stub.glue_carriesOut`**: the text of the glue of a plan says nothing else.
-/

namespace StoredCall

variable {ω σ : Type}

/-! ## Operations -/

/-- How a run of glue stops early. -/
inductive Stop where
  | failed (e : CallError)
  /-- The bind of an index is asked for, and there is none. -/
  | noBind (index : Nat)

namespace BindOp

/-- What is made from an earlier bind. -/
def copied (before : List (Bind σ)) (source : Nat) (f : Bind σ → Bind σ) : Except Stop (Bind σ) :=
  match before[source]? with
  | some first => .ok (f first)
  | none => .error (.noBind source)

/-- Makes a bind, after those made before. -/
def run (request : Value) (before : List (Bind σ)) : BindOp → Except Stop (Bind σ)
  | .copyIn source => copied before source fun first => first.copyIn
  | .copyOut source capacity => copied before source fun first => first.copyOut capacity
  | .arrayOut capacity => .ok (.arrayOut capacity)
  | .output => .ok .empty
  | .scalarIn path kind => (Bind.scalarIn request path kind).mapError .failed
  | .scalarInOut path kind => (Bind.scalarInOut request path kind).mapError .failed
  | .arrayIn path kind capacity => (Bind.arrayIn request path kind capacity).mapError .failed
  | .arrayInOut path kind capacity => (Bind.arrayInOut request path kind capacity).mapError .failed
  | .documentIn format => (Bind.documentIn request format).mapError .failed
  | .documentInOut format => (Bind.documentInOut request format).mapError .failed

/-- Makes binds one after the other. -/
def runAll (request : Value) : List (Bind σ) → List BindOp → Except Stop (List (Bind σ))
  | before, [] => .ok before
  | before, op :: ops => do
    let bind ← op.run request before
    runAll request (before ++ [bind]) ops

end BindOp

namespace CollectOp

/-- The index of the bind that an output is collected from. -/
def index : CollectOp → Nat
  | .lob bind _ _ _ | .scalar bind _ _ | .array bind _ _ | .cursor bind _ _ _ | .document bind _ =>
    bind

/-- Collects an output from a bind. -/
def apply (r : Response σ) (bind : Bind σ) : CollectOp → Except CallError (Response σ) × Bind σ
  | .lob _ path kind threshold => r.collectLob bind path kind threshold
  | .scalar _ path kind => (r.collectScalar bind path kind, bind)
  | .array _ path kind => (r.collectArray bind path kind, bind)
  | .cursor _ path columns batchSize => r.collectCursor bind path columns batchSize
  | .document _ format => (r.collectDocument bind format, bind)

/-- Collects outputs one after the other. A stream that was taken out of a bind is gone. -/
def runAll : Response σ → List (Bind σ) → List CollectOp → Except Stop (Response σ)
  | r, _, [] => .ok r
  | r, binds, op :: ops =>
    match binds[op.index]? with
    | none => .error (.noBind op.index)
    | some bind =>
      match op.apply r bind with
      | (.error e, _) => .error (.failed e)
      | (.ok r, bind) => runAll r (binds.set op.index bind) ops

end CollectOp

/-- Runs a program. -/
def Glue.run (g : Glue) (exec : Executor ω σ) (request : Value) (o : CallOptions) :
    ExceptT Stop (StateM ω) (Response σ) := do
  ofExcept (o.check.mapError .failed)
  let binds ← ofExcept (BindOp.runAll request [] g.binds)
  let writes ← ExceptT.mk fun w =>
    Prod.map (Except.mapError .failed) id (exec.execute g.block binds o.deadline.isSome w)
  let binds := binds.mapIdx (Plan.written writes)
  ofExcept (CollectOp.runAll {} binds g.collects)

/-! ## One operation for one slot -/

/-- The slots that copy a slot come after it. -/
def Plan.CopiesBack (p : Plan) : Prop :=
  ∀ {i j : Nat} {slot : Slot}, p.slots[i]? = some slot → slot.source = .copyOf j → j < i

/-- An operation makes the bind of a slot, wherever the bind it copies is there. -/
def BindOp.Makes (op : BindOp) (slot : Slot) : Prop :=
  ∀ {σ : Type} (request : Value) (before : List (Bind σ)),
    (∀ j, slot.source = .copyOf j → j < before.length) →
      op.run request before = (Bind.ofSlot request before slot).mapError .failed

/-- An operation collects the output of the slot of an index. -/
def CollectOp.Collects (p : Plan) (op : CollectOp) (output : Nat × Slot) : Prop :=
  op.index = output.1 ∧ ∀ {σ : Type} (r : Response σ) (bind : Bind σ),
    (op.apply r bind).1 = p.collectSlot r bind output.2

/-- A program makes the binds of a plan in the order of its slots, runs the block of the plan, and
collects the outputs of the plan in their order. -/
structure Glue.CarriesOut (g : Glue) (p : Plan) : Prop where
  binds : List.Forall₂ BindOp.Makes g.binds p.slots
  block : g.block = p.block
  collects : List.Forall₂ (CollectOp.Collects p) g.collects p.outputs

theorem BindOp.makes_ofSlot (slot : Slot) : (BindOp.ofSlot slot).Makes slot := by
  intro σ request before hcopy
  unfold BindOp.ofSlot Bind.ofSlot
  cases hs : slot.source with
  | convert =>
    show (BindOp.converting slot.path.text slot.kind slot.direction).run request before =
      (Bind.converting request slot).mapError .failed
    unfold Bind.converting
    cases slot.kind <;> cases slot.direction <;> rfl
  | copyOf j =>
    obtain ⟨first, hfirst⟩ : ∃ first, before[j]? = some first :=
      ⟨_, List.getElem?_eq_getElem (hcopy j hs)⟩
    simp only [hfirst]
    cases slot.direction <;> simp [BindOp.run, BindOp.copied, hfirst, Except.mapError]

theorem CollectOp.collects_ofSlot (p : Plan) (index : Nat) (slot : Slot) :
    (CollectOp.ofSlot ⟨p.cursorBatchSize, p.lobSpillThreshold⟩ index slot).Collects p
      (index, slot) := by
  unfold CollectOp.Collects CollectOp.ofSlot Plan.collectSlot
  cases slot.kind with
  | scalar kind => cases hk : kind.isLob <;> simp [hk, CollectOp.index, CollectOp.apply]
  | array elem capacity => exact ⟨rfl, fun _ _ => rfl⟩
  | cursor columns => exact ⟨rfl, fun _ _ => rfl⟩
  | document format => exact ⟨rfl, fun _ _ => rfl⟩

theorem Glue.carriesOut_ofPlan (p : Plan) :
    (Glue.ofPlan ⟨p.cursorBatchSize, p.lobSpillThreshold⟩ p).CarriesOut p where
  binds := by
    show List.Forall₂ BindOp.Makes (p.slots.map BindOp.ofSlot) p.slots
    rw [List.forall₂_map_left_iff]
    exact List.forall₂_same.mpr fun slot _ => BindOp.makes_ofSlot slot
  block := rfl
  collects := by
    show List.Forall₂ (CollectOp.Collects p) (p.outputs.map _) p.outputs
    rw [List.forall₂_map_left_iff]
    exact List.forall₂_same.mpr fun output _ => CollectOp.collects_ofSlot p output.1 output.2

/-! ## Runs -/

/-- Operations that make the binds of slots make them one after the other. -/
theorem BindOp.runAll_of_makes {request : Value} {ops : List BindOp} {slots : List Slot}
    (h : List.Forall₂ BindOp.Makes ops slots) {before : List (Bind σ)}
    (hcopy : ∀ (i : Nat) (slot : Slot) (j : Nat), slots[i]? = some slot →
      slot.source = .copyOf j → j < before.length + i) :
    BindOp.runAll request before ops = (Bind.ofSlots request before slots).mapError .failed := by
  induction h generalizing before with
  | nil => rfl
  | @cons op slot ops slots hop _ ih =>
    have hmake : op.run request before = (Bind.ofSlot request before slot).mapError .failed :=
      hop request before fun j hj => hcopy 0 slot j rfl hj
    unfold BindOp.runAll Bind.ofSlots
    rw [hmake]
    cases Bind.ofSlot request before slot with
    | error e => rfl
    | ok bind =>
      refine ih fun i s j hi hj => ?_
      have hlt := hcopy (i + 1) s j hi hj
      rw [List.length_append, List.length_singleton]
      omega

/-- The outputs among slots, with indices from `k` on. -/
def outputsFrom (k : Nat) (slots : List Slot) : List (Nat × Slot) :=
  ((slots.zipIdx k).filter fun (slot, _) => slot.direction.isOutput).map fun (slot, i) => (i, slot)

theorem outputsFrom_cons (k : Nat) (slot : Slot) (slots : List Slot) :
    outputsFrom k (slot :: slots) =
      if slot.direction.isOutput then (k, slot) :: outputsFrom (k + 1) slots
      else outputsFrom (k + 1) slots := by
  by_cases hd : slot.direction.isOutput = true <;> simp [outputsFrom, List.zipIdx_cons, hd]

/-- Operations that collect the outputs of slots collect them one after the other. The binds of
earlier slots may have lost their streams, which no later operation asks for. -/
theorem CollectOp.runAll_of_collects {p : Plan} {slots : List Slot} {k : Nat}
    {ops : List CollectOp} (h : List.Forall₂ (CollectOp.Collects p) ops (outputsFrom k slots))
    {binds left : List (Bind σ)} (hleft : ∀ i, binds[k + i]? = left[i]?)
    (hlen : left.length = slots.length) (r : Response σ) :
    CollectOp.runAll r binds ops = (p.collectOutputs r (left.zip slots)).mapError .failed := by
  induction slots generalizing k ops binds left r with
  | nil =>
    cases h
    rw [List.zip_nil_right]
    rfl
  | cons slot slots ih =>
    obtain ⟨bind, left, rfl⟩ := List.exists_cons_of_length_eq_add_one hlen
    have hbind : binds[k]? = some bind := hleft 0
    have hnext : ∀ i, binds[k + 1 + i]? = left[i]? := fun i => by
      rw [Nat.add_assoc, Nat.add_comm 1 i]
      exact hleft (i + 1)
    have hlen : left.length = slots.length := by simpa using hlen
    rw [outputsFrom_cons] at h
    rw [List.zip_cons_cons, Plan.collectOutputs]
    by_cases hd : slot.direction.isOutput = true
    · rw [if_pos hd] at h ⊢
      cases h with
      | @cons op _ ops _ hop hops =>
        obtain ⟨hindex, hcollect⟩ := hop
        have hresult := hcollect r bind
        unfold CollectOp.runAll
        simp only [hindex, hbind]
        rcases hrun : op.apply r bind with ⟨_ | r', bind'⟩
        · rw [hrun] at hresult
          rw [← hresult]
          rfl
        · rw [hrun] at hresult
          rw [← hresult]
          refine ih hops (fun i => ?_) hlen r'
          rw [List.getElem?_set_ne (by omega)]
          exact hnext i
    · rw [if_neg hd] at h ⊢
      exact ih h hnext hlen r

namespace Glue.CarriesOut

variable {g : Glue} {p : Plan}

/-- A program that carries a plan out makes the binds of the plan. -/
theorem runAll_eq (h : g.CarriesOut p) (hcopy : p.CopiesBack) (request : Value) :
    BindOp.runAll request [] g.binds =
      (Bind.ofSlots request [] p.slots : Except CallError (List (Bind σ))).mapError .failed :=
  BindOp.runAll_of_makes h.binds fun i slot j hi hj => by
    rw [List.length_nil, Nat.zero_add]
    exact hcopy hi hj

/-- **A program that carries a plan out ends as a call of the plan does**, with the same state of
the database. -/
theorem run_eq (h : g.CarriesOut p) (hcopy : p.CopiesBack) (exec : Executor ω σ) (request : Value)
    (o : CallOptions) (w : ω) : (g.run exec request o).run w =
      Prod.map (Except.mapError .failed) id ((p.invoke exec request o).run w) := by
  rw [Plan.run_invoke]
  unfold Glue.run
  simp only [run_bind, run_ofExcept, ExceptT.run_mk, h.runAll_eq hcopy, h.block]
  cases o.check with
  | error e => rfl
  | ok u =>
    cases hmade : (Bind.ofSlots request [] p.slots : Except CallError (List (Bind σ))) with
    | error e => rfl
    | ok binds =>
      simp only [Except.mapError]
      rcases exec.execute p.block binds o.deadline.isSome w with ⟨_ | writes, w'⟩
      · rfl
      · have hlen : (binds.mapIdx (Plan.written writes)).length = p.slots.length := by
          rw [List.length_mapIdx, (Bind.ofSlot_of_ofSlots hmade).2.1, List.length_nil, Nat.zero_add]
        have hsame : ∀ i, (binds.mapIdx (Plan.written writes))[0 + i]? =
            (binds.mapIdx (Plan.written writes))[i]? := fun i => by rw [Nat.zero_add]
        have hcollects := CollectOp.runAll_of_collects h.collects hsame hlen {}
        simp only [Prod.map, Except.mapError, Plan.conclude, id, hcollects]

end Glue.CarriesOut

/-! ## The glue of a plan -/

namespace Stub

/-- **The text of the glue of a plan is a program that carries the plan out**: it makes the same
binds and ends in the same way as a call of the plan, for every request, options and database. -/
theorem glue_carriesOut {c : StubConfig} {p : Plan} (hbatch : c.cursorBatchSize = p.cursorBatchSize)
    (hthreshold : c.lobSpillThreshold = p.lobSpillThreshold) (hcopy : p.CopiesBack) :
    ∃ g, Glue.read? p.function p.ident (glueOf c p) = some g ∧ g = Glue.ofPlan c.limits p ∧
      g.CarriesOut p ∧
      (∀ request : Value, BindOp.runAll request [] g.binds =
        (Bind.ofSlots request [] p.slots : Except CallError (List (Bind σ))).mapError .failed) ∧
      ∀ (exec : Executor ω σ) (request : Value) (o : CallOptions) (w : ω),
        (g.run exec request o).run w =
          Prod.map (Except.mapError .failed) id ((p.invoke exec request o).run w) := by
  have hlimits : c.limits = ⟨p.cursorBatchSize, p.lobSpillThreshold⟩ := by
    unfold StubConfig.limits
    rw [hbatch, hthreshold]
  have hout : (Glue.ofPlan c.limits p).CarriesOut p := by
    rw [hlimits]
    exact Glue.carriesOut_ofPlan p
  have hread : Glue.read? p.function p.ident (glueOf c p) = some (Glue.ofPlan c.limits p) := by
    delta glueOf
    exact Glue.read?_text (Glue.ofPlan c.limits p)
  exact ⟨_, hread, rfl, hout, hout.runAll_eq hcopy, hout.run_eq hcopy⟩

/-- A plan with a document that comes back changed, a value and its copy, a column that is copied
into a box, a large object, and a cursor that is said to go both ways. -/
def mixedPlan : Plan where
  function := "STOCK.MIX"
  ident := "mix"
  block := "BEGIN x := '\"##'; END;\n"
  cursorBatchSize := 128
  lobSpillThreshold := 1048576
  slots := [
    ⟨1, [], .both, .document .json, .convert⟩,
    ⟨2, [.field "a\n"], .input, .scalar .int, .convert⟩,
    ⟨3, [.field "a\n"], .input, .scalar .int, .copyOf 1⟩,
    ⟨4, [.field "t", .each], .input, .array .text 2, .convert⟩,
    ⟨5, [.field "t", .each], .output, .array .text 2, .copyOf 3⟩,
    ⟨6, [.field "l"], .both, .scalar .clob, .convert⟩,
    ⟨7, [.field "c"], .both, .cursor [⟨[.field "x"], .decimal⟩, ⟨[], .blob⟩], .convert⟩]

/-- What the glue of this plan does. -/
def mixedGlue : Glue where
  function := "STOCK.MIX"
  ident := "mix"
  block := "BEGIN x := '\"##'; END;\n"
  binds := [.documentInOut .json, .scalarIn "a\n" .int, .copyIn 1, .arrayIn "t[*]" .text 2,
    .copyOut 3 (some 2), .scalarInOut "l" .clob, .output]
  collects := [.document 0 .json, .array 4 "t[*]" .text, .lob 5 "l" .clob 1048576,
    .cursor 6 "c" [("x", .decimal), ("", .blob)] 128]

theorem mixedPlan_glue_carriesOut : mixedPlan.CopiesBack ∧
    Glue.read? mixedPlan.function mixedPlan.ident (glueOf {} mixedPlan) = some mixedGlue ∧
    mixedGlue.CarriesOut mixedPlan ∧
    ∀ (exec : Executor (Option Executed) ScriptedRows) (request : Value) (o : CallOptions)
      (w : Option Executed), (mixedGlue.run exec request o).run w =
        Prod.map (Except.mapError .failed) id ((mixedPlan.invoke exec request o).run w) := by
  have hcopy : mixedPlan.CopiesBack := by
    intro i j slot hi hs
    obtain ⟨hlt, rfl⟩ := List.getElem?_eq_some_iff.mp hi
    have hlt : i < 7 := hlt
    interval_cases i <;> simp [mixedPlan] at hs <;> omega
  have hglue : mixedGlue = Glue.ofPlan ({} : StubConfig).limits mixedPlan := by decide
  obtain ⟨g, hread, rfl, hout, -, hrun⟩ := glue_carriesOut (ω := Option Executed)
    (σ := ScriptedRows) (c := {}) (p := mixedPlan) rfl rfl hcopy
  rw [← hglue] at hread hout hrun
  exact ⟨hcopy, hread, hout, hrun⟩

end Stub

end StoredCall
