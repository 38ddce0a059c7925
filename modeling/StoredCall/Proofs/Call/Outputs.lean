import StoredCall.Call.Scripted
import StoredCall.Proofs.Call.Binds
import StoredCall.Proofs.Stub.FieldNames
import StoredCall.Proofs.Stub.Lower
import StoredCall.Proofs.Stub.SlotSources
import StoredCall.Stub

/-!
# No output is lost

The outputs of a call are put into one tree. Since the paths of outputs part, each of them is in the
response just as the database left it, whatever the others are.

* `Plan.OutputsApart` says that the outputs of a plan part; `Stub.outputsApart_of_generate` that
  those of generated plans do.
* `Plan.OutputsKept` says that every output is in a response: scalars at their paths, arrays as
  columns, cursors under the texts of their paths.
* **`Stub.outputsKept_of_invoke`**: this is so for every call of a generated plan that succeeds,
  whatever the request and the database.
-/

namespace StoredCall

open Value

variable {σ ω : Type}

/-! ## Outputs that part -/

namespace Plan

/-- The outputs of a plan have paths that part, and cursors are outputs. -/
structure OutputsApart (p : Plan) : Prop where
  pairwise : (p.slots.filter fun s => s.direction.isOutput).Pairwise
    fun a b => Path.Apart a.path b.path
  collectible : ∀ s ∈ p.slots, s.direction.isOutput = true → s.Collectible
  comesOut : ∀ s ∈ p.slots, ∀ columns : List Column, s.kind = .cursor columns →
    s.direction.isOutput = true

/-- Outputs have boxes, of their capacity if they are arrays. -/
def Boxed (p : Plan) (binds : List (Bind σ)) : Prop :=
  ∀ {i : Nat} {slot : Slot}, p.slots[i]? = some slot → slot.direction.isOutput = true →
    ∃ box, binds[i]? = some (.output box) ∧ box.capacity = slot.kind.capacity?

theorem boxed_of_ofSlots {p : Plan} {request : Value} {binds : List (Bind σ)}
    (h : Bind.ofSlots request [] p.slots = .ok binds) : p.Boxed binds := by
  intro i slot hi hout
  obtain ⟨-, -, hslots⟩ := Bind.ofSlot_of_ofSlots h
  obtain ⟨bind, hb, hs⟩ := hslots i slot hi
  rw [List.length_nil, Nat.zero_add] at hb
  obtain ⟨box, rfl, hc, -⟩ := Bind.box_of_ofSlot hs hout
  exact ⟨box, hb, hc⟩

/-- How many elements the bind of a slot has for a table. -/
def columnHeight (table : Path) (x : Bind σ × Slot) : Nat :=
  match x.2.kind with
  | .array .. => if x.2.path.table = table then x.1.elements.length else 0
  | _ => 0

/-- The length of the longest column that comes out of a table. -/
def tableHeight (p : Plan) (binds : List (Bind σ)) (table : Path) : Nat :=
  ((p.outputPairs binds).map (columnHeight table)).foldr max 0

/-- The cursors of a response under a text. -/
def cursorsAt (r : Response σ) (text : String) : List (String × Cursor σ) :=
  r.cursors.filter fun c => c.1 = text

/-- Every output is in a response as it was left in its bind. -/
structure OutputsKept (p : Plan) (binds : List (Bind σ)) (r : Response σ) : Prop where
  /-- A scalar is at its path. Large objects are not spoken of here. -/
  scalar : ∀ {i : Nat} {slot : Slot} {kind : Kind}, p.slots[i]? = some slot →
    slot.direction.isOutput = true → slot.kind = .scalar kind → kind.isLob = false →
      ∃ bind v, binds[i]? = some bind ∧ bind.value.coerce kind slot.path.text = .ok v ∧
        r.value.lookup slot.path = some v
  /-- An array is the column at its path, up to its capacity, and nulls follow it only up to the
  longest column of the table. -/
  array : ∀ {i : Nat} {slot : Slot} {elem : Kind} {capacity : Nat}, p.slots[i]? = some slot →
    slot.direction.isOutput = true → slot.kind = .array elem capacity →
      ∃ bind cells, binds[i]? = some bind ∧
        List.Forall₂ (fun v c => v.coerce elem slot.path.text = .ok c) bind.elements cells ∧
        r.value.column slot.path = some (pad (p.tableHeight binds slot.path.table) cells)
  /-- A cursor is the only one under the text of its path; a null one is an empty list instead. -/
  cursor : ∀ {i : Nat} {slot : Slot} {columns : List Column}, p.slots[i]? = some slot →
    slot.kind = .cursor columns → ∃ bind, binds[i]? = some bind ∧
      ((∃ source, bind.stream = some (.cursor source) ∧ cursorsAt r slot.path.text =
          [(slot.path.text,
            .start source (columns.map fun c => (c.path, c.kind)) p.cursorBatchSize)]) ∨
        bind.stream = none ∧ bind.value.isNull = true ∧ cursorsAt r slot.path.text = [] ∧
          r.value.lookup slot.path = some (.list []))
  /-- There are no other cursors. -/
  cursors : ∀ c ∈ r.cursors, ∃ slot ∈ p.slots, ∃ columns, slot.kind = .cursor columns ∧
    c.1 = slot.path.text

section Effects

variable {p : Plan} {binds : List (Bind σ)} {es : List (Effect σ)}

/-- An output has its bind among those that are collected. -/
theorem exists_mem_outputPairs (hlen : binds.length = p.slots.length) {i : Nat} {slot : Slot}
    (hi : p.slots[i]? = some slot) (hout : slot.direction.isOutput = true) :
    ∃ bind, binds[i]? = some bind ∧ (bind, slot) ∈ p.outputPairs binds := by
  have hlt : i < binds.length := hlen ▸ (List.getElem?_eq_some_iff.mp hi).1
  have hb : binds[i]? = some binds[i] := List.getElem?_eq_getElem hlt
  refine ⟨binds[i], hb, List.mem_filter.mpr ⟨?_, hout⟩⟩
  exact List.mem_of_getElem? (List.getElem?_zip_eq_some.mpr ⟨hb, hi⟩)

theorem mem_slots_of_mem_outputPairs {x : Bind σ × Slot} (h : x ∈ p.outputPairs binds) :
    x.2 ∈ p.slots ∧ x.2.direction.isOutput = true := by
  obtain ⟨hzip, hout⟩ := List.mem_filter.mp h
  exact ⟨(List.of_mem_zip hzip).2, hout⟩

/-- The slots that are collected are the outputs. -/
theorem map_outputPairs (hlen : binds.length = p.slots.length) :
    (p.outputPairs binds).map Prod.snd = p.slots.filter fun s => s.direction.isOutput := by
  have h : ((binds.zip p.slots).map Prod.snd).filter (fun s => s.direction.isOutput) =
      (p.outputPairs binds).map Prod.snd := List.filter_map
  rw [← h, List.map_snd_zip hlen.ge]

theorem exists_pair {xs : List (Bind σ × Slot)}
    (hes : List.Forall₂ (fun x e => p.Yields x.1 x.2 e) xs es) {e : Effect σ} (he : e ∈ es) :
    ∃ x ∈ xs, p.Yields x.1 x.2 e :=
  exists_of_forall₂
    (List.Forall₂.flip (R := fun e (x : Bind σ × Slot) => p.Yields x.1 x.2 e) hes) he

theorem map_path_of_effects {xs : List (Bind σ × Slot)}
    (hes : List.Forall₂ (fun x e => p.Yields x.1 x.2 e) xs es) :
    es.map Effect.path = (xs.map Prod.snd).map Slot.path := by
  induction hes with
  | nil => rfl
  | cons h _ ih => rw [List.map_cons, List.map_cons, List.map_cons, ih, h.path_eq]

/-- The elements that the writes need are those of the longest column. -/
theorem heights_of_effects {xs : List (Bind σ × Slot)}
    (hes : List.Forall₂ (fun x e => p.Yields x.1 x.2 e) xs es) (table : Path) :
    Write.heights table (es.filterMap Effect.write?) =
      (xs.map (columnHeight table)).foldr max 0 := by
  induction hes with
  | nil => rfl
  | @cons x e xs es h _ ih =>
    have hcons : Write.heights table ((e :: es).filterMap Effect.write?) =
        max (columnHeight table x) (Write.heights table (es.filterMap Effect.write?)) := by
      unfold columnHeight
      cases h with
      | scalar hk | lob hk | cursor hk | noRows hk =>
        simp only [hk, Nat.zero_max]
        rfl
      | array hk hc =>
        simp only [hk]
        rw [hc.length_eq]
        rfl
    rw [hcons, ih]
    rfl

/-- A response without values has no elements in any table. -/
theorem column_empty {path : Path} (h : path.IsColumn)
    (hr : ∃ (name : String) (rest : Path), path = .field name :: rest) :
    (Value.object []).column path = some [] := by
  obtain ⟨t, i, rfl, ht, -⟩ := h.exists_split
  obtain ⟨name, rest, hr⟩ := hr
  rw [column_eq ht]
  cases t with
  | nil => cases hr
  | cons step t =>
    rw [List.cons_append, List.cons.injEq] at hr
    rw [hr.1]
    rfl

/-- Effects of outputs that part: one for each output, at its path. -/
structure Collected (p : Plan) (binds : List (Bind σ)) (es : List (Effect σ)) : Prop where
  yields : List.Forall₂ (fun x e => p.Yields x.1 x.2 e) (p.outputPairs binds) es
  apart : es.Pairwise fun a b => Path.Apart a.path b.path
  source : ∀ e ∈ es, ∃ x ∈ p.outputPairs binds, x.2.Collectible ∧ p.Yields x.1 x.2 e

/-- Collecting outputs that part has effects that part. -/
theorem collected_of_collectOutputs (hp : p.OutputsApart)
    (hlen : binds.length = p.slots.length) {r : Response σ}
    (h : p.collectOutputs {} (binds.zip p.slots) = .ok r) :
    ∃ es, p.Collected binds es ∧ r = es.foldl Effect.apply {} := by
  obtain ⟨es, hes, hr⟩ := effects_of_collectOutputs
    (fun x hx => hp.collectible x.2 (List.of_mem_zip hx).2) h
  have hes : List.Forall₂ (fun x e => p.Yields x.1 x.2 e) (p.outputPairs binds) es := hes
  refine ⟨es, ⟨hes, ?_, fun e he => ?_⟩, hr⟩
  · have hapart := List.pairwise_map.mpr hp.pairwise
    rw [← map_outputPairs hlen, ← map_path_of_effects hes] at hapart
    exact List.pairwise_map.mp hapart
  · obtain ⟨x, hx, hy⟩ := exists_pair hes he
    obtain ⟨hm, hout⟩ := mem_slots_of_mem_outputPairs hx
    exact ⟨x, hx, hp.collectible x.2 hm hout, hy⟩

namespace Collected

theorem readable (h : p.Collected binds es) : ∀ e ∈ es, e.path.Readable := by
  intro e he
  obtain ⟨x, -, hs, hy⟩ := h.source e he
  rw [hy.path_eq]
  exact hs.path

theorem fits (h : p.Collected binds es) : ∀ w ∈ es.filterMap Effect.write?, w.Fits := by
  intro w hw
  obtain ⟨e, he, hw⟩ := List.mem_filterMap.mp hw
  obtain ⟨x, -, hs, hy⟩ := h.source e he
  exact hy.fits hs hw

theorem writes_pairwise (h : p.Collected binds es) :
    (es.filterMap Effect.write?).Pairwise fun u v => Path.Apart u.path v.path := by
  refine List.pairwise_filterMap.mpr (h.apart.imp fun hab u hu v hv => ?_)
  rwa [Effect.path_of_write? hu, Effect.path_of_write? hv]

/-- The effect of an output, with the bind it was collected from. -/
theorem exists_effect (h : p.Collected binds es) (hlen : binds.length = p.slots.length) {i : Nat}
    {slot : Slot} (hi : p.slots[i]? = some slot) (hout : slot.direction.isOutput = true) :
    ∃ bind e, binds[i]? = some bind ∧ e ∈ es ∧ p.Yields bind slot e := by
  obtain ⟨bind, hb, hx⟩ := exists_mem_outputPairs hlen hi hout
  obtain ⟨e, he, hy⟩ := exists_of_forall₂ h.yields hx
  exact ⟨bind, e, hb, he, hy⟩

/-- A value is where it was put. -/
theorem lookup (h : p.Collected binds es) {path : Path} {v : Value}
    (he : .write (.put path v) ∈ es) :
    (es.foldl Effect.apply {}).value.lookup path = some v := by
  rw [Effect.value_foldl]
  exact Write.lookup_foldl h.fits h.writes_pairwise (List.mem_filterMap.mpr ⟨_, he, rfl⟩) _

/-- A column is where it was written, as long as the longest one of its table. -/
theorem column (h : p.Collected binds es) {path : Path} {cells : List Value}
    (he : .write (.column path cells) ∈ es) :
    (es.foldl Effect.apply {}).value.column path =
      some (pad (p.tableHeight binds path.table) cells) := by
  have hmem : .column path cells ∈ es.filterMap Effect.write? :=
    List.mem_filterMap.mpr ⟨_, he, rfl⟩
  have hroot : ∃ (name : String) (rest : Path), path = .field name :: rest := by
    obtain ⟨x, -, hs, hy⟩ := h.source _ he
    have hpath : path = x.2.path := hy.path_eq
    rw [hpath]
    exact hs.rooted
  rw [Effect.value_foldl, tableHeight, ← heights_of_effects h.yields]
  exact Write.column_foldl h.fits h.writes_pairwise hmem (column_empty (h.fits _ hmem) hroot)

/-- Under the text of a path there is the cursor left there, and no other. -/
theorem cursorsAt_eq (h : p.Collected binds es) {e : Effect σ} (he : e ∈ es) :
    cursorsAt (es.foldl Effect.apply {}) e.path.text = e.cursor?.toList := by
  rw [cursorsAt, Effect.cursors_foldl]
  exact Effect.filter_cursors he h.readable h.apart

end Collected

/-- **Outputs that part are kept** by what collects them. -/
theorem outputsKept_of_collectOutputs (hp : p.OutputsApart)
    (hlen : binds.length = p.slots.length) {r : Response σ}
    (h : p.collectOutputs {} (binds.zip p.slots) = .ok r) : p.OutputsKept binds r := by
  obtain ⟨es, hes, rfl⟩ := collected_of_collectOutputs hp hlen h
  refine ⟨?_, ?_, ?_, ?_⟩
  · intro i slot kind hi hout hk hl
    obtain ⟨bind, e, hb, he, hy⟩ := hes.exists_effect hlen hi hout
    obtain ⟨v, hv, rfl⟩ := hy.of_scalar hk hl
    exact ⟨bind, v, hb, hv, hes.lookup he⟩
  · intro i slot elem capacity hi hout hk
    obtain ⟨bind, e, hb, he, hy⟩ := hes.exists_effect hlen hi hout
    obtain ⟨cells, hc, rfl⟩ := hy.of_array hk
    exact ⟨bind, cells, hb, hc, hes.column he⟩
  · intro i slot columns hi hk
    have hout := hp.comesOut slot (List.mem_of_getElem? hi) columns hk
    obtain ⟨bind, e, hb, he, hy⟩ := hes.exists_effect hlen hi hout
    have hat := hes.cursorsAt_eq he
    rw [hy.path_eq] at hat
    refine ⟨bind, hb, ?_⟩
    rcases hy.of_cursor hk with ⟨source, hs, rfl⟩ | ⟨hs, hv, rfl⟩
    · exact Or.inl ⟨source, hs, hat⟩
    · exact Or.inr ⟨hs, hv, hat, hes.lookup he⟩
  · intro c hc
    rw [Effect.cursors_foldl] at hc
    obtain ⟨e, he, hc⟩ := List.mem_filterMap.mp hc
    obtain ⟨x, hx, -, hy⟩ := hes.source e he
    obtain ⟨columns, hk, htext⟩ := hy.of_opened hc
    exact ⟨x.2, (mem_slots_of_mem_outputPairs hx).1, columns, hk, htext⟩

end Effects

end Plan

/-! ## Generated plans -/

/-- The slot of a wire can be collected. -/
theorem Wire.collectible_slot {wire : Wire} (hread : wire.Readable) (hplaced : wire.Placed)
    (hrooted : ∃ (name : String) (rest : Path), wire.path = .field name :: rest) (capacity : Nat)
    (before : List Slot) : (wire.slot capacity before).Collectible := by
  have hkind : (wire.slot capacity before).kind = wire.cargo.kind capacity wire.path := rfl
  refine ⟨hread.path, hrooted, fun {columns} hk => ?_, ?_⟩
  · rw [hkind] at hk
    cases hc : wire.cargo with
    | scalar s =>
      rw [hc, Cargo.kind] at hk
      split at hk <;> cases hk
    | cursor columns' =>
      rw [hc] at hk
      cases hk
      exact hread.columns hc
  · rw [hkind]
    cases hc : wire.cargo with
    | scalar s =>
      by_cases he : .each ∈ wire.path
      · rw [Cargo.kind_scalar_of_mem he]
        exact Nat.le_antisymm hplaced.shallow (List.count_pos_iff.mpr he)
      · rw [Cargo.kind_scalar_of_notMem he]
        exact he
    | cursor columns => exact hplaced.flat hc

theorem Wire.comesOut_slot {wire : Wire} (hplaced : wire.Placed) {capacity : Nat}
    {before : List Slot} {columns : List Column}
    (hk : (wire.slot capacity before).kind = .cursor columns) :
    (wire.slot capacity before).direction = .output := by
  have hk : wire.cargo.kind capacity wire.path = .cursor columns := hk
  cases hc : wire.cargo with
  | scalar s =>
    rw [hc, Cargo.kind] at hk
    split at hk <;> cases hk
  | cursor columns' => exact hplaced.comesOut hc

/-- Of slots with one path only one is an output, so outputs part. -/
theorem Subprogram.outputs_pairwise (f : Subprogram) (capacity : Nat) :
    ((addSlots capacity [] f.wires).filter fun s => s.direction.isOutput).Pairwise
      fun a b => Path.Apart a.path b.path := by
  refine List.pairwise_filter.mpr (List.pairwise_iff_getElem.mpr fun i j hi hj hij ha _ => ?_)
  rcases Subprogram.parts_of_slots (List.getElem?_eq_getElem hi) (List.getElem?_eq_getElem hj) hij
    with h | ⟨x, -, hin, -⟩
  · exact h
  · rw [hin.2.1] at ha
    cases ha

namespace Stub

variable {c : StubConfig} {f : Subprogram} {names names' : Names} {stub : Stub}

/-- A plan is made of the block and the slots of its subprogram. -/
theorem lower_of_generate (h : (generate c f).run names = (.ok stub, names')) :
    ∃ block slots, (f.lower c.maxTableSize).run names = (.ok (block, slots), names') ∧
      stub.plan = planOf c f block slots := by
  have h : Gives (generate c f) names stub names' := h
  obtain ⟨⟨block, slots⟩, names₁, hlower, h⟩ := gives_bind.mp h
  obtain ⟨rfl, rfl⟩ := gives_pure.mp h
  exact ⟨block, slots, hlower, rfl⟩

/-- The slots of a generated plan are those of the wires of its subprogram, which are placed. -/
theorem slots_of_generate (hr : f.replacement = none)
    (h : (generate c f).run names = (.ok stub, names')) :
    stub.plan.slots = addSlots (f.arrayCapacity c.maxTableSize) [] f.wires ∧
      ∀ wire ∈ f.wires, wire.Placed := by
  obtain ⟨block, slots, hlower, hplan⟩ := lower_of_generate h
  obtain ⟨loops, hemits⟩ := Subprogram.lower_run (P := fun _ => True) hr hlower fun _ _ => trivial
  rw [hplan]
  exact ⟨hemits.slots, hemits.placed⟩

/-- Each slot of a generated plan is the one of a wire of its subprogram. -/
theorem wire_of_generate (hr : f.replacement = none)
    (h : (generate c f).run names = (.ok stub, names')) {s : Slot} (hs : s ∈ stub.plan.slots) :
    ∃ wire ∈ f.wires, wire.Placed ∧ ∃ before,
      s = wire.slot (f.arrayCapacity c.maxTableSize) before := by
  obtain ⟨hslots, hplaced⟩ := slots_of_generate hr h
  rw [hslots] at hs
  obtain ⟨i, hi⟩ := List.getElem?_of_mem hs
  obtain ⟨wire, hw, hslot⟩ := exists_wire_of_slot hi
  have hw := List.mem_of_getElem? hw
  exact ⟨wire, hw, hplaced wire hw, _, hslot⟩

/-- The slots of a generated plan can be collected. -/
theorem collectible_of_generate (hr : f.replacement = none)
    (hn : ∀ n ∈ f.pathNames, PlainName n)
    (h : (generate c f).run names = (.ok stub, names')) {s : Slot} (hs : s ∈ stub.plan.slots) :
    s.Collectible := by
  obtain ⟨wire, hw, hplaced, before, rfl⟩ := wire_of_generate hr h hs
  exact Wire.collectible_slot (f.readable_of_mem_wires hn hw) hplaced
    (Subprogram.rooted_of_mem_wires hw) _ _

/-- **The outputs of a generated plan part.** -/
theorem outputsApart_of_generate (hr : f.replacement = none)
    (hn : ∀ n ∈ f.pathNames, PlainName n)
    (h : (generate c f).run names = (.ok stub, names')) : stub.plan.OutputsApart := by
  refine ⟨?_, fun s hs _ => collectible_of_generate hr hn h hs, fun s hs columns hk => ?_⟩
  · rw [(slots_of_generate hr h).1]
    exact f.outputs_pairwise _
  · obtain ⟨wire, -, hplaced, before, rfl⟩ := wire_of_generate hr h hs
    rw [Wire.comesOut_slot hplaced hk]
    rfl

/-- **No output of a call is lost.** What the database left in the boxes of outputs is in the
response, all of it. -/
theorem outputsKept_of_invoke {c : StubConfig} {f : Subprogram} {names names' : Names} {stub : Stub}
    (hr : f.replacement = none) (hn : ∀ n ∈ f.pathNames, PlainName n)
    (hg : (generate c f).run names = (.ok stub, names')) {exec : Executor ω σ} {request : Value}
    {o : CallOptions} {w w' : ω} {r : Response σ}
    (h : (stub.plan.invoke exec request o).run w = (.ok r, w')) :
    ∃ binds writes, Bind.ofSlots request [] stub.plan.slots = .ok binds ∧
      stub.plan.Boxed binds ∧
      exec.execute stub.plan.block binds o.deadline.isSome w = (.ok writes, w') ∧
      stub.plan.OutputsKept (binds.mapIdx (Plan.written writes)) r := by
  obtain ⟨binds, writes, hbinds, hexec, hcollect⟩ := Plan.steps_of_invoke h
  refine ⟨binds, writes, hbinds, Plan.boxed_of_ofSlots hbinds, hexec, ?_⟩
  refine Plan.outputsKept_of_collectOutputs (outputsApart_of_generate hr hn hg) ?_ hcollect
  rw [List.length_mapIdx, (Bind.ofSlot_of_ofSlots hbinds).2.1, List.length_nil, Nat.zero_add]

/-- An argument of text. -/
def textArgument (name : String) (direction : Direction) : Argument where
  name := name
  direction := direction
  shape := .scalar (.named "VARCHAR2")

/-- A function with an argument that asks for the name of its return value, a record that goes in
and comes out, a table of records, and two cursors. -/
def statement : Subprogram where
  package := "BILLING"
  name := "STATEMENT"
  args := [
    textArgument "RET" .output,
    { name := "P_ACCOUNT", direction := .both, shape := .record (some "BILLING.ACCOUNT") [
      textArgument "OWNER" .both] },
    { name := "P_LINES", direction := .output, shape := .table (some "BILLING.LINES") (some
      { name := "", direction := .output, shape := .record (some "BILLING.LINE") [
        textArgument "ID" .output, textArgument "NOTE" .output] }) true false },
    { name := "P_PAID", direction := .output,
      shape := .table none (some (textArgument "" .output)) false true },
    { name := "P_OPEN", direction := .output,
      shape := .table none (some (textArgument "" .output)) false true }]
  returns := some (textArgument "" .output)

/-- A database that opens one of the cursors and writes columns of different lengths. -/
def answers : Script where
  puts := [(1, .value (.text "done")), (2, .value (.text "out")),
    (3, .cursor { rows := [[.text "1"]] }), (5, .value (.text "new")),
    (6, .value (.list [.text "a", .text "b"])), (7, .value (.list [.text "first"]))]

/-- The request for the statement of an account. -/
def accountRequest : Value := .object [("p_account", .object [("owner", .text "old")])]

/-- The response without the cursor that is still open. -/
def statementValue : Value := .object [("ret_2", .text "done"), ("ret", .text "out"),
  ("p_open", .list []), ("p_account", .object [("owner", .text "new")]),
  ("p_lines", .list [.object [("id", .text "a"), ("note", .text "first")],
    .object [("id", .text "b")]])]

theorem statement_outputsKept : statement.replacement = none ∧
    (∀ n ∈ statement.pathNames, PlainName n) ∧ ∃ stub names' r w',
      (generate {} statement).run [] = (.ok stub, names') ∧
      (stub.plan.invoke answers.executor accountRequest {}).run none = (.ok r, w') ∧
      r.value.same statementValue = true ∧ ∃ binds writes,
        Bind.ofSlots accountRequest [] stub.plan.slots = .ok binds ∧ stub.plan.Boxed binds ∧
        answers.executor.execute stub.plan.block binds false none = (.ok writes, w') ∧
        stub.plan.OutputsKept (binds.mapIdx (Plan.written writes)) r := by
  have hnames : ∀ n ∈ statement.pathNames, PlainName n := by decide +kernel
  have hvalue : (match ((generate {} statement).run []).1 with
      | .ok stub =>
        match ((stub.plan.invoke answers.executor accountRequest {}).run none).1 with
        | .ok r => r.value.same statementValue
        | .error _ => false
      | .error _ => false) = true := by decide +kernel
  rcases hg : (generate {} statement).run [] with ⟨_ | stub, names'⟩
  · rw [hg] at hvalue
    cases hvalue
  · rw [hg] at hvalue
    rcases h : (stub.plan.invoke answers.executor accountRequest {}).run none with ⟨_ | r, w'⟩
    · simp only [h] at hvalue
      cases hvalue
    · simp only [h] at hvalue
      exact ⟨rfl, hnames, stub, names', r, w', rfl, h, hvalue,
        outputsKept_of_invoke rfl hnames hg h⟩

end Stub

end StoredCall
