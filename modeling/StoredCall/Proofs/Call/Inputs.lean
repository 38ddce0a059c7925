import StoredCall.Proofs.Call.Outputs

/-!
# Binds hold what the request says

A database gets one bind for each slot of a plan. What goes in is read from the request at the path
of the slot, brought to the kind of the slot, and cut to its capacity if it is an array. The columns
of one table are read from one list of elements, so they stay aligned.

* `Plan.BindsFaithful` says so of the binds of a plan.
* `Plan.table_of_ofSlots`: the columns of a table are read from the same elements, those that come
  out again included.
* `Plan.run_invoke`: a call hands the binds it has made to the database.
* **`Stub.bindsFaithful_of_generate`**: the binds of a generated plan are faithful for every
  request, and none is refused.
-/

namespace StoredCall

open Value

variable {σ ω : Type}

/-! ## What a bind should hold -/

/-- A slot for a column of the table at a path. -/
def Slot.IsColumnOf (table : Path) (slot : Slot) : Prop :=
  slot.kind.capacity?.isSome = true ∧ slot.path.table = table

/-- A value is a list of one part of each of the given elements of a table, in their order. -/
def Slot.HoldsColumn (slot : Slot) (elements : List Value) (v : Value) : Prop :=
  ∃ (inner : Path) (elem : Kind) (capacity : Nat) (column : List Value),
    slot.path = slot.path.table ++ .each :: inner ∧ slot.kind = .array elem capacity ∧
    v = .list column ∧
    List.Forall₂ (fun row cell =>
      ((row.lookup inner).getD .null).coerce elem slot.path.text = .ok cell) elements column

/-- Each slot has its bind, which holds what the request says. -/
structure Plan.BindsFaithful (p : Plan) (request : Value) (binds : List (Bind σ)) : Prop where
  length : binds.length = p.slots.length
  form : ∀ {i : Nat} {slot : Slot} {bind : Bind σ}, p.slots[i]? = some slot →
    binds[i]? = some bind → bind.Fits slot
  /-- A scalar that goes in is the one of the request at its path. -/
  scalar : ∀ {i : Nat} {slot : Slot} {bind : Bind σ} {kind : Kind}, p.slots[i]? = some slot →
    binds[i]? = some bind → slot.direction.isInput = true → slot.kind = .scalar kind →
      request.IsScalarAt slot.path kind bind.value
  /-- An array that goes in is the column of the request at its path, up to its capacity. -/
  array : ∀ {i : Nat} {slot : Slot} {bind : Bind σ} {elem : Kind} {capacity : Nat},
    p.slots[i]? = some slot → binds[i]? = some bind → slot.direction.isInput = true →
      slot.kind = .array elem capacity → ∃ column cells, request.column slot.path = some column ∧
        bind.value = .list cells ∧ cells.length = min column.length capacity ∧
        List.Forall₂ (fun v cell => v.coerce elem slot.path.text = .ok cell)
          (column.take capacity) cells
  /-- The columns of a table are read from the same elements, or none of them goes in. -/
  table : ∀ table : Path,
    (∃ elements capacity, request.rows table = some elements ∧
      ∀ {i : Nat} {slot : Slot} {bind : Bind σ}, p.slots[i]? = some slot → binds[i]? = some bind →
        slot.IsColumnOf table → slot.HoldsColumn (elements.take capacity) bind.value) ∨
    (∀ {i : Nat} {slot : Slot} {bind : Bind σ}, p.slots[i]? = some slot → binds[i]? = some bind →
      slot.IsColumnOf table → slot.direction = .output ∧ bind.value = .null)
  /-- A copy holds the value of the slot that it copies. -/
  copied : ∀ {i j : Nat} {slot : Slot} {bind : Bind σ}, p.slots[i]? = some slot →
    binds[i]? = some bind → slot.source = .copyOf j →
      ∃ first, j < i ∧ binds[j]? = some first ∧ bind.value = first.value

/-! ## Columns of one table -/

namespace Subprogram

variable {f : Subprogram}

/-- A scalar inside a table is filled or read through the local of an argument, or read from the
return value. -/
theorem leaf_of_mem_wires {wire : Wire} (h : wire ∈ f.wires) (he : .each ∈ wire.path) :
    (∃ e ∈ f.entries, wire ∈ fillWires e) ∨ (∃ e ∈ f.entries, wire ∈ readWires e) ∨
      ∃ e ∈ f.returnEntries, wire ∈ leafWires .output e := by
  have hdirect : ∀ (e : String × Argument) (d : Direction), wire ∉ directWires d e := by
    intro e d hw
    unfold directWires at hw
    split at hw
    · rw [List.mem_singleton.mp hw] at he
      simp at he
    · rw [List.mem_singleton.mp hw] at he
      simp at he
    · exact absurd hw List.not_mem_nil
    · exact absurd hw List.not_mem_nil
  unfold wires at h
  simp only [List.mem_append, List.mem_flatMap] at h
  rcases h with (((h | ⟨e, -, h⟩) | ⟨e, -, h⟩) | h) | h
  · exact Or.inl h
  · exact absurd h (hdirect e _)
  · exact absurd h (hdirect e _)
  · exact Or.inr (Or.inl h)
  · exact Or.inr (Or.inr h)

/-- The table of a path below a field is below the field. -/
theorem head_of_table {u v : Path} {a b : String} {p q : Path} (hu : u = .field a :: p)
    (hv : v = .field b :: q) (ht : u.table = v.table) : a = b := by
  subst hu hv
  have ht : Step.field a :: Path.table p = Step.field b :: Path.table q := by
    simpa [Path.table] using ht
  exact Step.field.inj (List.cons.inj ht).1

/-- If one column of a table goes in, a column that comes out goes in as well: the directions are
those of the argument that holds the table. -/
theorem inOut_of_table {u v : Wire} (hu : u ∈ f.wires) (hv : v ∈ f.wires)
    (heu : .each ∈ u.path) (hev : .each ∈ v.path) (hin : u.direction = .input)
    (hout : v.direction = .output) (ht : u.path.table = v.path.table) :
    ∃ x ∈ f.inOutLeaves, v = scalarWire .output x := by
  have hleft : ∃ e ∈ f.entries, u ∈ fillWires e := by
    rcases leaf_of_mem_wires hu heu with h | ⟨e, -, h⟩ | ⟨e, -, h⟩
    · exact h
    · obtain ⟨-, x, -, rfl⟩ := mem_leafWires.mp (mem_readWires.mp h).2
      cases hin
    · obtain ⟨-, x, -, rfl⟩ := mem_leafWires.mp h
      cases hin
  obtain ⟨e, he, hu⟩ := hleft
  obtain ⟨p, hp⟩ := rooted_fillWires e u hu
  rcases leaf_of_mem_wires hv hev with ⟨e', -, h⟩ | ⟨e', he', h⟩ | ⟨e', he', h⟩
  · obtain ⟨-, x, -, rfl⟩ := mem_leafWires.mp (mem_fillWires.mp h).2
    cases hout
  · obtain ⟨q, hq⟩ := rooted_readWires e' v h
    obtain rfl : e = e' := entries_inj he he' (head_of_table hp hq ht)
    obtain ⟨hi, hfill⟩ := mem_fillWires.mp hu
    obtain ⟨ho, hread⟩ := mem_readWires.mp h
    obtain ⟨hc, x, hx, rfl⟩ := mem_leafWires.mp hread
    refine ⟨x, List.mem_flatMap.mpr ⟨e, he, ?_⟩, rfl⟩
    rw [if_pos (by simp [hc, Direction.eq_both hi ho])]
    exact hx
  · obtain ⟨q, hq⟩ := rooted_leafWires .output e' v h
    exact absurd (head_of_table hp hq ht) (entry_ne_return he he')

theorem direction_of_column {wire : Wire} (h : wire ∈ f.wires) (he : .each ∈ wire.path) :
    wire.direction = .input ∨ wire.direction = .output := by
  rcases leaf_of_mem_wires h he with ⟨e, -, h⟩ | ⟨e, -, h⟩ | ⟨e, -, h⟩
  · obtain ⟨-, x, -, rfl⟩ := mem_leafWires.mp (mem_fillWires.mp h).2
    exact Or.inl rfl
  · obtain ⟨-, x, -, rfl⟩ := mem_leafWires.mp (mem_readWires.mp h).2
    exact Or.inr rfl
  · obtain ⟨-, x, -, rfl⟩ := mem_leafWires.mp h
    exact Or.inr rfl

section Slots

variable {capacity : Nat} {slots : List Slot} {i j : Nat} {a b : Slot}

/-- A slot for an array is one of a wire through a table. -/
theorem column_of_slot (hslots : slots = addSlots capacity [] f.wires) (hi : slots[i]? = some a)
    (ha : a.kind.capacity?.isSome = true) : ∃ wire ∈ f.wires, .each ∈ wire.path ∧
      wire.path = a.path ∧ wire.direction = a.direction ∧ a.kind.capacity? = some capacity := by
  subst hslots
  obtain ⟨wire, hw, rfl⟩ := exists_wire_of_slot hi
  have hkind : (wire.cargo.kind capacity wire.path).capacity?.isSome = true := ha
  have hcases : .each ∈ wire.path ∧
      (wire.cargo.kind capacity wire.path).capacity? = some capacity := by
    cases hc : wire.cargo with
    | cursor columns =>
      rw [hc] at hkind
      cases hkind
    | scalar s =>
      by_cases he : .each ∈ wire.path
      · rw [Cargo.kind_scalar_of_mem he]
        exact ⟨he, rfl⟩
      · rw [hc, Cargo.kind_scalar_of_notMem he] at hkind
        cases hkind
  exact ⟨wire, List.mem_of_getElem? hw, hcases.1, rfl, rfl, hcases.2⟩

/-- A column that comes out of a table that goes in copies the column that goes in. -/
theorem copied_of_table (hslots : slots = addSlots capacity [] f.wires) {table : Path}
    (hi : slots[i]? = some a) (hj : slots[j]? = some b) (ha : a.IsColumnOf table)
    (hb : b.IsColumnOf table) (hin : a.direction = .input) (hout : b.direction = .output) :
    ∃ k s, slots[k]? = some s ∧ s.path = b.path ∧ s.kind = b.kind ∧ s.direction = .input ∧
      b.source = .copyOf k := by
  have hsound : SlotsSound f capacity slots := hslots ▸ slotsSound_wires f capacity
  obtain ⟨u, hu, heu, hpu, hdu, -⟩ := column_of_slot hslots hi ha.1
  obtain ⟨v, hv, hev, hpv, hdv, -⟩ := column_of_slot hslots hj hb.1
  have htable : u.path.table = v.path.table := by
    rw [hpu, hpv, ha.2, hb.2]
  obtain ⟨x, hx, rfl⟩ := inOut_of_table hu hv heu hev (hdu.trans hin) (hdv.trans hout) htable
  obtain ⟨k, _, s, _, -, hk, -, hs, -⟩ := hsound.paired hx
  have hpath : s.path = b.path := hs.1.trans hpv
  -- the slot for the way in is not the one that comes out, nor after it
  have hlt : k < j := by
    rcases Nat.lt_trichotomy k j with h | rfl | h
    · exact h
    · obtain rfl := Option.some.inj (hk.symm.trans hj)
      rw [hs.2.1] at hout
      cases hout
    · obtain ⟨y, -, hy, -⟩ := hsound.shared hj hk h hpath.symm
      rw [hy.2.1] at hout
      cases hout
  obtain ⟨-, hsource, hkind⟩ := hsound.copied hk hj hlt hpath
  exact ⟨k, s, hk, hpath, hkind, hs.2.1, hsource⟩

end Slots

end Subprogram

/-- A column of a request is read from the elements of its table. -/
theorem Slot.holdsColumn_of_column {request v : Value} {slot : Slot} {elem : Kind} {capacity : Nat}
    {column cells : List Value} (hp : slot.path.IsColumn) (hk : slot.kind = .array elem capacity)
    (hc : request.column slot.path = some column) (hv : v = .list cells)
    (hcells : List.Forall₂ (fun v cell => v.coerce elem slot.path.text = .ok cell)
      (column.take capacity) cells) :
    ∃ elements, request.rows slot.path.table = some elements ∧
      slot.HoldsColumn (elements.take capacity) v := by
  obtain ⟨t, inner, hpath, ht, -⟩ := hp.exists_split
  have htable : slot.path.table = t := by rw [hpath, Path.table_append ht]
  rw [hpath, column_eq ht] at hc
  obtain ⟨elements, hrows, rfl⟩ := Option.map_eq_some_iff.mp hc
  refine ⟨elements, htable ▸ hrows, inner, elem, capacity, cells, ?_, hk, hv, ?_⟩
  · rw [htable]
    exact hpath
  · rw [Value.cells, ← List.map_take] at hcells
    exact List.forall₂_map_left_iff.mp hcells

/-! ## All binds -/

namespace Plan

section Faithful

variable {f : Subprogram} {capacity : Nat} {p : Plan} {request : Value} {binds : List (Bind σ)}
  {i : Nat} {slot : Slot} {bind : Bind σ}

/-- The bind of a slot is made after the binds before it. -/
theorem ofSlot_of_getElem? (h : Bind.ofSlots request [] p.slots = .ok binds)
    (hi : p.slots[i]? = some slot) (hb : binds[i]? = some bind) :
    Bind.ofSlot request (binds.take i) slot = .ok bind := by
  obtain ⟨-, -, hslots⟩ := Bind.ofSlot_of_ofSlots h
  obtain ⟨b, hb', hs⟩ := hslots i slot hi
  rw [List.length_nil, Nat.zero_add] at hb' hs
  rwa [Option.some.inj (hb.symm.trans hb')]

theorem copied_of_ofSlots (h : Bind.ofSlots request [] p.slots = .ok binds) {j : Nat}
    (hi : p.slots[i]? = some slot) (hb : binds[i]? = some bind) (hs : slot.source = .copyOf j) :
    ∃ first, j < i ∧ binds[j]? = some first ∧ bind.value = first.value := by
  obtain ⟨first, hfirst, hvalue⟩ := Bind.ofSlot_copyOf hs (ofSlot_of_getElem? h hi hb)
  have hlt : j < i := by
    have hlen := (List.getElem?_eq_some_iff.mp hfirst).1
    rw [List.length_take] at hlen
    omega
  rw [List.getElem?_take_of_lt hlt] at hfirst
  exact ⟨first, hlt, hfirst, hvalue⟩

variable (hslots : p.slots = addSlots capacity [] f.wires)
  (hcoll : ∀ s ∈ p.slots, s.Collectible)

include hslots

/-- A slot that goes in takes its value from the request: copies come out. -/
theorem convert_of_input (hi : p.slots[i]? = some slot) (hin : slot.direction.isInput = true) :
    slot.source = .convert := by
  have hsound : SlotsSound f capacity p.slots := hslots ▸ Subprogram.slotsSound_wires f capacity
  cases hs : slot.source with
  | convert => rfl
  | copyOf j =>
    obtain ⟨hlt, a, ha, -, hpath, -⟩ := hsound.origin hi hs
    obtain ⟨x, -, -, hout⟩ := hsound.shared ha hi hlt hpath
    rw [hout.2.1] at hin
    cases hin

include hcoll

/-- An input array is a column of the request. -/
theorem array_of_ofSlots (h : Bind.ofSlots request [] p.slots = .ok binds)
    (hi : p.slots[i]? = some slot) (hb : binds[i]? = some bind)
    (hin : slot.direction.isInput = true) {elem : Kind} {n : Nat} (hk : slot.kind = .array elem n) :
    ∃ column cells, request.column slot.path = some column ∧ bind.value = .list cells ∧
      List.Forall₂ (fun v cell => v.coerce elem slot.path.text = .ok cell)
        (column.take n) cells := by
  have hs := ofSlot_of_getElem? h hi hb
  rw [Bind.ofSlot_convert (convert_of_input hslots hi hin)] at hs
  exact Bind.converting_array (hcoll slot (List.mem_of_getElem? hi)).path hin hk hs

/-- An input array of a table is read from the elements of the table. -/
theorem holdsColumn_of_input (h : Bind.ofSlots request [] p.slots = .ok binds)
    (hi : p.slots[i]? = some slot) (hb : binds[i]? = some bind)
    (hin : slot.direction.isInput = true) (hcap : slot.kind.capacity?.isSome = true) :
    ∃ elements, request.rows slot.path.table = some elements ∧
      slot.HoldsColumn (elements.take capacity) bind.value := by
  obtain ⟨-, -, -, -, -, hcapacity⟩ := Subprogram.column_of_slot hslots hi hcap
  have hplace := (hcoll slot (List.mem_of_getElem? hi)).place
  cases hk : slot.kind with
  | scalar _ | cursor _ | document _ =>
    rw [hk] at hcap
    cases hcap
  | array elem n =>
    rw [hk] at hplace hcapacity
    obtain rfl : n = capacity := Option.some.inj hcapacity
    obtain ⟨column, cells, hc, hv, hcells⟩ := array_of_ofSlots hslots hcoll h hi hb hin hk
    exact Slot.holdsColumn_of_column hplace hk hc hv hcells

/-- **The columns of a table are read from the same elements**, or none of them goes in. -/
theorem table_of_ofSlots (h : Bind.ofSlots request [] p.slots = .ok binds) (table : Path) :
    (∃ elements capacity, request.rows table = some elements ∧
      ∀ {i : Nat} {slot : Slot} {bind : Bind σ}, p.slots[i]? = some slot → binds[i]? = some bind →
        slot.IsColumnOf table → slot.HoldsColumn (elements.take capacity) bind.value) ∨
    (∀ {i : Nat} {slot : Slot} {bind : Bind σ}, p.slots[i]? = some slot → binds[i]? = some bind →
      slot.IsColumnOf table → slot.direction = .output ∧ bind.value = .null) := by
  have hdir : ∀ {i : Nat} {s : Slot}, p.slots[i]? = some s → s.IsColumnOf table →
      s.direction = .input ∨ s.direction = .output := by
    intro i s hi hs
    obtain ⟨wire, hw, he, -, hd, -⟩ := Subprogram.column_of_slot hslots hi hs.1
    rw [← hd]
    exact Subprogram.direction_of_column hw he
  have hlen : binds.length = p.slots.length := by
    rw [(Bind.ofSlot_of_ofSlots h).2.1, List.length_nil, Nat.zero_add]
  have hread : ∀ {i : Nat} {s : Slot} {b : Bind σ}, p.slots[i]? = some s → binds[i]? = some b →
      s.IsColumnOf table → s.direction = .input → ∃ elements, request.rows table = some elements ∧
        s.HoldsColumn (elements.take capacity) b.value := by
    intro i s b hi hb hs hd
    have hheld := holdsColumn_of_input hslots hcoll h hi hb (by rw [hd]; rfl) hs.1
    rwa [hs.2] at hheld
  by_cases hany : ∃ (i : Nat) (a : Slot), p.slots[i]? = some a ∧ a.IsColumnOf table ∧
      a.direction = .input
  · obtain ⟨i, a, hi, ha, hin⟩ := hany
    have hlt : i < binds.length := hlen ▸ (List.getElem?_eq_some_iff.mp hi).1
    obtain ⟨elements, hrows, -⟩ := hread hi (List.getElem?_eq_getElem hlt) ha hin
    have hheld : ∀ {i : Nat} {s : Slot} {b : Bind σ}, p.slots[i]? = some s →
        binds[i]? = some b → s.IsColumnOf table → s.direction = .input →
          s.HoldsColumn (elements.take capacity) b.value := by
      intro i s b hi hb hs hd
      obtain ⟨elements', hrows', hheld⟩ := hread hi hb hs hd
      rwa [Option.some.inj (hrows.symm.trans hrows')]
    refine Or.inl ⟨elements, capacity, hrows, fun {j b bind} hj hb hs => ?_⟩
    rcases hdir hj hs with hd | hd
    · exact hheld hj hb hs hd
    · obtain ⟨k, s, hk, hpath, hkind, hks, hsource⟩ :=
        Subprogram.copied_of_table hslots hi hj ha hs hin hd
      obtain ⟨first, -, hfirst, hvalue⟩ := copied_of_ofSlots h hj hb hsource
      have hcolumn : s.IsColumnOf table := by
        unfold Slot.IsColumnOf at hs ⊢
        rwa [hpath, hkind]
      have hsheld := hheld hk hfirst hcolumn hks
      unfold Slot.HoldsColumn at hsheld ⊢
      rwa [hvalue, ← hpath, ← hkind]
  · refine Or.inr fun {j b bind} hj hb hs => ?_
    have hd : b.direction = .output :=
      (hdir hj hs).resolve_left fun hin => hany ⟨j, b, hj, hs, hin⟩
    refine ⟨hd, ?_⟩
    have hsound : SlotsSound f capacity p.slots := hslots ▸ Subprogram.slotsSound_wires f capacity
    cases hsource : b.source with
    | convert =>
      have hmade := ofSlot_of_getElem? h hj hb
      rw [Bind.ofSlot_convert hsource] at hmade
      exact Bind.converting_output hd hmade
    | copyOf k =>
      -- what is copied would be a column of the table that goes in
      obtain ⟨hlt, a, ha, -, hpath, hkind⟩ := hsound.origin hj hsource
      obtain ⟨x, -, hin, -⟩ := hsound.shared ha hj hlt hpath
      have hcolumn : a.IsColumnOf table := by
        unfold Slot.IsColumnOf at hs ⊢
        rwa [hpath, hkind]
      exact absurd ⟨k, a, ha, hcolumn, hin.2.1⟩ hany

/-- **The binds of slots are what the request says.** -/
theorem bindsFaithful_of_ofSlots
    (hcursor : ∀ s ∈ p.slots, ∀ columns : List Column, s.kind = .cursor columns →
      s.direction = .output)
    (h : Bind.ofSlots request [] p.slots = .ok binds) : p.BindsFaithful request binds where
  length := by rw [(Bind.ofSlot_of_ofSlots h).2.1, List.length_nil, Nat.zero_add]
  form := fun {i slot bind} hi hb =>
    Bind.fits_of_ofSlot (hcursor slot (List.mem_of_getElem? hi)) (ofSlot_of_getElem? h hi hb)
  scalar := by
    intro i slot bind kind hi hb hin hk
    have hs := ofSlot_of_getElem? h hi hb
    rw [Bind.ofSlot_convert (convert_of_input hslots hi hin)] at hs
    exact Bind.converting_scalar (hcoll slot (List.mem_of_getElem? hi)).path hin hk hs
  array := by
    intro i slot bind elem n hi hb hin hk
    obtain ⟨column, cells, hc, hv, hcells⟩ := array_of_ofSlots hslots hcoll h hi hb hin hk
    refine ⟨column, cells, hc, hv, ?_, hcells⟩
    rw [← hcells.length_eq, List.length_take, Nat.min_comm]
  table := table_of_ofSlots hslots hcoll h
  copied := copied_of_ofSlots h

end Faithful

/-! ## Calls -/

/-- What is left when a database is done: the outputs are collected, unless it failed. -/
def conclude (p : Plan) (binds : List (Bind σ)) :
    Except CallError (Writes σ) × ω → Except CallError (Response σ) × ω
  | (.error e, w) => (.error e, w)
  | (.ok writes, w) => (p.collectOutputs {} ((binds.mapIdx (written writes)).zip p.slots), w)

/-- **A call hands the binds it has made to the database**, unless it was stopped before. -/
theorem run_invoke (p : Plan) (exec : Executor ω σ) (request : Value) (o : CallOptions) (w : ω) :
    (p.invoke exec request o).run w =
      match o.check, Bind.ofSlots request [] p.slots with
      | .error e, _ => (.error e, w)
      | .ok (), .error e => (.error e, w)
      | .ok (), .ok binds =>
        p.conclude binds (exec.execute p.block binds o.deadline.isSome w) := by
  unfold invoke
  simp only [run_bind, run_ofExcept, ExceptT.run_mk]
  cases o.check with
  | error e => rfl
  | ok u =>
    cases Bind.ofSlots request [] p.slots with
    | error e => rfl
    | ok binds =>
      simp only
      rcases exec.execute p.block binds o.deadline.isSome w with ⟨_ | writes, w'⟩ <;> rfl

end Plan

/-! ## Generated plans -/

namespace Stub

variable {c : StubConfig} {f : Subprogram} {names names' : Names} {stub : Stub}

/-- A slot of a generated plan copies an earlier slot. -/
theorem copies_of_generate (hr : f.replacement = none)
    (h : (generate c f).run names = (.ok stub, names')) {i j : Nat} {slot : Slot}
    (hi : stub.plan.slots[i]? = some slot) (hs : slot.source = .copyOf j) : j < i := by
  rw [(slots_of_generate hr h).1] at hi
  exact ((Subprogram.slotsSound_wires f _).origin hi hs).1

/-- **Every bind of a call holds what the request says**, and no bind is refused. -/
theorem bindsFaithful_of_generate {c : StubConfig} {f : Subprogram} {names names' : Names}
    {stub : Stub} (hr : f.replacement = none) (hn : ∀ n ∈ f.pathNames, PlainName n)
    (hg : (generate c f).run names = (.ok stub, names')) (request : Value) :
    (∀ index fault, (Bind.ofSlots request [] stub.plan.slots : Except CallError (List (Bind σ))) ≠
      .error (.bind index fault)) ∧
    ∀ binds : List (Bind σ), Bind.ofSlots request [] stub.plan.slots = .ok binds →
      stub.plan.BindsFaithful request binds ∧
      ∀ (exec : Executor ω σ) (o : CallOptions) (w : ω), o.check = .ok () →
        (stub.plan.invoke exec request o).run w =
          stub.plan.conclude binds (exec.execute stub.plan.block binds o.deadline.isSome w) := by
  have hcoll : ∀ s ∈ stub.plan.slots, s.Collectible := fun s => collectible_of_generate hr hn hg
  refine ⟨fun index fault => ?_, fun binds h => ⟨?_, fun exec o w hcheck => ?_⟩⟩
  · refine Bind.ofSlots_ne_bind hcoll fun i slot j hi hs => ?_
    have hlt := copies_of_generate hr hg hi hs
    rwa [List.length_nil, Nat.zero_add]
  · refine Plan.bindsFaithful_of_ofSlots (slots_of_generate hr hg).1 hcoll
      (fun s hs columns hk => ?_) h
    obtain ⟨wire, -, hplaced, before, rfl⟩ := wire_of_generate hr hg hs
    exact Wire.comesOut_slot hplaced hk
  · rw [Plan.run_invoke, hcheck, h]

/-- A procedure with a table that goes in and comes out, one that only comes out, and scalars. No
array holds more than two elements. -/
def reorder : Subprogram where
  package := "STOCK"
  name := "REORDER"
  maxTableSize := some 2
  args := [
    textArgument "P_SITE" .input,
    { name := "P_COUNT", direction := .both, shape := .scalar (.named "NUMBER") },
    { name := "P_LINES", direction := .both, shape := .table (some "STOCK.LINES") (some
      { name := "", direction := .both, shape := .record (some "STOCK.LINE") [
        textArgument "ID" .both,
        { name := "QTY", direction := .both, shape := .scalar (.named "NUMBER") }] }) true false },
    { name := "P_LATE", direction := .output, shape := .table (some "STOCK.IDS") (some
      (textArgument "" .output)) true false }]

/-- A request without a site, with three lines of which one has no quantity. -/
def reorderRequest : Value := .object [("p_count", .text " 3 "),
  ("p_lines", .list [.object [("id", .text "a"), ("qty", .int 5)], .object [("id", .int 7)],
    .object [("id", .text "c"), ("qty", .int 9)]])]

/-- The values of the binds: two columns, the scalars, the copies of the columns, and nothing for
the table that only comes out. -/
def reorderValues : List Value :=
  let ids : Value := .list [.text "a", .text "7"]
  let quantities : Value := .list [.decimal "5", .null]
  [ids, quantities, .null, .decimal "3", ids, quantities, .null]

theorem reorder_bindsFaithful : reorder.replacement = none ∧
    (∀ n ∈ reorder.pathNames, PlainName n) ∧ ∃ stub names' binds,
      (generate {} reorder).run [] = (.ok stub, names') ∧
      Bind.ofSlots reorderRequest [] stub.plan.slots = .ok binds ∧
      sameItems (binds.map Bind.value) reorderValues = true ∧
      stub.plan.BindsFaithful (σ := ScriptedRows) reorderRequest binds ∧
      (∀ index fault, (Bind.ofSlots reorderRequest [] stub.plan.slots :
        Except CallError (List (Bind ScriptedRows))) ≠ .error (.bind index fault)) := by
  have hnames : ∀ n ∈ reorder.pathNames, PlainName n := by decide +kernel
  have hvalues : (match ((generate {} reorder).run []).1 with
      | .ok stub =>
        match (Bind.ofSlots reorderRequest [] stub.plan.slots :
          Except CallError (List (Bind ScriptedRows))) with
        | .ok binds => sameItems (binds.map Bind.value) reorderValues
        | .error _ => false
      | .error _ => false) = true := by decide +kernel
  rcases hg : (generate {} reorder).run [] with ⟨_ | stub, names'⟩
  · rw [hg] at hvalues
    cases hvalues
  · rw [hg] at hvalues
    have hfaithful := bindsFaithful_of_generate (ω := Option Executed) (σ := ScriptedRows) rfl
      hnames hg reorderRequest
    cases hb : (Bind.ofSlots reorderRequest [] stub.plan.slots :
        Except CallError (List (Bind ScriptedRows))) with
    | error e =>
      simp only [hb] at hvalues
      cases hvalues
    | ok binds =>
      simp only [hb] at hvalues
      rw [hb] at hfaithful
      exact ⟨rfl, hnames, stub, names', binds, rfl, hb, hvalues, (hfaithful.2 binds rfl).1,
        by rw [hb]; exact hfaithful.1⟩

end Stub

end StoredCall
