import StoredCall.Proofs.Stub.Lower
import StoredCall.Proofs.Stub.Parting

/-!
# Where the values of slots come from

A slot takes its value from the request, or copies an earlier slot with its path. Paths part, except
for the two slots of a scalar inside a composite that goes in and comes out; so a copy is always the
output of such a scalar, and what it copies is the input of the same scalar.

* `SlotsSound` says so of a list of slots.
* **`Subprogram.slotsSound_of_lower`**: it holds of the slots of every subprogram that is called
  itself.
-/

namespace StoredCall

open Text

/-! ## The source of a slot -/

section NextSlot

variable {slots : List Slot} {path : Path} {direction : Direction} {kind : SlotKind} {a : Slot}
  {i : Nat}

/-- A slot copies the first slot with its path. -/
theorem nextSlot_source_of_first (hi : slots[i]? = some a) (ha : a.path = path)
    (hmin : ∀ k c, k < i → slots[k]? = some c → c.path ≠ path) :
    (nextSlot slots path direction kind).source = .copyOf i := by
  have hfind : slots.findIdx? (fun slot => decide (slot.path = path)) = some i := by
    obtain ⟨hlt, rfl⟩ := List.getElem?_eq_some_iff.mp hi
    refine List.findIdx?_eq_some_iff_getElem.mpr ⟨hlt, by simpa using ha, fun k hk => ?_⟩
    simpa using hmin k _ hk (List.getElem?_eq_getElem (hk.trans hlt))
  simp only [nextSlot, hfind]

theorem nextSlot_source_of_new (h : ∀ c ∈ slots, c.path ≠ path) :
    (nextSlot slots path direction kind).source = .convert := by
  have hfind : slots.findIdx? (fun slot => decide (slot.path = path)) = none :=
    List.findIdx?_eq_none_iff.mpr fun c hc => by simpa using h c hc
  simp only [nextSlot, hfind]

end NextSlot

section AddSlots

variable {capacity : Nat} {wires : List Wire} {i j : Nat} {a b : Slot}

/-- Each wire has its slot, after the slots before it. -/
theorem slot_of_wire {w : Wire} (h : wires[i]? = some w) : (addSlots capacity [] wires)[i]? =
    some (w.slot capacity ((addSlots capacity [] wires).take i)) := by
  have hs := @getElem?_addSlots capacity [] wires i w h
  rwa [List.length_nil, Nat.zero_add] at hs

/-- Each slot is the one of its wire. -/
theorem exists_wire_of_slot (h : (addSlots capacity [] wires)[i]? = some a) :
    ∃ w, wires[i]? = some w ∧ a = w.slot capacity ((addSlots capacity [] wires).take i) := by
  have hlt := (List.getElem?_eq_some_iff.mp h).1
  rw [length_addSlots, List.length_nil, Nat.zero_add] at hlt
  have hw := List.getElem?_eq_getElem hlt
  exact ⟨wires[i], hw, Option.some.inj (h.symm.trans (slot_of_wire hw))⟩

theorem position_of_addSlots (h : (addSlots capacity [] wires)[i]? = some a) :
    a.position = i + 1 := by
  obtain ⟨w, -, ha⟩ := exists_wire_of_slot h
  have hlt := (List.getElem?_eq_some_iff.mp h).1
  rw [ha]
  show ((addSlots capacity [] wires).take i).length + 1 = i + 1
  rw [List.length_take, Nat.min_eq_left hlt.le]

/-- The later of two slots with one path copies the earlier one, if no slot before has the path. -/
theorem source_of_addSlots_copy (hi : (addSlots capacity [] wires)[i]? = some a)
    (hj : (addSlots capacity [] wires)[j]? = some b) (hij : i < j) (hp : a.path = b.path)
    (hmin : ∀ k c, k < i → (addSlots capacity [] wires)[k]? = some c → c.path ≠ b.path) :
    b.source = .copyOf i := by
  obtain ⟨w, -, rfl⟩ := exists_wire_of_slot hj
  refine nextSlot_source_of_first (by rwa [List.getElem?_take_of_lt hij]) hp fun k c hk hc => ?_
  rw [List.getElem?_take_of_lt (hk.trans hij)] at hc
  exact hmin k c hk hc

theorem source_of_addSlots_convert (hj : (addSlots capacity [] wires)[j]? = some b)
    (h : ∀ k c, k < j → (addSlots capacity [] wires)[k]? = some c → c.path ≠ b.path) :
    b.source = .convert := by
  obtain ⟨w, -, rfl⟩ := exists_wire_of_slot hj
  refine nextSlot_source_of_new fun c hc => ?_
  obtain ⟨k, hk⟩ := List.getElem?_of_mem hc
  have hlt : k < j := by
    have := (List.getElem?_eq_some_iff.mp hk).1
    rw [List.length_take] at this
    omega
  rw [List.getElem?_take_of_lt hlt] at hk
  exact h k c hlt hk

end AddSlots

/-! ## Sound sources -/

/-- A slot carries a scalar in a direction. -/
def Slot.IsFor (capacity : Nat) (direction : Direction) (x : Path × Scalar) (slot : Slot) : Prop :=
  slot.path = x.1 ∧ slot.direction = direction ∧ slot.kind = (Cargo.scalar x.2).kind capacity x.1

/-- Every value is converted once, and a slot copies nothing but the input of its own scalar. -/
structure SlotsSound (f : Subprogram) (capacity : Nat) (slots : List Slot) : Prop where
  position : ∀ {i : Nat} {a : Slot}, slots[i]? = some a → a.position = i + 1
  /-- A path leads to one scalar that goes in and comes out, if to any. -/
  leaves : (f.inOutLeaves.map Prod.fst).Nodup
  /-- Each scalar that goes in and comes out has a slot for either way. -/
  paired : ∀ {x : Path × Scalar}, x ∈ f.inOutLeaves → ∃ (i j : Nat) (a b : Slot), i < j ∧
    slots[i]? = some a ∧ slots[j]? = some b ∧ a.IsFor capacity .input x ∧
      b.IsFor capacity .output x
  /-- Slots with one path are the two of such a scalar. -/
  shared : ∀ {i j : Nat} {a b : Slot}, slots[i]? = some a → slots[j]? = some b → i < j →
    a.path = b.path → ∃ x ∈ f.inOutLeaves, a.IsFor capacity .input x ∧ b.IsFor capacity .output x
  /-- The later of the two copies the earlier one. -/
  copied : ∀ {i j : Nat} {a b : Slot}, slots[i]? = some a → slots[j]? = some b → i < j →
    a.path = b.path → a.source = .convert ∧ b.source = .copyOf i ∧ a.kind = b.kind
  /-- All other slots convert. -/
  converted : ∀ {j : Nat} {b : Slot}, slots[j]? = some b →
    (∀ i a, i < j → slots[i]? = some a → a.path ≠ b.path) → b.source = .convert
  prefixFree : ∀ {i j : Nat} {a b : Slot}, slots[i]? = some a → slots[j]? = some b →
    a.path <+: b.path → a.path = b.path
  /-- A value is converted once. -/
  once : ∀ {i j : Nat} {a b : Slot}, slots[i]? = some a → slots[j]? = some b → a.source = .convert →
    b.source = .convert → a.path = b.path → i = j
  /-- What is copied is an earlier slot's value of the same path. -/
  origin : ∀ {i j : Nat} {b : Slot}, slots[j]? = some b → b.source = .copyOf i →
    i < j ∧ ∃ a, slots[i]? = some a ∧ a.source = .convert ∧ a.path = b.path ∧ a.kind = b.kind

namespace Subprogram

variable {f : Subprogram} {capacity : Nat} {i j : Nat} {a b : Slot}

/-- Slots of wires that part have paths that part; those of twins are for one scalar. -/
theorem parts_of_slots (hi : (addSlots capacity [] f.wires)[i]? = some a)
    (hj : (addSlots capacity [] f.wires)[j]? = some b) (hij : i < j) :
    Path.Apart a.path b.path ∨
      ∃ x ∈ f.inOutLeaves, a.IsFor capacity .input x ∧ b.IsFor capacity .output x := by
  obtain ⟨u, hu, rfl⟩ := exists_wire_of_slot hi
  obtain ⟨v, hv, rfl⟩ := exists_wire_of_slot hj
  obtain ⟨hi', rfl⟩ := List.getElem?_eq_some_iff.mp hu
  obtain ⟨hj', rfl⟩ := List.getElem?_eq_some_iff.mp hv
  refine (List.pairwise_iff_getElem.mp f.wires_pairwise i j hi' hj' hij).imp id ?_
  rintro ⟨x, hx, hin, hout⟩
  refine ⟨x, hx, ?_, ?_⟩
  · rw [hin]
    exact ⟨rfl, rfl, rfl⟩
  · rw [hout]
    exact ⟨rfl, rfl, rfl⟩

/-- Each scalar that goes in and comes out has two wires, the one for the way in first. -/
theorem exists_twins {x : Path × Scalar} (hx : x ∈ f.inOutLeaves) :
    ∃ i j : Nat, i < j ∧ f.wires[i]? = some (scalarWire .input x) ∧
      f.wires[j]? = some (scalarWire .output x) := by
  obtain ⟨e, he, hx⟩ := List.mem_flatMap.mp hx
  split at hx
  · rename_i hc
    rw [Bool.and_eq_true, decide_eq_true_eq] at hc
    have hin : scalarWire .input x ∈ f.entries.flatMap fillWires :=
      List.mem_flatMap.mpr ⟨e, he, mem_fillWires.mpr ⟨by rw [hc.2]; rfl,
        mem_leafWires.mpr ⟨hc.1, x, hx, rfl⟩⟩⟩
    have hout : scalarWire .output x ∈ f.entries.flatMap readWires :=
      List.mem_flatMap.mpr ⟨e, he, mem_readWires.mpr ⟨by rw [hc.2]; rfl,
        mem_leafWires.mpr ⟨hc.1, x, hx, rfl⟩⟩⟩
    obtain ⟨rest, hrest, hmem⟩ : ∃ rest, f.wires = f.entries.flatMap fillWires ++ rest ∧
        scalarWire .output x ∈ rest := by
      unfold wires
      simp only [List.append_assoc]
      exact ⟨_, rfl, by simp [hout]⟩
    obtain ⟨i, hi⟩ := List.getElem?_of_mem hin
    obtain ⟨j, hj⟩ := List.getElem?_of_mem hmem
    have hlt := (List.getElem?_eq_some_iff.mp hi).1
    refine ⟨i, (f.entries.flatMap fillWires).length + j, by omega, ?_, ?_⟩
    · rw [hrest, List.getElem?_append_left hlt, hi]
    · rw [hrest, List.getElem?_append_right (by omega), Nat.add_sub_cancel_left, hj]
  · exact absurd hx List.not_mem_nil

/-- Slots with one path are the two of a scalar that goes in and comes out. -/
theorem shared_slots (hi : (addSlots capacity [] f.wires)[i]? = some a)
    (hj : (addSlots capacity [] f.wires)[j]? = some b) (hij : i < j) (hp : a.path = b.path) :
    ∃ x ∈ f.inOutLeaves, a.IsFor capacity .input x ∧ b.IsFor capacity .output x :=
  (parts_of_slots hi hj hij).resolve_left fun h => h.ne hp

/-- The slot for the way in is the first with its path, and the one for the way out copies it. -/
theorem copied_slots (hi : (addSlots capacity [] f.wires)[i]? = some a)
    (hj : (addSlots capacity [] f.wires)[j]? = some b) (hij : i < j) (hp : a.path = b.path) :
    a.source = .convert ∧ b.source = .copyOf i ∧ a.kind = b.kind := by
  obtain ⟨x, hx, ha, hb⟩ := shared_slots hi hj hij hp
  have hfirst : ∀ k c, k < i → (addSlots capacity [] f.wires)[k]? = some c → c.path ≠ a.path := by
    intro k c hk hc he
    -- otherwise the earlier slot is for the way out as well
    obtain ⟨y, -, -, hout⟩ := shared_slots hc hi hk he
    exact absurd (ha.2.1.symm.trans hout.2.1) (by simp)
  refine ⟨source_of_addSlots_convert hi hfirst, source_of_addSlots_copy hi hj hij hp ?_, ?_⟩
  · exact fun k c hk hc => hp ▸ hfirst k c hk hc
  · rw [ha.2.2, hb.2.2]

theorem slotsSound_wires (f : Subprogram) (capacity : Nat) :
    SlotsSound f capacity (addSlots capacity [] f.wires) where
  position := position_of_addSlots
  leaves := List.pairwise_map.mpr (f.inOutLeaves_pairwise.imp Path.Apart.ne)
  paired := by
    intro x hx
    obtain ⟨i, j, hij, hi, hj⟩ := exists_twins hx
    exact ⟨i, j, _, _, hij, slot_of_wire hi, slot_of_wire hj, ⟨rfl, rfl, rfl⟩, ⟨rfl, rfl, rfl⟩⟩
  shared := shared_slots
  copied := copied_slots
  converted := source_of_addSlots_convert
  prefixFree := by
    intro i j a b hi hj hpre
    rcases Nat.lt_trichotomy i j with hij | rfl | hij
    · rcases parts_of_slots hi hj hij with h | ⟨x, -, ha, hb⟩
      · exact absurd hpre h.not_prefix
      · rw [ha.1, hb.1]
    · rw [Option.some.inj (hi.symm.trans hj)]
    · rcases parts_of_slots hj hi hij with h | ⟨x, -, ha, hb⟩
      · exact absurd hpre h.symm.not_prefix
      · rw [ha.1, hb.1]
  once := by
    intro i j a b hi hj ha hb hp
    rcases Nat.lt_trichotomy i j with hij | rfl | hij
    · exact absurd (hb.symm.trans (copied_slots hi hj hij hp).2.1) (by simp)
    · rfl
    · exact absurd (ha.symm.trans (copied_slots hj hi hij hp.symm).2.1) (by simp)
  origin := by
    intro i j b hj hsource
    by_cases h : ∃ k c, k < j ∧ (addSlots capacity [] f.wires)[k]? = some c ∧ c.path = b.path
    · obtain ⟨k, c, hk, hc, hp⟩ := h
      obtain ⟨hconv, hcopy, hkind⟩ := copied_slots hc hj hk hp
      obtain rfl : i = k := Source.copyOf.inj (hsource.symm.trans hcopy)
      exact ⟨hk, c, hc, hconv, hp, hkind⟩
    · have hnew := source_of_addSlots_convert hj fun k c hk hc hp => h ⟨k, c, hk, hc, hp⟩
      exact absurd (hsource.symm.trans hnew) (by simp)

/-- **The sources of slots are sound.** -/
theorem slotsSound_of_lower {f : Subprogram} {capacity : Nat} {names names' : Names} {b : Block}
    {slots : List Slot} (hr : f.replacement = none)
    (h : (f.lower capacity).run names = (.ok (b, slots), names')) :
    SlotsSound f (f.arrayCapacity capacity) slots := by
  obtain ⟨loops, he⟩ := lower_run (P := fun _ => True) hr h fun _ _ => trivial
  have hslots : slots = addSlots (f.arrayCapacity capacity) [] f.wires := he.slots
  rw [hslots]
  exact slotsSound_wires f _

/-- A record that goes in and comes out, with a table inside, beside arguments that ask for the
names of its field and of the return value. -/
def settle : Subprogram where
  package := "BILLING"
  name := "SETTLE"
  args := [
    { name := "P$A", direction := .both, shape := .record (some "BILLING.ACCOUNT") [
      { name := "ID", direction := .both, shape := .scalar (.named "NUMBER") },
      { name := "TAGS", direction := .both, shape := .table (some "BILLING.TAG_LIST") (some
        { name := "", direction := .both, shape := .scalar (.named "VARCHAR2") }) true false }] },
    { name := "P_A", direction := .input, shape := .scalar (.named "NUMBER") },
    { name := "P_A_2", direction := .both, shape := .scalar (.named "DATE") },
    { name := "RET", direction := .output, shape := .scalar (.named "NUMBER") }]
  returns := some { name := "", direction := .output, shape := .scalar (.named "NUMBER") }

theorem settle_slotsSound : settle.replacement = none ∧ ∃ b slots names',
    (settle.lower 100).run [] = (.ok (b, slots), names') ∧
      slots.map Slot.source = [.convert, .convert, .convert, .convert, .convert, .convert,
        .copyOf 0, .copyOf 1] ∧ SlotsSound settle 100 slots := by
  have hsources : ((settle.lower 100).run []).1.map (fun r => r.2.map Slot.source) =
      .ok [.convert, .convert, .convert, .convert, .convert, .convert, .copyOf 0, .copyOf 1] := by
    decide +kernel
  rcases hrun : (settle.lower 100).run [] with ⟨_ | ⟨b, slots⟩, names'⟩
  · rw [hrun] at hsources
    cases hsources
  · rw [hrun] at hsources
    exact ⟨rfl, b, slots, names', rfl, Except.ok.inj hsources, slotsSound_of_lower rfl hrun⟩

end Subprogram

end StoredCall
