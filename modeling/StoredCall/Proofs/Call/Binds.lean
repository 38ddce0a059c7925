import StoredCall.Proofs.Call.Collect

/-!
# The bind of a slot

The binds of a plan are made one after the other, each from the request or from an earlier bind.

* `Bind.ofSlot_of_ofSlots`: each slot has its bind, made after those of the slots before it.
* `Bind.fits_of_ofSlot`: inputs are values and outputs are boxes.
* `Bind.converting_scalar`, `Bind.converting_array`: what goes in is what the request has at the
  path of the slot.
* `Bind.ofSlots_ne_bind`: no bind is refused where slots copy earlier slots only.
-/

namespace StoredCall

variable {σ : Type}

/-! ## What a bind should hold -/

/-- A value is the scalar of a request at a path, brought to a kind; null where there is none. -/
def Value.IsScalarAt (request : Value) (path : Path) (kind : Kind) (v : Value) : Prop :=
  match request.lookup path with
  | some w => w.coerce kind path.text = .ok v
  | none => v = .null

/-- The form of a bind: a value for an input, a box of the slot's capacity for an output. -/
def Bind.Fits (slot : Slot) (bind : Bind σ) : Prop :=
  match slot.direction with
  | .input => ∃ v, bind = .input v
  | .output | .both => ∃ box, bind = .output box ∧ box.capacity = slot.kind.capacity? ∧
      box.stream = none

/-! ## The binds of slots -/

namespace Bind

variable {request : Value} {before binds : List (Bind σ)} {slots : List Slot}

/-- Each slot gets its bind, after the binds of the slots before it. -/
theorem ofSlot_of_ofSlots : ∀ {slots : List Slot} {before binds : List (Bind σ)},
    ofSlots request before slots = .ok binds → before <+: binds ∧
      binds.length = before.length + slots.length ∧ ∀ (i : Nat) (slot : Slot),
        slots[i]? = some slot → ∃ bind, binds[before.length + i]? = some bind ∧
          ofSlot request (binds.take (before.length + i)) slot = .ok bind
  | [], before, binds, h => by
    obtain rfl := Except.ok.inj h
    exact ⟨List.prefix_refl _, rfl, fun i slot hi => by simp at hi⟩
  | slot :: rest, before, binds, h => by
    obtain ⟨bind, hbind, h⟩ := except_bind_eq_ok.mp h
    obtain ⟨hpre, hlen, hrest⟩ := ofSlot_of_ofSlots h
    rw [List.length_append, List.length_singleton] at hlen hrest
    refine ⟨(List.prefix_append _ _).trans hpre, ?_, fun i s hi => ?_⟩
    · rw [hlen, List.length_cons]
      omega
    · cases i with
      | zero =>
        obtain rfl := Option.some.inj hi
        obtain ⟨tail, rfl⟩ := hpre
        refine ⟨bind, ?_, ?_⟩
        · rw [List.append_assoc, Nat.add_zero, List.getElem?_append_right (Nat.le_refl _)]
          simp
        · rw [List.append_assoc, Nat.add_zero, List.take_left]
          exact hbind
      | succ i =>
        have hi : rest[i]? = some s := hi
        have hpos : before.length + 1 + i = before.length + (i + 1) := by omega
        have hs := hrest i s hi
        rwa [hpos] at hs

/-- The bind of an output is a box without a stream, of the capacity of the slot if it is for an
array. -/
theorem box_of_ofSlot {slot : Slot} {bind : Bind σ} (h : ofSlot request before slot = .ok bind)
    (hout : slot.direction.isOutput = true) :
    ∃ box, bind = .output box ∧ box.capacity = slot.kind.capacity? ∧ box.stream = none := by
  unfold ofSlot at h
  split at h
  · unfold converting at h
    cases hd : slot.direction with
    | input =>
      rw [hd] at hout
      cases hout
    | output =>
      rw [hd] at h
      cases hk : slot.kind <;> rw [hk] at h <;> exact ⟨_, (Except.ok.inj h).symm, rfl, rfl⟩
    | both =>
      rw [hd] at h
      cases hk : slot.kind with
      | cursor columns =>
        rw [hk] at h
        exact ⟨_, (Except.ok.inj h).symm, rfl, rfl⟩
      | scalar _ | array _ _ | document _ =>
        rw [hk] at h
        obtain ⟨v, -, h⟩ := except_bind_eq_ok.mp h
        exact ⟨_, (Except.ok.inj h).symm, rfl, rfl⟩
  · split at h
    · cases h
    · cases hd : slot.direction with
      | input =>
        rw [hd] at hout
        cases hout
      | output | both =>
        rw [hd] at h
        exact ⟨_, (Except.ok.inj h).symm, rfl, rfl⟩

end Bind

/-! ## One bind -/

section Converting

variable {request : Value} {slot : Slot} {bind : Bind σ} {before : List (Bind σ)}

theorem requestScalar_text {path : Path} (hp : path.Readable) {kind : Kind} {v : Value}
    (h : requestScalar request path.text kind = .ok v) : request.IsScalarAt path kind v := by
  obtain ⟨p, hread, h⟩ := except_bind_eq_ok.mp h
  obtain rfl : path = p := Except.ok.inj ((readPath_text hp).symm.trans hread)
  unfold Value.IsScalarAt
  cases hl : request.lookup path with
  | none =>
    rw [hl] at h
    exact (Except.ok.inj h).symm
  | some w =>
    rw [hl] at h
    exact h

theorem requestArray_text {path : Path} (hp : path.Readable) {elem : Kind} {capacity : Nat}
    {v : Value} (h : requestArray request path.text elem capacity = .ok v) :
    ∃ column cells, request.column path = some column ∧ v = .list cells ∧
      List.Forall₂ (fun v cell => v.coerce elem path.text = .ok cell) (column.take capacity)
        cells := by
  obtain ⟨p, hread, h⟩ := except_bind_eq_ok.mp h
  obtain rfl : path = p := Except.ok.inj ((readPath_text hp).symm.trans hread)
  cases hc : request.column path with
  | none =>
    rw [hc] at h
    cases h
  | some column =>
    rw [hc] at h
    obtain ⟨cells, hcells, h⟩ := except_bind_eq_ok.mp h
    exact ⟨column, cells, rfl, (Except.ok.inj h).symm, coerceAll_eq_ok_iff.mp hcells⟩

namespace Bind

/-- What is converted for a scalar that goes in. -/
theorem converting_scalar {kind : Kind} (hp : slot.path.Readable)
    (hin : slot.direction.isInput = true) (hk : slot.kind = .scalar kind)
    (h : converting request slot = .ok bind) : request.IsScalarAt slot.path kind bind.value := by
  unfold converting at h
  rw [hk] at h
  cases hd : slot.direction with
  | output =>
    rw [hd] at hin
    cases hin
  | input | both =>
    rw [hd] at h
    obtain ⟨v, hv, h⟩ := except_bind_eq_ok.mp h
    obtain rfl := Except.ok.inj h
    exact requestScalar_text hp hv

/-- What is converted for an array that goes in. -/
theorem converting_array {elem : Kind} {capacity : Nat} (hp : slot.path.Readable)
    (hin : slot.direction.isInput = true) (hk : slot.kind = .array elem capacity)
    (h : converting request slot = .ok bind) :
    ∃ column cells, request.column slot.path = some column ∧ bind.value = .list cells ∧
      List.Forall₂ (fun v cell => v.coerce elem slot.path.text = .ok cell)
        (column.take capacity) cells := by
  unfold converting at h
  rw [hk] at h
  cases hd : slot.direction with
  | output =>
    rw [hd] at hin
    cases hin
  | input | both =>
    rw [hd] at h
    obtain ⟨v, hv, h⟩ := except_bind_eq_ok.mp h
    obtain rfl := Except.ok.inj h
    exact requestArray_text hp hv

/-- Nothing is converted for an output. -/
theorem converting_output (hd : slot.direction = .output)
    (h : converting request slot = .ok bind) : bind.value = .null := by
  unfold converting at h
  rw [hd] at h
  cases hk : slot.kind <;> rw [hk] at h <;> rw [← Except.ok.inj h] <;> rfl

theorem ofSlot_convert (hs : slot.source = .convert) :
    ofSlot request before slot = converting request slot := by
  unfold ofSlot
  rw [hs]

/-- A slot that copies takes the value of the bind it names. -/
theorem ofSlot_copyOf {j : Nat} (hs : slot.source = .copyOf j)
    (h : ofSlot request before slot = .ok bind) :
    ∃ first, before[j]? = some first ∧ bind.value = first.value := by
  unfold ofSlot at h
  rw [hs] at h
  cases hb : before[j]? with
  | none =>
    simp only [hb] at h
    cases h
  | some first =>
    simp only [hb] at h
    cases hd : slot.direction <;> rw [hd] at h <;> rw [← Except.ok.inj h] <;>
      exact ⟨first, rfl, rfl⟩

/-- The bind of an input is a value. -/
theorem input_of_ofSlot (hd : slot.direction = .input)
    (hc : ∀ columns : List Column, slot.kind ≠ .cursor columns)
    (h : ofSlot request before slot = .ok bind) : ∃ v, bind = .input v := by
  cases hs : slot.source with
  | copyOf j =>
    unfold ofSlot at h
    simp only [hs, hd] at h
    cases hb : before[j]? with
    | none =>
      rw [hb] at h
      cases h
    | some first =>
      rw [hb] at h
      exact ⟨_, (Except.ok.inj h).symm⟩
  | convert =>
    rw [ofSlot_convert hs] at h
    unfold converting at h
    cases hk : slot.kind with
    | cursor columns => exact absurd hk (hc columns)
    | scalar _ | array _ _ | document _ =>
      rw [hk, hd] at h
      obtain ⟨v, -, h⟩ := except_bind_eq_ok.mp h
      exact ⟨_, (Except.ok.inj h).symm⟩

/-- The bind of a slot has the form that its direction asks for. -/
theorem fits_of_ofSlot
    (hc : ∀ columns : List Column, slot.kind = .cursor columns → slot.direction = .output)
    (h : ofSlot request before slot = .ok bind) : bind.Fits slot := by
  unfold Fits
  cases hd : slot.direction with
  | input =>
    refine input_of_ofSlot hd (fun columns hk => ?_) h
    have hout := hc columns hk
    rw [hd] at hout
    cases hout
  | output | both => exact box_of_ofSlot h (by rw [hd]; rfl)

end Bind

end Converting

/-! ## Binds are not refused -/

section Refused

variable {request : Value} {slot : Slot} {index : Nat} {fault : BindFault}

theorem coerce_ne_bind (v : Value) (kind : Kind) (path : String) :
    v.coerce kind path ≠ .error (.bind index fault) := by
  unfold Value.coerce
  split <;> simp

theorem coerceAll_ne_bind (kind : Kind) (path : String) : ∀ vs : List Value,
    coerceAll kind path vs ≠ .error (.bind index fault)
  | [] => by simp [coerceAll]
  | v :: vs => by
    intro h
    rcases except_bind_eq_error.mp h with h | ⟨c, -, h⟩
    · exact coerce_ne_bind v kind path h
    · rcases except_bind_eq_error.mp h with h | ⟨more, -, h⟩
      · exact coerceAll_ne_bind kind path vs h
      · cases h

theorem requestScalar_ne_bind {path : Path} (hp : path.Readable) (kind : Kind) :
    requestScalar request path.text kind ≠ .error (.bind index fault) := by
  intro h
  rcases except_bind_eq_error.mp h with h | ⟨p, -, h⟩
  · rw [readPath_text hp] at h
    cases h
  · split at h
    · exact coerce_ne_bind _ kind path.text h
    · cases h

theorem requestArray_ne_bind {path : Path} (hp : path.Readable) (elem : Kind) (capacity : Nat) :
    requestArray request path.text elem capacity ≠ .error (.bind index fault) := by
  intro h
  rcases except_bind_eq_error.mp h with h | ⟨p, -, h⟩
  · rw [readPath_text hp] at h
    cases h
  · split at h
    · cases h
    · rcases except_bind_eq_error.mp h with h | ⟨cells, -, h⟩
      · exact coerceAll_ne_bind elem path.text _ h
      · cases h

namespace Bind

/-- What fails to be converted is a value of the request. -/
theorem converting_ne_bind (hs : slot.Collectible) :
    (converting request slot : Except CallError (Bind σ)) ≠ .error (.bind index fault) := by
  intro h
  have hplace := hs.place
  unfold converting at h
  cases hk : slot.kind with
  | document format =>
    rw [hk] at hplace
    exact hplace
  | cursor columns =>
    rw [hk] at h
    cases hd : slot.direction <;> rw [hd] at h <;> cases h
  | scalar kind =>
    cases hd : slot.direction with
    | output =>
      rw [hk, hd] at h
      cases h
    | input | both =>
      rw [hk, hd] at h
      rcases except_bind_eq_error.mp h with h | ⟨v, -, h⟩
      · exact requestScalar_ne_bind hs.path kind h
      · cases h
  | array elem capacity =>
    cases hd : slot.direction with
    | output =>
      rw [hk, hd] at h
      cases h
    | input | both =>
      rw [hk, hd] at h
      rcases except_bind_eq_error.mp h with h | ⟨v, -, h⟩
      · exact requestArray_ne_bind hs.path elem capacity h
      · cases h

/-- Binds are made in the order of slots: a slot that copies an earlier one finds its bind. -/
theorem ofSlots_ne_bind : ∀ {slots : List Slot} {before : List (Bind σ)},
    (∀ s ∈ slots, s.Collectible) →
      (∀ (i : Nat) (slot : Slot) (j : Nat), slots[i]? = some slot → slot.source = .copyOf j →
        j < before.length + i) →
      ofSlots request before slots ≠ .error (.bind index fault)
  | [], _, _, _ => by simp [ofSlots]
  | slot :: rest, before, hs, hcopy => by
    rw [List.forall_mem_cons] at hs
    intro h
    rcases except_bind_eq_error.mp h with h | ⟨bind, -, h⟩
    · cases hsource : slot.source with
      | convert =>
        rw [ofSlot_convert hsource] at h
        exact converting_ne_bind hs.1 h
      | copyOf j =>
        have hlt : j < before.length := hcopy 0 slot j rfl hsource
        unfold ofSlot at h
        simp only [hsource, List.getElem?_eq_getElem hlt] at h
        cases hd : slot.direction <;> rw [hd] at h <;> cases h
    · refine ofSlots_ne_bind hs.2 (fun i s j hi hsource => ?_) h
      have hlt := hcopy (i + 1) s j hi hsource
      rw [List.length_append, List.length_singleton]
      omega

end Bind

end Refused

end StoredCall
