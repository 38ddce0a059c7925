import StoredCall.Call
import StoredCall.Proofs.Call.Writes
import StoredCall.Proofs.Path.Text
import StoredCall.Proofs.Program

/-!
# What collecting outputs does

The outputs of a call are taken over one by one. Each of them does one thing to the response: it
writes a value or a column at the path of its slot, or it leaves a cursor there.

* `Effect` is what is done, `Plan.Yields` says which effect belongs to a bind and its slot.
* `Plan.yields_of_collectSlot`: one step has one such effect.
* `Plan.effects_of_collectOutputs`: hence a run has one for each output, in order.
* `Plan.steps_of_invoke`: a call that succeeds has made its binds, run its block and collected.
-/

namespace StoredCall

variable {σ ω : Type}

/-! ## Binds as a database left them -/

namespace Bind

/-- The stream in a bind. -/
def stream (b : Bind σ) : Option (Stream σ) := b.takeStream.1

/-- The elements in a bind, no more than its capacity. -/
def elements (b : Bind σ) : List Value :=
  match b.capacity with
  | some capacity => b.value.items.take capacity
  | none => b.value.items

theorem takeStream_eq (b : Bind σ) : ∃ rest : Bind σ, b.takeStream = (b.stream, rest) ∧
    rest.value = b.value := by
  cases b <;> exact ⟨_, rfl, rfl⟩

end Bind

/-! ## Effects -/

/-- What collecting an output does to a response. -/
inductive Effect (σ : Type) where
  | write (w : Write)
  | opened (path : Path) (cursor : Cursor σ)

namespace Effect

/-- Where an effect is. -/
def path : Effect σ → Path
  | .write w => w.path
  | .opened path _ => path

/-- The response after an effect. -/
def apply (r : Response σ) : Effect σ → Response σ
  | .write w => { r with value := w.apply r.value }
  | .opened path cursor => { r with cursors := r.cursors ++ [(path.text, cursor)] }

/-- What an effect writes. -/
def write? : Effect σ → Option Write
  | .write w => some w
  | .opened .. => none

/-- The cursor that an effect leaves. -/
def cursor? : Effect σ → Option (String × Cursor σ)
  | .write _ => none
  | .opened path cursor => some (path.text, cursor)

theorem path_of_write? {e : Effect σ} {w : Write} (h : e.write? = some w) : w.path = e.path := by
  cases e with
  | write w' => rw [← Option.some.inj h]; rfl
  | opened path cursor => cases h

theorem value_foldl : ∀ (es : List (Effect σ)) (r : Response σ),
    (es.foldl apply r).value = (es.filterMap write?).foldl Write.apply r.value
  | [], _ => rfl
  | .write _ :: es, _ => value_foldl es _
  | .opened .. :: es, _ => value_foldl es _

theorem cursors_foldl : ∀ (es : List (Effect σ)) (r : Response σ),
    (es.foldl apply r).cursors = r.cursors ++ es.filterMap cursor?
  | [], r => (List.append_nil _).symm
  | .write _ :: es, _ => cursors_foldl es _
  | .opened .. :: es, r => by
    rw [List.foldl_cons, cursors_foldl es]
    exact List.append_assoc _ _ _

/-- At the text of a path there is the cursor of the effect there, and no other. -/
theorem filter_cursors {es : List (Effect σ)} {e : Effect σ} (he : e ∈ es)
    (hread : ∀ e ∈ es, e.path.Readable)
    (hes : es.Pairwise fun a b => Path.Apart a.path b.path) :
    (es.filterMap cursor?).filter (fun c => c.1 = e.path.text) = e.cursor?.toList := by
  have hnone : ∀ l : List (Effect σ), (∀ a ∈ l, a.path.text ≠ e.path.text) →
      (l.filterMap cursor?).filter (fun c => c.1 = e.path.text) = [] := by
    intro l hl
    refine List.filter_eq_nil_iff.mpr fun c hc => ?_
    obtain ⟨a, ha, hac⟩ := List.mem_filterMap.mp hc
    cases a with
    | write w => cases hac
    | opened path cursor =>
      rw [← Option.some.inj hac, decide_eq_true_eq]
      exact hl _ ha
  have hne : ∀ a ∈ es, Path.Apart a.path e.path → a.path.text ≠ e.path.text := fun a ha h hc =>
    h.ne (Path.text_injective (hread a ha) (hread e he) hc)
  obtain ⟨before, after, rfl⟩ := List.append_of_mem he
  obtain ⟨-, hafter, hbefore⟩ := List.pairwise_append.mp hes
  have h₁ := hnone before fun a ha =>
    hne a (List.mem_append_left _ ha) (hbefore a ha e List.mem_cons_self)
  have h₂ := hnone after fun a ha =>
    hne a (List.mem_append_right _ (List.mem_cons_of_mem _ ha))
      ((List.pairwise_cons.mp hafter).1 a ha).symm
  rw [List.filterMap_append, List.filter_append, h₁, List.nil_append]
  cases e with
  | write w => exact h₂
  | opened path cursor =>
    show List.filter _ ((path.text, cursor) :: after.filterMap cursor?) = [(path.text, cursor)]
    rw [List.filter_cons_of_pos (by simp [Effect.path])]
    exact congrArg _ h₂

end Effect

/-! ## One output -/

/-- Paths begin with a field and can be read back, and arrays are columns of tables while all else
is at a path of fields. -/
structure Slot.Collectible (slot : Slot) : Prop where
  path : slot.path.Readable
  rooted : ∃ (name : String) (rest : Path), slot.path = .field name :: rest
  columns : ∀ {columns : List Column}, slot.kind = .cursor columns →
    ∀ c ∈ columns, c.path.Readable
  place : match slot.kind with
    | .array .. => slot.path.IsColumn
    | .scalar _ | .cursor _ => .each ∉ slot.path
    | .document _ => False

theorem readPath_text {p : Path} (hp : p.Readable) : readPath p.text = .ok p := by
  rw [readPath, Path.parse_text hp]
  rfl

theorem readColumns_text : ∀ {columns : List Column}, (∀ c ∈ columns, c.path.Readable) →
    Response.readColumns (columns.map fun c => (c.path.text, c.kind)) =
      .ok (columns.map fun c => (c.path, c.kind))
  | [], _ => rfl
  | c :: rest, h => by
    rw [List.forall_mem_cons] at h
    rw [List.map_cons, Response.readColumns, readPath_text h.1, readColumns_text h.2]
    rfl

/-- Values are brought to a kind one by one. -/
theorem coerceAll_eq_ok_iff {kind : Kind} {path : String} : ∀ {vs cs : List Value},
    coerceAll kind path vs = .ok cs ↔ List.Forall₂ (fun v c => v.coerce kind path = .ok c) vs cs
  | [], cs => by simp [coerceAll, eq_comm]
  | v :: vs, cs => by
    rw [coerceAll, except_bind_eq_ok, List.forall₂_cons_left_iff]
    constructor
    · rintro ⟨c, hc, h⟩
      obtain ⟨more, hm, h⟩ := except_bind_eq_ok.mp h
      exact ⟨c, more, hc, coerceAll_eq_ok_iff.mp hm, (Except.ok.inj h).symm⟩
    · rintro ⟨c, more, hc, hm, rfl⟩
      exact ⟨c, hc, except_bind_eq_ok.mpr ⟨more, coerceAll_eq_ok_iff.mpr hm, rfl⟩⟩

theorem put_text {r r' : Response σ} {p : Path} {v : Value} (hp : p.Readable)
    (h : r.put p.text v = .ok r') : r' = (Effect.write (.put p v)).apply r := by
  rw [Response.put, readPath_text hp] at h
  exact (Except.ok.inj h).symm

namespace Plan

/-- The effect that belongs to a bind and its slot. -/
inductive Yields (p : Plan) (bind : Bind σ) (slot : Slot) : Effect σ → Prop
  | scalar {kind : Kind} {v : Value} (hk : slot.kind = .scalar kind) (hl : kind.isLob = false)
    (hv : bind.value.coerce kind slot.path.text = .ok v) :
    Yields p bind slot (.write (.put slot.path v))
  | lob {kind : Kind} (hk : slot.kind = .scalar kind) (hl : kind.isLob = true) (v : Value) :
    Yields p bind slot (.write (.put slot.path v))
  | array {elem : Kind} {capacity : Nat} {cells : List Value}
    (hk : slot.kind = .array elem capacity)
    (hc : List.Forall₂ (fun v c => v.coerce elem slot.path.text = .ok c) bind.elements cells) :
    Yields p bind slot (.write (.column slot.path cells))
  | cursor {columns : List Column} {source : σ} (hk : slot.kind = .cursor columns)
    (hs : bind.stream = some (.cursor source)) :
    Yields p bind slot (.opened slot.path
      (.start source (columns.map fun c => (c.path, c.kind)) p.cursorBatchSize))
  | noRows {columns : List Column} (hk : slot.kind = .cursor columns) (hs : bind.stream = none)
    (hv : bind.value.isNull = true) : Yields p bind slot (.write (.put slot.path (.list [])))

variable {p : Plan} {bind : Bind σ} {slot : Slot} {e : Effect σ} {r r' : Response σ}

theorem Yields.path_eq (h : p.Yields bind slot e) : e.path = slot.path := by
  cases h <;> rfl

/-- What was left for a scalar is put at its path. -/
theorem Yields.of_scalar {kind : Kind} (h : p.Yields bind slot e) (hk : slot.kind = .scalar kind)
    (hl : kind.isLob = false) : ∃ v, bind.value.coerce kind slot.path.text = .ok v ∧
      e = .write (.put slot.path v) := by
  cases h with
  | scalar hk' _ hv =>
    cases hk.symm.trans hk'
    exact ⟨_, hv, rfl⟩
  | lob hk' hl' =>
    cases hk.symm.trans hk'
    rw [hl] at hl'
    cases hl'
  | array hk' | cursor hk' | noRows hk' => cases hk.symm.trans hk'

/-- What was left for an array is written as a column. -/
theorem Yields.of_array {elem : Kind} {capacity : Nat} (h : p.Yields bind slot e)
    (hk : slot.kind = .array elem capacity) : ∃ cells,
      List.Forall₂ (fun v c => v.coerce elem slot.path.text = .ok c) bind.elements cells ∧
        e = .write (.column slot.path cells) := by
  cases h with
  | array hk' hc =>
    cases hk.symm.trans hk'
    exact ⟨_, hc, rfl⟩
  | scalar hk' | lob hk' | cursor hk' | noRows hk' => cases hk.symm.trans hk'

/-- What was left for a cursor is left open, or is an empty list. -/
theorem Yields.of_cursor {columns : List Column} (h : p.Yields bind slot e)
    (hk : slot.kind = .cursor columns) :
    (∃ source, bind.stream = some (.cursor source) ∧ e = .opened slot.path
        (.start source (columns.map fun c => (c.path, c.kind)) p.cursorBatchSize)) ∨
      bind.stream = none ∧ bind.value.isNull = true ∧ e = .write (.put slot.path (.list [])) := by
  cases h with
  | cursor hk' hs =>
    cases hk.symm.trans hk'
    exact Or.inl ⟨_, hs, rfl⟩
  | noRows hk' hs hv => exact Or.inr ⟨hs, hv, rfl⟩
  | scalar hk' | lob hk' | array hk' => cases hk.symm.trans hk'

/-- A cursor is left open by a slot for a cursor. -/
theorem Yields.of_opened {c : String × Cursor σ} (h : p.Yields bind slot e)
    (hc : e.cursor? = some c) : ∃ columns, slot.kind = .cursor columns ∧ c.1 = slot.path.text := by
  cases h with
  | cursor hk =>
    rw [← Option.some.inj hc]
    exact ⟨_, hk, rfl⟩
  | scalar | lob | array | noRows => cases hc

theorem Yields.fits (h : p.Yields bind slot e) (hs : slot.Collectible) {w : Write}
    (hw : e.write? = some w) : w.Fits := by
  have hplace := hs.place
  cases h with
  | scalar hk | lob hk | array hk | noRows hk =>
    rw [hk] at hplace
    rw [← Option.some.inj hw]
    exact hplace
  | cursor hk => cases hw

theorem items_of_arrayItems {path : String} {v : Value} {items : List Value}
    (h : Response.arrayItems path v = .ok items) : v.items = items := by
  cases v <;> first | exact Except.ok.inj h | cases h

/-- The array of a bind is written as a column. -/
theorem yields_of_collectArray {elem : Kind} {capacity : Nat} (hp : slot.path.Readable)
    (hk : slot.kind = .array elem capacity)
    (h : r.collectArray bind slot.path.text elem = .ok r') :
    ∃ e, p.Yields bind slot e ∧ r' = e.apply r := by
  obtain ⟨items, hitems, h⟩ := except_bind_eq_ok.mp h
  obtain ⟨cells, hcells, h⟩ := except_bind_eq_ok.mp h
  have hcells : coerceAll elem slot.path.text bind.elements = .ok cells := by
    rw [← hcells, ← items_of_arrayItems hitems]
    unfold Bind.elements
    cases bind.capacity <;> rfl
  rw [readPath_text hp] at h
  exact ⟨_, .array hk (coerceAll_eq_ok_iff.mp hcells), (Except.ok.inj h).symm⟩

/-- The cursor of a bind is left open, or there is none and its rows are. -/
theorem yields_of_collectCursor {columns : List Column} (hs : slot.Collectible)
    (hk : slot.kind = .cursor columns)
    (h : (r.collectCursor bind slot.path.text (columns.map fun c => (c.path.text, c.kind))
      p.cursorBatchSize).1 = .ok r') :
    ∃ e, p.Yields bind slot e ∧ r' = e.apply r := by
  obtain ⟨rest, hrest, hvalue⟩ := bind.takeStream_eq
  rw [Response.collectCursor, readColumns_text (hs.columns hk), hrest] at h
  rcases hstream : bind.stream with _ | source | bytes
  · simp only [hstream] at h
    split at h
    · rename_i hnull
      rw [hvalue] at hnull
      exact ⟨_, .noRows hk hstream hnull, put_text hs.path h⟩
    · cases h
  · rw [hstream] at h
    exact ⟨_, .cursor hk hstream, (Except.ok.inj h).symm⟩
  · rw [hstream] at h
    cases h

/-- **Collecting an output has one effect.** -/
theorem yields_of_collectSlot (hs : slot.Collectible) (h : p.collectSlot r bind slot = .ok r') :
    ∃ e, p.Yields bind slot e ∧ r' = e.apply r := by
  unfold collectSlot at h
  have hplace := hs.place
  cases hk : slot.kind with
  | scalar kind =>
    simp only [hk] at h
    cases hl : kind.isLob with
    | true =>
      rw [if_pos hl] at h
      obtain ⟨v, -, h⟩ := except_bind_eq_ok.mp h
      exact ⟨_, .lob hk hl v, put_text hs.path h⟩
    | false =>
      rw [if_neg (by simp [hl])] at h
      obtain ⟨v, hv, h⟩ := except_bind_eq_ok.mp h
      exact ⟨_, .scalar hk hl hv, put_text hs.path h⟩
  | array elem capacity =>
    simp only [hk] at h
    exact yields_of_collectArray hs.path hk h
  | cursor columns =>
    simp only [hk] at h
    exact yields_of_collectCursor hs hk h
  | document format =>
    rw [hk] at hplace
    exact hplace.elim

/-! ## All outputs -/

/-- The binds of outputs, with their slots. -/
def outputPairs (p : Plan) (binds : List (Bind σ)) : List (Bind σ × Slot) :=
  (binds.zip p.slots).filter fun x => x.2.direction.isOutput

/-- **Collecting outputs has one effect for each of them**, in order. -/
theorem effects_of_collectOutputs : ∀ {pairs : List (Bind σ × Slot)} {r r' : Response σ},
    (∀ x ∈ pairs, x.2.direction.isOutput = true → x.2.Collectible) →
      p.collectOutputs r pairs = .ok r' →
      ∃ es, List.Forall₂ (fun x e => p.Yields x.1 x.2 e)
        (pairs.filter fun x => x.2.direction.isOutput) es ∧ r' = es.foldl Effect.apply r
  | [], r, _, _, h => ⟨[], .nil, (Except.ok.inj h).symm⟩
  | (bind, slot) :: rest, r, r', hs, h => by
    rw [List.forall_mem_cons] at hs
    rw [collectOutputs] at h
    split at h
    · rename_i hout
      obtain ⟨r₁, hslot, h⟩ := except_bind_eq_ok.mp h
      obtain ⟨e, he, rfl⟩ := yields_of_collectSlot (hs.1 hout) hslot
      obtain ⟨es, hes, rfl⟩ := effects_of_collectOutputs hs.2 h
      rw [List.filter_cons, if_pos hout]
      exact ⟨e :: es, .cons he hes, rfl⟩
    · rename_i hout
      rw [List.filter_cons, if_neg hout]
      exact effects_of_collectOutputs hs.2 h

/-! ## Calls -/

/-- **A call that succeeds has made its binds, run its block and collected the outputs.** -/
theorem steps_of_invoke {exec : Executor ω σ} {request : Value} {o : CallOptions} {w w' : ω}
    (h : (p.invoke exec request o).run w = (.ok r, w')) :
    ∃ binds writes, Bind.ofSlots request [] p.slots = .ok binds ∧
      exec.execute p.block binds o.deadline.isSome w = (.ok writes, w') ∧
      p.collectOutputs {} ((binds.mapIdx (written writes)).zip p.slots) = .ok r := by
  have hcall : Gives (p.invoke exec request o) w r w' := h
  obtain ⟨_, w₁, hcheck, hrest⟩ := gives_bind.mp hcall
  obtain ⟨binds, w₂, hbinds, hrest⟩ := gives_bind.mp hrest
  obtain ⟨writes, w₃, hexec, hrest⟩ := gives_bind.mp hrest
  obtain ⟨-, hw₁⟩ := gives_ofExcept.mp hcheck
  obtain ⟨hmade, hw₂⟩ := gives_ofExcept.mp hbinds
  obtain ⟨hcollect, hw₃⟩ := gives_ofExcept.mp hrest
  subst hw₃ hw₂ hw₁
  exact ⟨binds, writes, hmade, hexec, hcollect⟩

end Plan

end StoredCall
