import StoredCall.Proofs.Stub.Declarations
import StoredCall.Proofs.Stub.SlotSources

/-!
# Placeholders and slots agree

A reader of a block's text, who knows nothing of how it was made, finds the placeholders `:1`, `:2`,
… up to the number of slots, each once and in this order. The names that a block is written with are
those of the subprogram, identifiers made for the block and fixed words; none of the last two holds
a colon, so it is enough that none of the first does.

* `Subprogram.names` lists the names of a subprogram, with those of its replacement.
* **`Subprogram.marksIn_of_lower`**: the placeholders that the text shows are the slots.
-/

namespace StoredCall

open Text

/-! ## Names without colons -/

/-- The names of a subprogram itself: package and name, those of arguments and their types, and the
exceptions it swallows. -/
def Subprogram.ownNames (f : Subprogram) : List String :=
  f.package :: f.name :: argumentNames (f.args ++ f.returns.toList) ++ f.handles

/-- The names of a subprogram and of what is called instead of it. -/
def Subprogram.names (f : Subprogram) : List String :=
  f.ownNames ++ f.replacement.toList.flatMap fun r => r.subprogram.ownNames

theorem Subprogram.colonFree_qualifiedName {f : Subprogram} (hp : ColonFree f.package)
    (hn : ColonFree f.name) : ColonFree f.qualifiedName := by
  unfold Subprogram.qualifiedName
  split
  · exact hn
  · rw [colonFree_append, colonFree_append]
    exact ⟨⟨hp, by decide⟩, hn⟩

theorem Scalar.name_of_kind_float {s : Scalar} (h : s.kind = .float) :
    s.name = "BINARY_FLOAT" ∨ s.name = "BINARY_DOUBLE" ∨ s.name = "FLOAT" := by
  unfold Scalar.kind at h
  split at h
  · cases h
  · split at h
    · split at h <;> cases h
    · exact Or.inl ‹_›
    · exact Or.inr (Or.inl ‹_›)
    · exact Or.inr (Or.inr ‹_›)
    all_goals first | cases h | (split at h <;> cases h)

theorem Scalar.colonFree_sized {name : String} (h : ColonFree name) (size : UInt32) :
    ColonFree (sized name size) := by
  unfold sized
  simp only [colonFree_append]
  exact ⟨⟨⟨h, by decide⟩, colonFree_toString _⟩, by decide⟩

theorem Scalar.colonFree_elementDecl (s : Scalar) : ColonFree s.elementDecl := by
  unfold elementDecl
  split
  · decide
  · decide
  · rename_i hk
    rcases s.name_of_kind_float hk with h | h | h <;> rw [h] <;> decide
  · decide
  · split <;> decide
  · decide
  · decide
  · exact colonFree_sized (by decide) _
  · refine colonFree_sized ?_ _
    split <;> decide

theorem colonFree_of_given {names : Names} (h : names.Reached) {package long name : String}
    (hg : names.given package long = some name) : ColonFree name := by
  intro hc
  exact absurd (h.isIdentChar_of_given hg hc) (by decide)

theorem Decl.name_mem_names (d : Decl) : d.name ∈ d.names := by
  cases d <;> exact List.mem_cons_self

/-- Declarations hold no colons, if the types of composites hold none. -/
theorem Decl.Known.colonFree {s : Setting} {columns : List (Path × Scalar)} {w : Work} {d : Decl}
    (h : d.Known s ColonFree columns w) (hall : ∀ d ∈ w.decls, d.Known s ColonFree columns w)
    (hw : w.names.Reached) : ∀ n ∈ d.names, ColonFree n := by
  have htype : ∀ k, ColonFree (typeIdent k) := fun k =>
    colonFree_append.mpr ⟨by decide, colonFree_toString k⟩
  cases d with
  | var x t =>
    rw [Decl.names, List.forall_mem_cons, List.forall_mem_singleton]
    rcases h with ⟨field, hx, ht⟩ | ⟨k, rfl, rfl⟩ | ⟨c, -, hx, ht⟩
    · exact ⟨colonFree_of_given hw hx, ht⟩
    · exact ⟨colonFree_append.mpr ⟨by decide, colonFree_toString k⟩, by decide⟩
    · obtain ⟨⟨k, -, rfl⟩, -⟩ := hall _ ht
      exact ⟨colonFree_of_given hw hx, htype k⟩
  | arrayType t elem =>
    rw [Decl.names, List.forall_mem_cons, List.forall_mem_singleton]
    obtain ⟨⟨k, -, rfl⟩, c, -, rfl⟩ := h
    exact ⟨htype k, c.2.colonFree_elementDecl⟩

/-! ## Blocks and their slots -/

/-- The placeholders of a block are its slots, and no name of the block hides or feigns one. -/
structure Agrees (b : Block) (slots : List Slot) : Prop where
  names : ∀ n ∈ b.names, ColonFree n
  marks : b.placeholders = List.range' 1 slots.length
  positions : ∀ {i : Nat} {slot : Slot}, slots[i]? = some slot → slot.position = i + 1

namespace Subprogram

variable {f : Subprogram} {capacity : Nat} {names names' : Names} {b : Block} {slots : List Slot}

theorem colonFree_callNames (h : ∀ n ∈ f.ownNames, ColonFree n) :
    ∀ n ∈ f.callNames, ColonFree n := by
  simp only [ownNames, List.cons_append, List.forall_mem_cons, List.forall_mem_append] at h
  simp only [callNames, List.cons_append, List.forall_mem_cons, List.forall_mem_append]
  exact ⟨colonFree_qualifiedName h.1 h.2.1, h.2.2.1, h.2.2.2⟩

/-- A subprogram that is called itself. -/
theorem agrees_of_lower_direct (hr : f.replacement = none) (hw : names.Reached)
    (hn : ∀ n ∈ f.ownNames, ColonFree n)
    (h : (f.lower capacity).run names = (.ok (b, slots), names')) : Agrees b slots := by
  obtain ⟨loops, he⟩ := lower_run hr h (colonFree_callNames hn)
  have hslots : slots = addSlots (f.arrayCapacity capacity) [] f.wires := he.slots
  have hknown := he.grows.known rfl hw
  have hdecls : ∀ n ∈ b.decls.flatMap Decl.names, ColonFree n := by
    intro n hm
    obtain ⟨d, hd, hm⟩ := List.mem_flatMap.mp hm
    exact (hknown d hd).colonFree hknown (he.grows.reached hw) n hm
  refine ⟨?_, ?_, ?_⟩
  · refine List.forall_mem_append.mpr ⟨hdecls, fun n hm => (he.names n hm).elim id fun hdecl => ?_⟩
    obtain ⟨d, hd, rfl⟩ := List.mem_map.mp hdecl
    exact hdecls d.name (List.mem_flatMap.mpr ⟨d, hd, d.name_mem_names⟩)
  · have hlen : slots.length = f.wires.length := by
      rw [hslots, length_addSlots, List.length_nil, Nat.zero_add]
    rw [hlen]
    exact he.marks
  · intro i slot hi
    rw [hslots] at hi
    exact position_of_addSlots hi

end Subprogram

/-! ## Replacements -/

/-- Placeholders that count on from a number. -/
theorem placeholders_counted (args : List Argument) (k : Nat) :
    ((args.zipIdx.map fun x => (x.1.name, Expr.placeholder (k + x.2))).map Prod.snd).flatMap
      Expr.placeholders = List.range' k args.length := by
  rw [List.map_map, List.flatMap_map]
  calc args.zipIdx.flatMap (fun x => [k + x.2])
      = (args.zipIdx.map Prod.snd).map (k + ·) := by rw [List.map_map, List.map_eq_flatMap]; rfl
    _ = List.range' k args.length := by rw [List.zipIdx_map_snd, List.map_add_range', Nat.add_zero]

/-- The placeholders of a call with documents: one for the return value, then one to each
argument. -/
theorem placeholders_documentCall (g : Subprogram) :
    (documentCall g).placeholders = List.range' 1 (g.returns.toList.length + g.args.length) := by
  unfold documentCall
  rw [Stmt.placeholders_call, List.flatMap_append]
  have hargs := placeholders_counted g.args (g.returns.toList.length + 1)
  rw [hargs]
  cases g.returns with
  | none => simp
  | some ret =>
    show 1 :: List.range' 2 g.args.length = List.range' 1 (1 + g.args.length)
    rw [Nat.add_comm, List.range'_succ]

theorem names_documentCall {g : Subprogram} (h : ∀ n ∈ g.ownNames, ColonFree n) :
    ∀ n ∈ (documentCall g).names, ColonFree n := by
  simp only [Subprogram.ownNames, List.cons_append, List.forall_mem_cons,
    List.forall_mem_append] at h
  obtain ⟨hp, hname, hargs, -⟩ := h
  refine Stmt.forall_mem_names_call (Subprogram.colonFree_qualifiedName hp hname) ?_ ?_
  · intro n hn
    simp only [List.map_map, List.mem_map, Function.comp] at hn
    obtain ⟨x, hx, rfl⟩ := hn
    have hmem : x.1 ∈ g.args := (List.mem_zipIdx' hx).2 ▸ List.getElem_mem _
    exact hargs _ (mem_argumentNames.mpr ⟨x.1, List.mem_append_left _ hmem, x.1.name_mem_names⟩)
  · intro n hn
    obtain ⟨e, he, hn⟩ := List.mem_flatMap.mp hn
    have hnone : e.names = [] := by
      rcases List.mem_append.mp he with he | he
      · obtain ⟨_, _, rfl⟩ := Option.map_eq_some_iff.mp (Option.mem_toList.mp he)
        rfl
      · simp only [List.map_map, List.mem_map, Function.comp] at he
        obtain ⟨x, -, rfl⟩ := he
        rfl
    rw [hnone] at hn
    exact absurd hn List.not_mem_nil

theorem position_of_documentSlots {format : BlobFormat} {directions : List Direction} {i : Nat}
    {slot : Slot} (h : (documentSlots format directions)[i]? = some slot) :
    slot.position = i + 1 := by
  unfold documentSlots at h
  rw [List.getElem?_map, Option.map_eq_some_iff] at h
  obtain ⟨x, hx, rfl⟩ := h
  rw [List.getElem?_zipIdx, Option.map_eq_some_iff] at hx
  obtain ⟨d, -, rfl⟩ := hx
  simp

/-- A replacement that is called with documents. -/
theorem agrees_of_lowerReplacement {label : String} {handles : List String} {r : Replacement}
    {b : Block} {slots : List Slot} (h : lowerReplacement label handles r = .ok (b, slots))
    (hn : ∀ n ∈ r.subprogram.ownNames, ColonFree n) (hx : ∀ n ∈ handles, ColonFree n) :
    Agrees b slots := by
  obtain ⟨rfl, rfl⟩ := lowerReplacement_eq_ok h
  refine ⟨?_, ?_, position_of_documentSlots⟩
  · intro n hm
    have hm : n ∈ (guardCall handles (documentCall r.subprogram)).names := by
      simpa [Block.names, namesAll] using hm
    exact (mem_guardCall_names hm).elim (names_documentCall hn n) (hx n)
  · have hlen : ∀ directions, (documentSlots r.format directions).length = directions.length := by
      intro directions
      unfold documentSlots
      rw [List.length_map, List.length_zipIdx]
    rw [hlen, List.length_append, List.length_map, List.length_map]
    simp only [Block.placeholders, placeholdersAll, List.append_nil]
    rw [guardCall_placeholders, placeholders_documentCall]

/-! ## All subprograms -/

namespace Subprogram

variable {f : Subprogram} {capacity : Nat} {names names' : Names} {b : Block} {slots : List Slot}

/-- **A reader of the block's text finds the slots**: the numbers after colons are `1`, `2`, … up to
the number of slots, in this order, and each slot has its place in the list as its position. -/
theorem marksIn_of_lower (hw : names.Reached) (hn : ∀ n ∈ f.names, ColonFree n)
    (h : (f.lower capacity).run names = (.ok (b, slots), names')) :
    marksIn b.text = (List.range' 1 slots.length).map digitsOf ∧
      ∀ (i : Nat) (slot : Slot), slots[i]? = some slot → slot.position = i + 1 := by
  have hagrees : Agrees b slots := by
    rw [Subprogram.names, List.forall_mem_append] at hn
    cases hr : f.replacement with
    | none => exact agrees_of_lower_direct hr hw hn.1 h
    | some r =>
      refine agrees_of_lowerReplacement (lower_run_replacement hr h) (fun n hm => ?_) fun n hm => ?_
      · exact hn.2 n (by simpa [hr] using hm)
      · exact hn.1 n (List.mem_append_right _ hm)
  refine ⟨?_, fun i slot => hagrees.positions⟩
  rw [Block.marksIn_text hagrees.names, hagrees.marks]

theorem settle_marksIn : (∀ n ∈ settle.names, ColonFree n) ∧ ∃ b slots names',
    (settle.lower 100).run ((Names.ident [] "BILLING" "v_ret").2) = (.ok (b, slots), names') ∧
      slots.length = 8 ∧ marksIn b.text = (List.range' 1 8).map digitsOf := by
  have hn : ∀ n ∈ settle.names, ColonFree n := by decide +kernel
  have hw : (Names.ident [] "BILLING" "v_ret").2.Reached := .ident .start _ _
  have hlen : ((settle.lower 100).run ((Names.ident [] "BILLING" "v_ret").2)).1.map
      (fun r => r.2.length) = .ok 8 := by
    decide +kernel
  rcases hrun : (settle.lower 100).run ((Names.ident [] "BILLING" "v_ret").2)
    with ⟨_ | ⟨b, slots⟩, names'⟩
  · rw [hrun] at hlen
    cases hlen
  · rw [hrun] at hlen
    have hlen : slots.length = 8 := Except.ok.inj hlen
    refine ⟨hn, b, slots, names', rfl, hlen, ?_⟩
    rw [← hlen]
    exact (marksIn_of_lower hw hn hrun).1

end Subprogram

end StoredCall
