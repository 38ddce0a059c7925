import StoredCall.Proofs.Stub.Wires

/-!
# Wires part

The entries of a call, its arguments and its return value, go by pairwise different names, and the
scalars of one entry have paths that part. So two wires of a call have paths that part, with one
exception: a scalar inside a composite that goes in and comes out has two wires.

* `Subprogram.inOutLeaves` lists the scalars inside composites that go in and come out.
* `Subprogram.wires_pairwise`: two wires part, or are the two wires of such a scalar.
-/

namespace StoredCall

open Text

/-! ## Entries -/

theorem Direction.eq_both {d : Direction} (hi : d.isInput = true) (ho : d.isOutput = true) :
    d = .both := by
  cases d <;> simp_all [Direction.isInput, Direction.isOutput]

namespace Subprogram

variable {f : Subprogram} {e e' : String × Argument}

theorem nodup_entries (f : Subprogram) : (f.entries.map Prod.fst).Nodup := by
  unfold entries
  rw [List.map_fst_zip (by rw [length_argFields])]
  exact f.nodup_argFields

/-- Arguments with one field name are one argument. -/
theorem entries_inj (h : e ∈ f.entries) (h' : e' ∈ f.entries) (he : e.1 = e'.1) : e = e' :=
  List.inj_on_of_nodup_map f.nodup_entries h h' he

theorem returnEntries_eq (f : Subprogram) : f.returnEntries =
    f.returns.toList.map fun ret => (freshName f.argFields returnField, ret) := by
  unfold returnEntries retField
  cases f.returns <;> rfl

theorem nodup_returnEntries (f : Subprogram) : (f.returnEntries.map Prod.fst).Nodup := by
  rw [returnEntries_eq]
  cases f.returns <;> simp

theorem returnEntries_inj (h : e ∈ f.returnEntries) (h' : e' ∈ f.returnEntries) : e = e' := by
  rw [returnEntries_eq] at h h'
  cases hr : f.returns <;> simp_all

/-- The return value does not go by the name of an argument. -/
theorem entry_ne_return (h : e ∈ f.entries) (h' : e' ∈ f.returnEntries) : e.1 ≠ e'.1 := by
  intro he
  have hret : f.retField = some e'.1 := Option.mem_toList.mp (List.of_mem_zip h').1
  exact retField_notMem hret (he ▸ (List.of_mem_zip h).1)

/-- The scalars inside composites that go in and come out, with their paths. -/
def inOutLeaves (f : Subprogram) : List (Path × Scalar) :=
  f.entries.flatMap fun e =>
    if e.2.shape.isComposite && e.2.direction = .both then e.2.scalars [.field e.1] else []

end Subprogram

/-! ## Wires of entries -/

section Rooted

variable {g g' : String × Argument → List Wire} {es es' : List (String × Argument)}
  {R : Wire → Wire → Prop}

/-- The wires that an entry has are below its name. -/
def Rooted (g : String × Argument → List Wire) : Prop :=
  ∀ e, ∀ wire ∈ g e, ∃ q, wire.path = .field e.1 :: q

theorem rooted_leafWires (direction : Direction) : Rooted (leafWires direction) := by
  intro e wire h
  unfold leafWires at h
  split at h
  · obtain ⟨x, hx, rfl⟩ := List.mem_map.mp h
    obtain ⟨q, hq⟩ := Argument.exists_of_mem_scalars hx
    exact ⟨q, hq⟩
  · exact absurd h List.not_mem_nil

theorem rooted_directWires (direction : Direction) : Rooted (directWires direction) := by
  intro e wire h
  unfold directWires at h
  split at h
  · exact ⟨[], by rw [List.mem_singleton.mp h]⟩
  · exact ⟨[], by rw [List.mem_singleton.mp h]⟩
  · exact absurd h List.not_mem_nil
  · exact absurd h List.not_mem_nil

/-- Wires of entries with different names part. -/
theorem Rooted.apart (hg : Rooted g) (hg' : Rooted g') {e e' : String × Argument}
    (hne : e.1 ≠ e'.1) {u v : Wire} (hu : u ∈ g e) (hv : v ∈ g' e') :
    Path.Apart u.path v.path := by
  obtain ⟨p, hp⟩ := hg e u hu
  obtain ⟨q, hq⟩ := hg' e' v hv
  rw [hp, hq]
  exact Or.inl hne

/-- Two stages: only the wires of entries with one name are to be compared. -/
theorem Rooted.across (hg : Rooted g) (hg' : Rooted g')
    (hR : ∀ u v : Wire, Path.Apart u.path v.path → R u v)
    (h : ∀ e ∈ es, ∀ e' ∈ es', e.1 = e'.1 → ∀ u ∈ g e, ∀ v ∈ g' e', R u v) :
    ∀ u ∈ es.flatMap g, ∀ v ∈ es'.flatMap g', R u v := by
  intro u hu v hv
  obtain ⟨e, he, hu⟩ := List.mem_flatMap.mp hu
  obtain ⟨e', he', hv⟩ := List.mem_flatMap.mp hv
  by_cases hne : e.1 = e'.1
  · exact h e he e' he' hne u hu v hv
  · exact hR u v (hg.apart hg' hne hu hv)

/-- One stage: only the wires of one entry are to be compared. -/
theorem Rooted.pairwise (hg : Rooted g) (hR : ∀ u v : Wire, Path.Apart u.path v.path → R u v)
    (hn : (es.map Prod.fst).Nodup) (h : ∀ e ∈ es, (g e).Pairwise R) :
    (es.flatMap g).Pairwise R := by
  refine List.pairwise_flatMap.mpr ⟨h, ?_⟩
  exact (List.pairwise_map.mp hn).imp fun hne u hu v hv => hR u v (hg.apart hg hne hu hv)

theorem rooted_fillWires : Rooted fillWires := by
  intro e wire h
  unfold fillWires at h
  split at h
  · exact rooted_leafWires .input e wire h
  · exact absurd h List.not_mem_nil

theorem rooted_readWires : Rooted readWires := by
  intro e wire h
  unfold readWires at h
  split at h
  · exact rooted_leafWires .output e wire h
  · exact absurd h List.not_mem_nil

end Rooted

theorem mem_leafWires {direction : Direction} {e : String × Argument} {wire : Wire} :
    wire ∈ leafWires direction e ↔ e.2.shape.isComposite = true ∧
      ∃ x ∈ e.2.scalars [.field e.1], scalarWire direction x = wire := by
  unfold leafWires
  split
  · rename_i hc
    rw [List.mem_map]
    exact (and_iff_right hc).symm
  · rename_i hc
    simp [hc]

theorem leafWires_pairwise (direction : Direction) (e : String × Argument) :
    (leafWires direction e).Pairwise fun u v => Path.Apart u.path v.path := by
  unfold leafWires
  split
  · exact List.pairwise_map.mpr (Argument.scalars_pairwise _ e.2)
  · exact List.Pairwise.nil

theorem fillWires_pairwise (e : String × Argument) :
    (fillWires e).Pairwise fun u v => Path.Apart u.path v.path := by
  unfold fillWires
  split
  · exact leafWires_pairwise .input e
  · exact List.Pairwise.nil

theorem readWires_pairwise (e : String × Argument) :
    (readWires e).Pairwise fun u v => Path.Apart u.path v.path := by
  unfold readWires
  split
  · exact leafWires_pairwise .output e
  · exact List.Pairwise.nil

theorem directWires_pairwise (direction : Direction) (e : String × Argument) :
    (directWires direction e).Pairwise fun u v => Path.Apart u.path v.path := by
  unfold directWires
  split
  · exact List.pairwise_singleton _ _
  · exact List.pairwise_singleton _ _
  · exact List.Pairwise.nil
  · exact List.Pairwise.nil

theorem mem_fillWires {e : String × Argument} {wire : Wire} :
    wire ∈ fillWires e ↔ e.2.direction.isInput = true ∧ wire ∈ leafWires .input e := by
  unfold fillWires
  split <;> simp_all

theorem mem_readWires {e : String × Argument} {wire : Wire} :
    wire ∈ readWires e ↔ e.2.direction.isOutput = true ∧ wire ∈ leafWires .output e := by
  unfold readWires
  split <;> simp_all

/-- An entry goes through a local or stands in the call, not both. -/
theorem not_mem_directWires {e : String × Argument} {d d' : Direction} {u v : Wire}
    (hu : u ∈ leafWires d e) : v ∉ directWires d' e := by
  intro hv
  have hc := (mem_leafWires.mp hu).1
  unfold directWires at hv
  split at hv
  · rename_i hs
    rw [hs] at hc
    cases hc
  · rename_i hs
    rw [hs] at hc
    cases hc
  · exact absurd hv List.not_mem_nil
  · exact absurd hv List.not_mem_nil

/-! ## All wires of a call -/

namespace Subprogram

variable {f : Subprogram}

/-- Each wire is one of an argument or of the return value. -/
theorem source_of_mem_wires {wire : Wire} (h : wire ∈ f.wires) :
    ∃ (e : String × Argument) (direction : Direction), (e ∈ f.entries ∨ e ∈ f.returnEntries) ∧
      (wire ∈ leafWires direction e ∨ wire ∈ directWires direction e) := by
  unfold wires at h
  simp only [List.mem_append, List.mem_flatMap] at h
  rcases h with (((⟨e, he, h⟩ | ⟨e, he, h⟩) | ⟨e, he, h⟩) | ⟨e, he, h⟩) | ⟨e, he, h⟩
  · exact ⟨e, _, Or.inl he, Or.inl (mem_fillWires.mp h).2⟩
  · exact ⟨e, _, Or.inr he, Or.inr h⟩
  · exact ⟨e, _, Or.inl he, Or.inr h⟩
  · exact ⟨e, _, Or.inl he, Or.inl (mem_readWires.mp h).2⟩
  · exact ⟨e, _, Or.inr he, Or.inl h⟩

/-- The path of a wire begins with a field. -/
theorem rooted_of_mem_wires {wire : Wire} (h : wire ∈ f.wires) :
    ∃ (name : String) (rest : Path), wire.path = .field name :: rest := by
  obtain ⟨e, direction, -, hw⟩ := source_of_mem_wires h
  rcases hw with hw | hw
  · exact ⟨e.1, rooted_leafWires direction e wire hw⟩
  · exact ⟨e.1, rooted_directWires direction e wire hw⟩

/-- The two wires of a scalar that goes in and comes out. -/
def Twins (f : Subprogram) (u v : Wire) : Prop :=
  ∃ x ∈ f.inOutLeaves, u = scalarWire .input x ∧ v = scalarWire .output x

/-- Wires of a call that part, or are twins. -/
def Parts (f : Subprogram) (u v : Wire) : Prop := Path.Apart u.path v.path ∨ f.Twins u v

section Stages

variable {g g' : String × Argument → List Wire}

theorem entries_pairwise (hg : Rooted g)
    (h : ∀ e, (g e).Pairwise fun u v => Path.Apart u.path v.path) :
    (f.entries.flatMap g).Pairwise f.Parts :=
  hg.pairwise (fun _ _ => Or.inl) f.nodup_entries fun e _ => (h e).imp Or.inl

theorem returnEntries_pairwise (hg : Rooted g)
    (h : ∀ e, (g e).Pairwise fun u v => Path.Apart u.path v.path) :
    (f.returnEntries.flatMap g).Pairwise f.Parts :=
  hg.pairwise (fun _ _ => Or.inl) f.nodup_returnEntries fun e _ => (h e).imp Or.inl

theorem parts_of_entry_of_return (hg : Rooted g) (hg' : Rooted g') :
    ∀ u ∈ f.entries.flatMap g, ∀ v ∈ f.returnEntries.flatMap g', f.Parts u v :=
  hg.across hg' (fun _ _ => Or.inl) fun _ he _ he' hne => absurd hne (entry_ne_return he he')

theorem parts_of_return_of_entry (hg : Rooted g) (hg' : Rooted g') :
    ∀ u ∈ f.returnEntries.flatMap g, ∀ v ∈ f.entries.flatMap g', f.Parts u v :=
  hg.across hg' (fun _ _ => Or.inl) fun _ he _ he' hne => absurd hne.symm (entry_ne_return he' he)

theorem parts_of_entry_of_entry (hg : Rooted g) (hg' : Rooted g')
    (h : ∀ e ∈ f.entries, ∀ u ∈ g e, ∀ v ∈ g' e, f.Parts u v) :
    ∀ u ∈ f.entries.flatMap g, ∀ v ∈ f.entries.flatMap g', f.Parts u v :=
  hg.across hg' (fun _ _ => Or.inl) fun e he e' he' hne => by
    rw [← entries_inj he he' hne]
    exact h e he

end Stages

/-- The wires that fill a composite and those that read it: the two of one scalar are twins. -/
theorem parts_of_fill_of_read {e : String × Argument} (he : e ∈ f.entries) {u v : Wire}
    (hu : u ∈ fillWires e) (hv : v ∈ readWires e) : f.Parts u v := by
  obtain ⟨hi, hu⟩ := mem_fillWires.mp hu
  obtain ⟨ho, hv⟩ := mem_readWires.mp hv
  obtain ⟨hc, x, hx, rfl⟩ := mem_leafWires.mp hu
  obtain ⟨-, y, hy, rfl⟩ := mem_leafWires.mp hv
  by_cases hxy : x = y
  · subst hxy
    refine Or.inr ⟨x, List.mem_flatMap.mpr ⟨e, he, ?_⟩, rfl, rfl⟩
    rw [if_pos (by simp [hc, Direction.eq_both hi ho])]
    exact hx
  · have : Std.Symm fun a b : Path × Scalar => Path.Apart a.1 b.1 := ⟨fun _ _ => Path.Apart.symm⟩
    exact Or.inl ((Argument.scalars_pairwise _ e.2).forall hx hy hxy)

/-- Scalars that go in and come out have paths that part. -/
theorem inOutLeaves_pairwise (f : Subprogram) :
    f.inOutLeaves.Pairwise fun x y => Path.Apart x.1 y.1 := by
  have hroot : ∀ {e : String × Argument} {x : Path × Scalar},
      x ∈ (if e.2.shape.isComposite && e.2.direction = .both then e.2.scalars [.field e.1]
        else []) → ∃ q, x.1 = .field e.1 :: q := by
    intro e x hx
    split at hx
    · exact Argument.exists_of_mem_scalars hx
    · exact absurd hx List.not_mem_nil
  refine List.pairwise_flatMap.mpr ⟨fun e _ => ?_, ?_⟩
  · split
    · exact Argument.scalars_pairwise _ e.2
    · exact List.Pairwise.nil
  · refine (List.pairwise_map.mp f.nodup_entries).imp fun hne x hx y hy => ?_
    obtain ⟨p, hp⟩ := hroot hx
    obtain ⟨q, hq⟩ := hroot hy
    rw [hp, hq]
    exact Or.inl hne

/-- **Two wires of a call part, or are the two wires of a scalar that goes in and comes out.** -/
theorem wires_pairwise (f : Subprogram) : f.wires.Pairwise f.Parts := by
  have hdir : Rooted fun e => directWires e.2.direction e := fun e => rooted_directWires _ e
  have hfill := entries_pairwise (f := f) rooted_fillWires fillWires_pairwise
  have hresult := returnEntries_pairwise (f := f) (rooted_directWires .output)
    (directWires_pairwise .output)
  have hcall := entries_pairwise (f := f) hdir fun e => directWires_pairwise _ e
  have hread := entries_pairwise (f := f) rooted_readWires readWires_pairwise
  have hlast := returnEntries_pairwise (f := f) (rooted_leafWires .output)
    (leafWires_pairwise .output)
  unfold wires
  simp only [List.pairwise_append, List.mem_append, or_imp, forall_and]
  refine ⟨⟨⟨⟨hfill, hresult, ?fill_result⟩, hcall, ?fill_call, ?result_call⟩, hread,
    ⟨?fill_read, ?result_read⟩, ?call_read⟩, hlast, ⟨⟨?fill_last, ?result_last⟩, ?call_last⟩,
    ?read_last⟩
  case fill_result => exact parts_of_entry_of_return rooted_fillWires (rooted_directWires _)
  case fill_call =>
    refine parts_of_entry_of_entry rooted_fillWires hdir fun e _ u hu v hv => ?_
    exact absurd hv (not_mem_directWires (mem_fillWires.mp hu).2)
  case result_call => exact parts_of_return_of_entry (rooted_directWires _) hdir
  case fill_read =>
    exact parts_of_entry_of_entry rooted_fillWires rooted_readWires fun e he u hu v hv =>
      parts_of_fill_of_read he hu hv
  case result_read => exact parts_of_return_of_entry (rooted_directWires _) rooted_readWires
  case call_read =>
    refine parts_of_entry_of_entry hdir rooted_readWires fun e _ u hu v hv => ?_
    exact absurd hu (not_mem_directWires (mem_readWires.mp hv).2)
  case fill_last => exact parts_of_entry_of_return rooted_fillWires (rooted_leafWires _)
  case result_last =>
    refine (rooted_directWires _).across (rooted_leafWires _) (fun _ _ => Or.inl)
      fun e he e' he' _ u hu v hv => ?_
    rw [returnEntries_inj he he'] at hu
    exact absurd hu (not_mem_directWires hv)
  case call_last => exact parts_of_entry_of_return hdir (rooted_leafWires _)
  case read_last => exact parts_of_entry_of_return rooted_readWires (rooted_leafWires _)

end Subprogram

end StoredCall
