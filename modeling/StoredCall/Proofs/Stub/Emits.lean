import StoredCall.Proofs.Stub.Block
import StoredCall.Proofs.Stub.Run

/-!
# What lowering writes

Every part of lowering makes slots, writes statements with their placeholders, and declares the
locals that the statements use. `Emits` says so for one part: the wires it makes slots for fix the
slots, and the placeholders in its statements are the positions of these slots, in order. Parts that
follow each other add up (`Emits.append`).

* `Argument.map_leaves`: what lowering lists as the scalars of an element are its scalars.
* `Argument.names` lists the names that come from an argument.
* `Emits.append`: a block is the sum of its parts.
-/

namespace StoredCall

open Text

/-! ## Names of arguments -/

mutual

/-- The names in an argument: its own, those of its declared types and of its fields. -/
def Argument.names : Argument → List String
  | ⟨name, _, _, shape⟩ => name :: shape.names

/-- The names in a shape. -/
def Shape.names : Shape → List String
  | .scalar _ => []
  | .record typeName fields => typeName.toList ++ argumentNames fields
  | .table typeName elem _ _ => typeName.toList ++ elementNames elem

/-- The names in siblings. -/
def argumentNames : List Argument → List String
  | [] => []
  | a :: rest => a.names ++ argumentNames rest

/-- The names in the element of a table. -/
def elementNames : Option Argument → List String
  | none => []
  | some elem => elem.names

end

theorem Argument.name_mem_names (a : Argument) : a.name ∈ a.names := by
  cases a
  exact List.mem_cons_self

theorem Shape.typeName_mem_names {shape : Shape} {typeName : String}
    (hc : shape.isComposite = true) (h : shape.typeName = some typeName) :
    typeName ∈ shape.names := by
  cases shape with
  | scalar s => simp [Shape.isComposite] at hc
  | record t fields =>
    have h : t = some typeName := h
    simp [Shape.names, h]
  | table t elem nested cursor =>
    have h : t = some typeName := h
    simp [Shape.names, h]

theorem mem_argumentNames {n : String} : ∀ {fields : List Argument},
    n ∈ argumentNames fields ↔ ∃ a ∈ fields, n ∈ a.names
  | [] => by simp [argumentNames]
  | a :: rest => by
    rw [argumentNames, List.mem_append, mem_argumentNames]
    simp

/-! ## The scalars of an element, as lowering lists them -/

mutual

/-- Lowering lists the scalars of an element with their paths. -/
theorem Argument.map_leaves {label : String} : ∀ (a : Argument) {fields : List String} {path : Path}
    {leaves : List Leaf}, a.leaves label fields path = .ok leaves →
      (leaves.map fun l => (l.path, l.scalar)) = a.scalars path
  | ⟨_, _, _, shape⟩, _, _, _, h => Shape.map_leaves shape h

theorem Shape.map_leaves {label name : String} : ∀ (shape : Shape) {fields : List String}
    {path : Path} {leaves : List Leaf}, shape.leaves label name fields path = .ok leaves →
      (leaves.map fun l => (l.path, l.scalar)) = shape.scalars path
  | .scalar s, _, _, _, h => by
    simp only [Shape.leaves, Except.ok.injEq] at h
    rw [← h]
    rfl
  | .record _ [], _, _, _, h => by simp [Shape.leaves] at h
  | .record _ (f :: rest), _, _, _, h => map_leavesAll (f :: rest) h
  | .table .., _, _, _, h => by simp [Shape.leaves] at h

theorem map_leavesAll {label : String} : ∀ (fs : List Argument) {names fields : List String}
    {path : Path} {leaves : List Leaf}, leavesAll label fields path names fs = .ok leaves →
      (leaves.map fun l => (l.path, l.scalar)) = scalarsAll path names fs
  | [], _, _, _, _, h => by
    simp only [leavesAll, Except.ok.injEq] at h
    rw [← h]
    rfl
  | f :: rest, names, _, _, _, h => by
    obtain ⟨here, hh, h⟩ := except_bind_eq_ok.mp h
    obtain ⟨more, hm, h⟩ := except_bind_eq_ok.mp h
    rw [← Except.ok.inj h, List.map_append, Argument.map_leaves f hh, map_leavesAll rest hm]
    rfl

end

mutual

/-- The fields that lead to a scalar inside an element are names of the element, and its path goes
through no table. -/
theorem Argument.leaf_spec {label : String} : ∀ (a : Argument) {fields : List String} {path : Path}
    {leaves : List Leaf}, a.leaves label fields path = .ok leaves → ∀ l ∈ leaves,
      (∀ n ∈ l.fields, n ∈ fields ∨ n ∈ a.names) ∧ (.each ∈ l.path → .each ∈ path)
  | ⟨_, _, _, shape⟩, _, _, _, h => fun l hl => by
    obtain ⟨hnames, hflat⟩ := Shape.leaf_spec shape h l hl
    exact ⟨fun n hn => (hnames n hn).imp_right (List.mem_cons_of_mem _), hflat⟩

theorem Shape.leaf_spec {label name : String} : ∀ (shape : Shape) {fields : List String}
    {path : Path} {leaves : List Leaf}, shape.leaves label name fields path = .ok leaves →
      ∀ l ∈ leaves, (∀ n ∈ l.fields, n ∈ fields ∨ n ∈ shape.names) ∧ (.each ∈ l.path → .each ∈ path)
  | .scalar s, _, _, _, h => by
    simp only [Shape.leaves, Except.ok.injEq] at h
    rw [← h]
    intro l hl
    rw [List.mem_singleton.mp hl]
    exact ⟨fun n hn => Or.inl hn, id⟩
  | .record _ [], _, _, _, h => by simp [Shape.leaves] at h
  | .record _ (f :: rest), _, _, _, h => fun l hl => by
    obtain ⟨hnames, hflat⟩ := leaf_spec_all (f :: rest) h l hl
    exact ⟨fun n hn => (hnames n hn).imp_right (List.mem_append_right _), hflat⟩
  | .table .., _, _, _, h => by simp [Shape.leaves] at h

theorem leaf_spec_all {label : String} : ∀ (fs : List Argument) {names fields : List String}
    {path : Path} {leaves : List Leaf}, leavesAll label fields path names fs = .ok leaves →
      ∀ l ∈ leaves, (∀ n ∈ l.fields, n ∈ fields ∨ n ∈ argumentNames fs) ∧
        (.each ∈ l.path → .each ∈ path)
  | [], _, _, _, _, h => by
    simp only [leavesAll, Except.ok.injEq] at h
    rw [← h]
    intro l hl
    exact absurd hl List.not_mem_nil
  | f :: rest, names, _, _, _, h => by
    obtain ⟨here, hh, h⟩ := except_bind_eq_ok.mp h
    obtain ⟨more, hm, h⟩ := except_bind_eq_ok.mp h
    rw [← Except.ok.inj h]
    intro l hl
    rcases List.mem_append.mp hl with hl | hl
    · obtain ⟨hnames, hflat⟩ := Argument.leaf_spec f hh l hl
      refine ⟨fun n hn => ?_, fun he => ?_⟩
      · rw [argumentNames, List.mem_append]
        rcases hnames n hn with hf | hf
        · rcases List.mem_append.mp hf with hf | hf
          · exact Or.inl hf
          · rw [List.mem_singleton.mp hf]
            exact Or.inr (Or.inl f.name_mem_names)
        · exact Or.inr (Or.inl hf)
      · simpa [Path.child] using hflat he
    · obtain ⟨hnames, hflat⟩ := leaf_spec_all rest hm l hl
      refine ⟨fun n hn => (hnames n hn).imp_right ?_, hflat⟩
      rw [argumentNames]
      exact List.mem_append_right _

end

/-! ## Parts of a block -/

/-- One part of lowering made slots for wires and wrote statements. -/
structure Emits (s : Setting) (P : String → Prop) (w : Work) (wires : List Wire)
    (stmts : List Stmt) (w' : Work) : Prop where
  grows : Grows s P w (columnsOf wires) w'
  slots : w'.slots = addSlots s.capacity w.slots wires
  /-- The placeholders are the positions of the new slots, in order. -/
  marks : placeholdersAll stmts = List.range' (w.slots.length + 1) wires.length
  /-- Names are those of arguments or declared. -/
  names : ∀ n ∈ namesAll stmts, P n ∨ n ∈ w'.decls.map Decl.name
  /-- The slot of a column is filled from or read into the array of the column. -/
  arrays : ∀ (i : Nat) (wire : Wire), wires[i]? = some wire → .each ∈ wire.path →
    ∃ x, Carries stmts (w.slots.length + 1 + i) x ∧
      w'.names.given s.package (arrayLong wire.path) = some x
  placed : ∀ wire ∈ wires, wire.Placed

variable {s : Setting} {P : String → Prop} {w w₁ w₂ w' : Work}

theorem Emits.nil : Emits s P w [] [] w where
  grows := .refl
  slots := rfl
  marks := rfl
  names := fun _ h => absurd h List.not_mem_nil
  arrays := fun _ _ h => absurd h (by simp)
  placed := fun _ h => absurd h List.not_mem_nil

/-- **Parts that follow each other add up.** -/
theorem Emits.append {a b : List Wire} {as bs : List Stmt} (h₁ : Emits s P w a as w₁)
    (h₂ : Emits s P w₁ b bs w₂) : Emits s P w (a ++ b) (as ++ bs) w₂ := by
  have hlen : w₁.slots.length = w.slots.length + a.length := by
    rw [h₁.slots, length_addSlots]
  refine ⟨?_, ?_, ?_, ?_, ?_, List.forall_mem_append.mpr ⟨h₁.placed, h₂.placed⟩⟩
  · rw [columnsOf_append]
    exact h₁.grows.trans h₂.grows
  · rw [h₂.slots, h₁.slots, addSlots_append]
  · rw [placeholdersAll_append, h₁.marks, h₂.marks, hlen, List.length_append,
      range'_positions]
  · intro n hn
    rw [namesAll_append] at hn
    rcases List.mem_append.mp hn with hn | hn
    · exact (h₁.names n hn).imp_right h₂.grows.declared
    · exact h₂.names n hn
  · intro i wire hi he
    by_cases hlt : i < a.length
    · rw [List.getElem?_append_left hlt] at hi
      obtain ⟨x, hx, hg⟩ := h₁.arrays i wire hi he
      exact ⟨x, hx.append_left bs, h₂.grows.given hg⟩
    · rw [List.getElem?_append_right (Nat.le_of_not_lt hlt)] at hi
      obtain ⟨x, hx, hg⟩ := h₂.arrays (i - a.length) wire hi he
      have hpos : w₁.slots.length + 1 + (i - a.length) = w.slots.length + 1 + i := by omega
      rw [hpos] at hx
      exact ⟨x, hx.append_right as, hg⟩

end StoredCall
