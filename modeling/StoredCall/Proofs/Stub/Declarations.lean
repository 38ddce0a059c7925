import StoredCall.Proofs.Stub.Run

/-!
# The declarations of a block

A block declares four kinds of things: the locals of composites, the indices of loops, the types of
arrays and the arrays of columns. Which kind a declaration is of can be told from its first
character, so that none hides another of a different kind.

* `Decl.Known` says which of the four a declaration is.
* `Grows.known`: lowering declares nothing else.
* `Grows.nodup_decls`: no name is declared twice.
* `Grows.column_declared`: every column has an identifier, and an array is declared by it.
-/

namespace StoredCall

open Text

/-- The index of a loop. -/
def loopIdent (k : Nat) : String := "i" ++ toString k

/-- The type of an array. -/
def typeIdent (k : Nat) : String := "t_" ++ toString k

/-- What a declaration is for: the local of a composite, whose type is in `P`, the index of a loop,
the array of a column, or the type of such arrays. -/
def Decl.Known (s : Setting) (P : String → Prop) (columns : List (Path × Scalar)) (w : Work) :
    Decl → Prop
  | .var x t =>
    (∃ field, w.names.given s.package (bridgeLong field) = some x ∧ P t) ∨
      (∃ k, x = loopIdent k ∧ t = "PLS_INTEGER") ∨
      ∃ c ∈ columns, w.names.given s.package (arrayLong c.1) = some x ∧
        .arrayType t c.2.elementDecl ∈ w.decls
  | .arrayType t elem =>
    (∃ k ≤ (arrayTypes w.decls).length, t = typeIdent k) ∧ ∃ c ∈ columns, elem = c.2.elementDecl

variable {s : Setting} {P : String → Prop} {w w₁ w₂ w' : Work} {a b columns : List (Path × Scalar)}
  {name : String}

/-! ## First characters -/

theorem head?_loopIdent (k : Nat) : (loopIdent k).toList.head? = some 'i' := by
  simp [loopIdent]

theorem head?_typeIdent (k : Nat) : (typeIdent k).toList.head? = some 't' := by
  simp [typeIdent]

theorem typeIdent_injective {j k : Nat} (h : typeIdent j = typeIdent k) : j = k := by
  unfold typeIdent at h
  rw [String.append_right_inj, Nat.toString_eq_repr, Nat.toString_eq_repr] at h
  exact Nat.repr_injective h

theorem Scope.sanitize_of_head {long : String} {c : Char} {rest : List Char}
    (hl : long.toList = c :: rest) (hc : identChar c = c) (ha : c.isAlpha = true) :
    sanitize long = c :: rest.map identChar := by
  simp [sanitize, hl, hc, ha]

/-- The local of a composite begins with `v`, or with an underscore if it was cut short. -/
theorem head?_of_bridge (h : w.names.Reached) {package field : String}
    (hg : w.names.given package (bridgeLong field) = some name) :
    name.toList.head? = some 'v' ∨ name.toList.head? = some '_' := by
  have hl : (bridgeLong field).toList = 'v' :: '_' :: field.toList := by
    rw [bridgeLong, String.toList_append]
    rfl
  exact h.head?_of_given hg (Scope.sanitize_of_head hl (by decide) (by decide))

/-- The array of a column begins with `x`, or with an underscore if it was cut short. -/
theorem head?_of_array (h : w.names.Reached) {package : String} {path : Path}
    (hg : w.names.given package (arrayLong path) = some name) :
    name.toList.head? = some 'x' ∨ name.toList.head? = some '_' := by
  have hl : (arrayLong path).toList = 'x' :: '_' :: (pathIdent path).toList := by
    rw [arrayLong, String.toList_append]
    rfl
  exact h.head?_of_given hg (Scope.sanitize_of_head hl (by decide) (by decide))

theorem arrayLong_ne_bridgeLong (path : Path) (field : String) :
    arrayLong path ≠ bridgeLong field := by
  intro h
  have hc := congrArg (fun n => n.toList.head?) h
  simp [arrayLong, bridgeLong] at hc

/-- A variable is no type of arrays. -/
theorem Decl.Known.ne_typeIdent {x t : String} (h : (Decl.var x t).Known s P columns w)
    (hw : w.names.Reached) (k : Nat) : x ≠ typeIdent k := by
  rintro rfl
  have hk := head?_typeIdent k
  rcases h with ⟨field, hg, -⟩ | ⟨j, hj, -⟩ | ⟨c, -, hg, -⟩
  · rcases head?_of_bridge hw hg with h | h <;> simp [hk] at h
  · have h := head?_loopIdent j
    rw [← hj, hk] at h
    simp at h
  · rcases head?_of_array hw hg with h | h <;> simp [hk] at h

/-! ## What lowering declares -/

theorem length_arrayTypes_le {ds ds' : List Decl} (h : ds <+: ds') :
    (arrayTypes ds).length ≤ (arrayTypes ds').length :=
  (h.filterMap _).length_le

theorem mem_arrayTypes {ds : List Decl} {elem t : String} :
    (elem, t) ∈ arrayTypes ds ↔ .arrayType t elem ∈ ds := by
  unfold arrayTypes
  rw [List.mem_filterMap]
  constructor
  · rintro ⟨d, hd, h⟩
    cases d with
    | var x t => simp at h
    | arrayType t' elem' =>
      simp only [Option.some.injEq, Prod.mk.injEq] at h
      obtain ⟨rfl, rfl⟩ := h
      exact hd
  · intro h
    exact ⟨_, h, rfl⟩

/-- A type that is declared later adds to the number of types. -/
theorem length_arrayTypes_lt {ds ds' : List Decl} {t elem : String} (h : ds <+: ds')
    (hnew : .arrayType t elem ∈ ds') (hold : .arrayType t elem ∉ ds) :
    (arrayTypes ds).length < (arrayTypes ds').length := by
  obtain ⟨more, rfl⟩ := h
  have hmore := mem_arrayTypes.mpr ((List.mem_append.mp hnew).resolve_left hold)
  have hpos := List.length_pos_of_mem hmore
  have happ : arrayTypes (ds ++ more) = arrayTypes ds ++ arrayTypes more := List.filterMap_append
  rw [happ, List.length_append]
  omega

/-- What a declaration is for does not change. -/
theorem Decl.Known.grows {d : Decl} (h : d.Known s P a w) (hg : Grows s P w b w') :
    d.Known s P (a ++ b) w' := by
  cases d with
  | var x t =>
    rcases h with ⟨field, hx, ht⟩ | h | ⟨c, hc, hx, ht⟩
    · exact Or.inl ⟨field, hg.given hx, ht⟩
    · exact Or.inr (Or.inl h)
    · exact Or.inr (Or.inr ⟨c, List.mem_append_left _ hc, hg.given hx, hg.decls_prefix.subset ht⟩)
  | arrayType t elem =>
    obtain ⟨⟨k, hk, ht⟩, c, hc, he⟩ := h
    exact ⟨⟨k, hk.trans (length_arrayTypes_le hg.decls_prefix), ht⟩, c,
      List.mem_append_left _ hc, he⟩

namespace Work

theorem mem_withDecl {d e : Decl} (h : e ∈ (w.withDecl d).decls) : e ∈ w.decls ∨ e = d := by
  unfold withDecl at h
  split at h
  · exact Or.inl h
  · simpa using h

/-- A name that is not declared gets declared. -/
theorem mem_withDecl_self {d : Decl} (h : d.name ∉ w.decls.map Decl.name) :
    d ∈ (w.withDecl d).decls := by
  unfold withDecl
  rw [if_neg h]
  simp

/-- The name for a new type of arrays is not declared yet. -/
theorem typeIdent_notMem (hknown : ∀ d ∈ w.decls, d.Known s P columns w) (hw : w.names.Reached) :
    typeIdent ((arrayTypes w.decls).length + 1) ∉ w.decls.map Decl.name := by
  intro h
  obtain ⟨d, hd, hname⟩ := List.mem_map.mp h
  cases d with
  | var x t => exact (hknown _ hd).ne_typeIdent hw _ hname
  | arrayType t elem =>
    obtain ⟨⟨k, hk, ht⟩, -⟩ := hknown _ hd
    have := typeIdent_injective (ht.symm.trans hname)
    omega

/-- **The type of arrays with the given elements is declared with these elements.** -/
theorem arrayType_mem_withArrayType (hknown : ∀ d ∈ w.decls, d.Known s P columns w)
    (hw : w.names.Reached) (elem : String) :
    .arrayType (w.arrayTypeOf elem) elem ∈ (w.withArrayType elem).decls := by
  unfold withArrayType arrayTypeOf
  cases hg : Assoc.get? elem (arrayTypes w.decls) with
  | some t =>
    simp only [Option.isSome_some, if_true, Option.getD_some]
    exact mem_arrayTypes.mp (Assoc.mem_of_get? hg)
  | none =>
    simp only [Option.isSome_none, Bool.false_eq_true, if_false, Option.getD_none]
    exact mem_withDecl_self (typeIdent_notMem hknown hw)

theorem mem_withArrayType {d : Decl} {elem : String} (h : d ∈ (w.withArrayType elem).decls) :
    d ∈ w.decls ∨ d = .arrayType (typeIdent ((arrayTypes w.decls).length + 1)) elem := by
  unfold withArrayType at h
  split at h
  · exact Or.inl h
  · rename_i hnone
    have hnone : Assoc.get? elem (arrayTypes w.decls) = none := by simpa using hnone
    have hname : w.arrayTypeOf elem = typeIdent ((arrayTypes w.decls).length + 1) := by
      rw [arrayTypeOf, hnone]
      rfl
    rw [hname] at h
    exact mem_withDecl h

theorem nodup_withDecl (h : (w.decls.map Decl.name).Nodup) (d : Decl) :
    ((w.withDecl d).decls.map Decl.name).Nodup := by
  unfold withDecl
  split
  · exact h
  · rename_i hd
    rw [List.map_append, List.nodup_append]
    refine ⟨h, by simp, fun x hx y hy => ?_⟩
    rw [List.mem_singleton.mp hy]
    rintro rfl
    exact hd hx

theorem nodup_withArrayType (h : (w.decls.map Decl.name).Nodup) (elem : String) :
    ((w.withArrayType elem).decls.map Decl.name).Nodup := by
  unfold withArrayType
  split
  · exact h
  · exact nodup_withDecl h _

end Work

namespace Grows

/-- No name is declared twice. -/
theorem nodup_decls (h : Grows s P w columns w₁) (hw : (w.decls.map Decl.name).Nodup) :
    (w₁.decls.map Decl.name).Nodup := by
  induction h with
  | refl => exact hw
  | slot _ _ _ ih => exact ih
  | @bridge _ w₂ _ field _ _ ih =>
    exact Work.nodup_withDecl (w := w₂.withIdent s (bridgeLong field)) ih _
  | @loop _ w₂ _ ih => exact Work.nodup_withDecl (w := { w₂ with loops := w₂.loops + 1 }) ih _
  | @array _ w₂ _ path scalar ih =>
    exact Work.nodup_withDecl
      (w := (w₂.withArrayType scalar.elementDecl).withIdent s (arrayLong path))
      (Work.nodup_withArrayType ih scalar.elementDecl) _

/-- **Lowering declares locals of composites, loop indices, arrays and their types, and nothing
else.** -/
theorem known (h : Grows s P w columns w₁) (hd : w.decls = []) (hw : w.names.Reached) :
    ∀ d ∈ w₁.decls, d.Known s P columns w₁ := by
  induction h with
  | refl =>
    intro d hm
    rw [hd] at hm
    exact absurd hm List.not_mem_nil
  | @slot columns w₂ h capacity wire ih => exact ih
  | @bridge columns w₂ h field typeName ht ih =>
    have hstep : Grows s P w₂ [] (w₂.withBridge s field typeName) := Grows.refl.bridge field ht
    intro d hm
    rcases Work.mem_withDecl hm with hm | rfl
    · simpa using (ih d hm).grows hstep
    · refine Or.inl ⟨field, ?_, ht⟩
      unfold Work.withBridge
      rw [Work.withDecl_names]
      exact Names.given_ident _ _ _
  | @loop columns w₂ h ih =>
    have hstep : Grows s P w₂ [] w₂.withLoop := Grows.refl.loop
    intro d hm
    rcases Work.mem_withDecl hm with hm | rfl
    · simpa using (ih d hm).grows hstep
    · exact Or.inr (Or.inl ⟨w₂.loops + 1, rfl, rfl⟩)
  | @array columns w₂ h path scalar ih =>
    have hstep : Grows s P w₂ [(path, scalar)] (w₂.withArray s path scalar) :=
      Grows.refl.array path scalar
    have hlast : (path, scalar) ∈ columns ++ [(path, scalar)] := by simp
    -- the type is declared before the array
    have htype : .arrayType (w₂.arrayTypeOf scalar.elementDecl) scalar.elementDecl ∈
        (w₂.withArray s path scalar).decls :=
      (Work.decls_prefix_withDecl _ _).subset
        (Work.arrayType_mem_withArrayType ih (h.reached hw) scalar.elementDecl)
    intro d hall
    rcases Work.mem_withDecl hall with hm | rfl
    · rcases Work.mem_withArrayType hm with hold | rfl
      · exact (ih d hold).grows hstep
      · refine ⟨⟨_, length_arrayTypes_lt hstep.decls_prefix hall fun hold => ?_, rfl⟩, _, hlast,
          rfl⟩
        exact Work.typeIdent_notMem ih (h.reached hw) (List.mem_map_of_mem hold)
    · refine Or.inr (Or.inr ⟨_, hlast, ?_, htype⟩)
      rw [Work.withArray_names]
      exact Names.given_ident _ _ _

/-- Every column has an identifier, and it is declared. -/
theorem column_declared (h : Grows s P w columns w₁) : ∀ c ∈ columns,
    ∃ x, w₁.names.given s.package (arrayLong c.1) = some x ∧ x ∈ w₁.decls.map Decl.name := by
  induction h with
  | refl => exact fun _ hc => absurd hc List.not_mem_nil
  | @slot columns w₂ h capacity wire ih => exact ih
  | @bridge columns w₂ h field typeName ht ih =>
    intro c hc
    have hstep : Grows s P w₂ [] (w₂.withBridge s field typeName) := Grows.refl.bridge field ht
    obtain ⟨x, hx, hd⟩ := ih c hc
    exact ⟨x, hstep.given hx, hstep.declared hd⟩
  | @loop columns w₂ h ih =>
    intro c hc
    have hstep : Grows s P w₂ [] w₂.withLoop := Grows.refl.loop
    obtain ⟨x, hx, hd⟩ := ih c hc
    exact ⟨x, hstep.given hx, hstep.declared hd⟩
  | @array columns w₂ h path scalar ih =>
    have hstep : Grows s P w₂ [(path, scalar)] (w₂.withArray s path scalar) :=
      Grows.refl.array path scalar
    intro c hc
    rcases List.mem_append.mp hc with hc | hc
    · obtain ⟨x, hx, hd⟩ := ih c hc
      exact ⟨x, hstep.given hx, hstep.declared hd⟩
    · rw [List.mem_singleton.mp hc]
      refine ⟨w₂.identOf s (arrayLong path), ?_, Work.name_mem_withDecl _ _⟩
      rw [Work.withArray_names]
      exact Names.given_ident _ _ _

end Grows

end StoredCall
