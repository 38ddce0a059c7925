import StoredCall.Proofs.Path.Text
import StoredCall.Proofs.Stub.Parting

/-!
# The fields of wires

The field of an argument is its name in small letters, with an underscore for each dot, and a number
where the name is taken. So the path of a wire can be written and read back as soon as the names of
arguments and record fields are not empty and hold no brackets.

* `PlainName` is such a name; `Subprogram.pathNames` lists the names that occur in paths.
* `fieldName_of_mem_fieldNames`, `plainName_of_fieldNames`: the fields of siblings can stand in
  texts exactly if the names of the siblings are plain.
* **`Subprogram.readable_of_mem_wires`**: the paths of wires, and those of the columns of cursors,
  can be read back.
-/

namespace StoredCall

open Text

/-! ## Field names -/

/-- A name that is not empty and holds no brackets. -/
structure PlainName (name : String) : Prop where
  nonempty : name ≠ ""
  opening : '[' ∉ name.toList
  closing : ']' ∉ name.toList

instance : DecidablePred PlainName := fun name =>
  decidable_of_iff (name ≠ "" ∧ '[' ∉ name.toList ∧ ']' ∉ name.toList)
    ⟨fun h => ⟨h.1, h.2.1, h.2.2⟩, fun h => ⟨h.nonempty, h.opening, h.closing⟩⟩

theorem eq_of_toLower_eq {c d : Char} (hd : d.isLower = false) (h : c.toLower = d) : c = d := by
  by_cases hu : c.isUpper = true
  · have hlow : c.toLower.isLower = true := by
      rw [Char.isLower_toLower_eq_isAlpha]
      simp [Char.isAlpha, hu]
    rw [h, hd] at hlow
    cases hlow
  · rwa [Char.toLower_eq_of_not_isUpper hu] at h

/-- A character of a field is an underscore or a small form of a character that is no other
separator. -/
theorem mem_snakeWords {mixed : Bool} {d : Char} : ∀ {last : Option Char} {cs : List Char},
    d ∈ snakeWords mixed last cs →
      d = '_' ∨ ∃ c ∈ cs, d = c.toLower ∧ (isSeparator c && c != '_') = false
  | _, [], h => absurd h (by simp [snakeWords])
  | last, c :: cs, h => by
    have later : ∀ {last : Option Char}, d ∈ snakeWords mixed last cs →
        d = '_' ∨ ∃ e ∈ c :: cs, d = e.toLower ∧ (isSeparator e && e != '_') = false := by
      intro last h
      exact (mem_snakeWords h).imp_right fun ⟨e, he, hd⟩ => ⟨e, List.mem_cons_of_mem _ he, hd⟩
    rw [snakeWords] at h
    split at h
    · split at h
      · exact later h
      · rcases List.mem_cons.mp h with rfl | h
        · exact Or.inl rfl
        · exact later h
    · rename_i hsep
      have hsep : (isSeparator c && c != '_') = false := by simpa using hsep
      split at h
      · rcases List.mem_cons.mp h with rfl | h
        · exact Or.inl rfl
        · rcases List.mem_cons.mp h with rfl | h
          · exact Or.inr ⟨c, List.mem_cons_self, rfl, hsep⟩
          · exact later h
      · rcases List.mem_cons.mp h with rfl | h
        · exact Or.inr ⟨c, List.mem_cons_self, rfl, hsep⟩
        · exact later h

theorem snakeWords_ne_nil (mixed : Bool) (c : Char) (cs : List Char) :
    snakeWords mixed none (c :: cs) ≠ [] := by
  rw [snakeWords]
  split
  · simp
  · split <;> simp

/-- A name spelled as a field can stand in the text of a path. -/
theorem PlainName.fieldName_snake {name : String} (h : PlainName name) :
    FieldName (snake name) := by
  have hchars : ∀ d ∈ (snake name).toList, d = '_' ∨
      ∃ c ∈ name.toList, d = c.toLower ∧ (isSeparator c && c != '_') = false := by
    intro d hd
    rw [snake, String.toList_ofList] at hd
    exact mem_snakeWords hd
  refine ⟨fun hempty => ?_, fun hd => ?_, fun hd => ?_, fun hd => ?_⟩
  · rw [snake, String.ofList_eq_empty_iff] at hempty
    cases hn : name.toList with
    | nil => exact h.nonempty (String.toList_eq_nil_iff.mp hn)
    | cons c cs =>
      rw [hn] at hempty
      exact snakeWords_ne_nil _ c cs hempty
  · rcases hchars _ hd with h' | ⟨c, -, hc, hsep⟩
    · exact absurd h' (by decide)
    · rw [eq_of_toLower_eq (by decide) hc.symm] at hsep
      exact absurd hsep (by decide)
  · rcases hchars _ hd with h' | ⟨c, hm, hc, -⟩
    · exact absurd h' (by decide)
    · exact h.opening (eq_of_toLower_eq (by decide) hc.symm ▸ hm)
  · rcases hchars _ hd with h' | ⟨c, hm, hc, -⟩
    · exact absurd h' (by decide)
    · exact h.closing (eq_of_toLower_eq (by decide) hc.symm ▸ hm)

/-- A character that is no separator is kept, in its small form. -/
theorem toLower_mem_snakeWords {mixed : Bool} {c : Char} (hc : isSeparator c = false) :
    ∀ {last : Option Char} {cs : List Char}, c ∈ cs → c.toLower ∈ snakeWords mixed last cs
  | last, d :: cs, h => by
    have later : ∀ {last : Option Char} (written : List Char), c ∈ cs →
        c.toLower ∈ written ++ snakeWords mixed last cs :=
      fun _ h => List.mem_append_right _ (toLower_mem_snakeWords hc h)
    rw [snakeWords]
    rcases List.mem_cons.mp h with rfl | h
    · rw [hc, Bool.false_and, if_neg Bool.false_ne_true]
      split <;> simp
    · split
      · split
        · exact later [] h
        · exact later ['_'] h
      · split
        · exact later ['_', d.toLower] h
        · exact later [d.toLower] h

/-- Only plain names are spelled as fields that can stand in the text of a path. -/
theorem plainName_of_snake {name : String} (h : FieldName (snake name)) : PlainName name := by
  have hkept : ∀ c ∈ name.toList, isSeparator c = false → c.toLower ∈ (snake name).toList := by
    intro c hm hc
    rw [snake, String.toList_ofList]
    exact toLower_mem_snakeWords hc hm
  refine ⟨fun hempty => h.nonempty ?_, fun hm => h.opening ?_, fun hm => h.closing ?_⟩
  · rw [hempty]
    rfl
  · exact hkept _ hm (by decide)
  · exact hkept _ hm (by decide)

/-- Numbering keeps a field a field. -/
theorem FieldName.withNumber {base : String} (h : FieldName base) (n : Nat) :
    FieldName (base ++ "_" ++ toString n) := by
  have hdigit : ∀ c : Char, c.isDigit = false → c ≠ '_' → c ∉ base.toList →
      c ∉ (base ++ "_" ++ toString n).toList := by
    intro c hd hu hb hc
    rw [String.toList_append, String.toList_append, List.mem_append, List.mem_append] at hc
    rcases hc with (hc | hc) | hc
    · exact hb hc
    · exact hu (List.mem_singleton.mp hc)
    · rw [Nat.toString_eq_repr, Nat.toList_repr] at hc
      have := Nat.isDigit_of_mem_toDigits (by decide) (by decide) hc
      rw [hd] at this
      cases this
  refine ⟨fun hempty => ?_, hdigit _ (by decide) (by decide) h.dot,
    hdigit _ (by decide) (by decide) h.opening, hdigit _ (by decide) (by decide) h.closing⟩
  have hlist := congrArg String.toList hempty
  simp at hlist

theorem FieldName.fresh {base : String} (h : FieldName base) (used : List String) :
    FieldName (freshName used base) := by
  unfold freshName
  rcases freshNameWith_cases "_" used base with hname | ⟨n, hname⟩
  · rwa [hname]
  · rw [hname]
    exact h.withNumber n

theorem fieldName_of_mem_freshNames : ∀ {used bases : List String} {name : String},
    (∀ base ∈ bases, FieldName base) → name ∈ freshNames used bases → FieldName name
  | _, [], _, _, h => absurd h List.not_mem_nil
  | used, base :: rest, name, hb, h => by
    rw [List.forall_mem_cons] at hb
    rcases List.mem_cons.mp h with rfl | h
    · exact hb.1.fresh used
    · exact fieldName_of_mem_freshNames hb.2 h

/-- The fields of siblings with plain names. -/
theorem fieldName_of_mem_fieldNames {names : List String} (hn : ∀ n ∈ names, PlainName n)
    {name : String} (h : name ∈ fieldNames names) : FieldName name := by
  refine fieldName_of_mem_freshNames (fun base hb => ?_) h
  obtain ⟨n, hm, rfl⟩ := List.mem_map.mp hb
  exact (hn n hm).fieldName_snake

/-- **Siblings whose fields can stand in texts have plain names.** The first of those that ask for a
field is given it as it is spelled. -/
theorem plainName_of_fieldNames {names : List String} (h : ∀ n ∈ fieldNames names, FieldName n)
    {name : String} (hn : name ∈ names) : PlainName name :=
  plainName_of_snake
    (h _ (mem_freshNames_of_notMem (List.mem_map_of_mem hn) List.not_mem_nil))

/-! ## The paths of scalars -/

mutual

/-- The names below an argument that occur in paths: those of record fields at any depth. -/
def Argument.pathNames : Argument → List String
  | ⟨_, _, _, shape⟩ => shape.pathNames

/-- The names of record fields in a shape. -/
def Shape.pathNames : Shape → List String
  | .scalar _ => []
  | .record _ fields => pathNamesAll fields
  | .table _ elem _ _ => pathNamesElem elem

/-- The names of siblings and of record fields below them. -/
def pathNamesAll : List Argument → List String
  | [] => []
  | a :: rest => a.name :: a.pathNames ++ pathNamesAll rest

/-- The names of record fields below the element of a table, or below a return value. -/
def pathNamesElem : Option Argument → List String
  | none => []
  | some elem => elem.pathNames

end

/-- The names of arguments and of record fields. -/
def Subprogram.pathNames (f : Subprogram) : List String :=
  pathNamesAll f.args ++ pathNamesElem f.returns

theorem mem_pathNamesAll {n : String} : ∀ {fields : List Argument},
    n ∈ pathNamesAll fields ↔ ∃ a ∈ fields, n = a.name ∨ n ∈ a.pathNames
  | [] => by simp [pathNamesAll]
  | a :: rest => by
    rw [pathNamesAll, List.cons_append, List.mem_cons, List.mem_append, mem_pathNamesAll]
    simp only [List.mem_cons, exists_eq_or_imp]
    exact or_assoc.symm

theorem Path.Readable.append {p q : Path} (hp : p.Readable) (hq : q.Readable) :
    Path.Readable (p ++ q) :=
  fun name hm => (List.mem_append.mp hm).elim (hp name) (hq name)

theorem Path.readable_field {name : String} (h : FieldName name) : Path.Readable [.field name] := by
  intro n hn
  rw [Step.field.inj (List.mem_singleton.mp hn)]
  exact h

theorem Path.readable_each : Path.Readable [.each] := by
  intro n hn
  simp at hn

mutual

/-- The paths of the scalars of an argument can be read back. -/
theorem Argument.readable_scalars : ∀ (a : Argument) {path : Path}, path.Readable →
    (∀ n ∈ a.pathNames, PlainName n) → ∀ x ∈ a.scalars path, x.1.Readable
  | ⟨_, _, _, shape⟩, _, hp, hn => Shape.readable_scalars shape hp hn

theorem Shape.readable_scalars : ∀ (shape : Shape) {path : Path}, path.Readable →
    (∀ n ∈ shape.pathNames, PlainName n) → ∀ x ∈ shape.scalars path, x.1.Readable
  | .scalar s, path, hp, _ => by
    intro x hx
    rw [List.mem_singleton.mp hx]
    exact hp
  | .record _ fields, path, hp, hn => by
    refine readable_scalarsAll fields hp hn (fun n hm => ?_) ?_
    · refine fieldName_of_mem_fieldNames (fun n hm => ?_) hm
      obtain ⟨a, ha, rfl⟩ := List.mem_map.mp hm
      exact hn _ (mem_pathNamesAll.mpr ⟨a, ha, Or.inl rfl⟩)
    · rw [length_fieldNames, List.length_map]
  | .table _ elem _ _, path, hp, hn =>
    readable_scalarsElem elem (hp.append Path.readable_each) hn

theorem readable_scalarsAll : ∀ (fields : List Argument) {path : Path} {names : List String},
    path.Readable → (∀ n ∈ pathNamesAll fields, PlainName n) → (∀ n ∈ names, FieldName n) →
      names.length = fields.length → ∀ x ∈ scalarsAll path names fields, x.1.Readable
  | [], _, _, _, _, _, _ => fun _ h => absurd h List.not_mem_nil
  | _ :: _, _, [], _, _, _, hl => absurd hl (by simp)
  | f :: rest, path, n :: names, hp, hn, hf, hl => by
    rw [List.forall_mem_cons] at hf
    intro x hx
    have hin : ∀ n ∈ f.pathNames, PlainName n := fun n hm =>
      hn n (mem_pathNamesAll.mpr ⟨f, List.mem_cons_self, Or.inr hm⟩)
    have hrest : ∀ n ∈ pathNamesAll rest, PlainName n := fun n hm => by
      obtain ⟨a, ha, hm⟩ := mem_pathNamesAll.mp hm
      exact hn n (mem_pathNamesAll.mpr ⟨a, List.mem_cons_of_mem _ ha, hm⟩)
    rcases List.mem_append.mp hx with hx | hx
    · exact Argument.readable_scalars f (hp.append (Path.readable_field hf.1)) hin x hx
    · exact readable_scalarsAll rest hp hrest hf.2 (Nat.succ.inj hl) x hx

theorem readable_scalarsElem : ∀ (elem : Option Argument) {path : Path}, path.Readable →
    (∀ n ∈ pathNamesElem elem, PlainName n) → ∀ x ∈ scalarsElem path elem, x.1.Readable
  | none, _, _, _ => fun _ h => absurd h List.not_mem_nil
  | some elem, _, hp, hn => Argument.readable_scalars elem hp hn

end

/-! ## The paths of wires -/

/-- The path of a wire can be read back, and so can those of the columns if it is a cursor. -/
structure Wire.Readable (wire : Wire) : Prop where
  path : wire.path.Readable
  columns : ∀ {columns : List Column}, wire.cargo = .cursor columns →
    ∀ c ∈ columns, c.path.Readable

theorem readable_leafWires {e : String × Argument} (he : FieldName e.1)
    (hn : ∀ n ∈ e.2.pathNames, PlainName n) {direction : Direction} {wire : Wire}
    (h : wire ∈ leafWires direction e) : wire.Readable := by
  obtain ⟨-, x, hx, rfl⟩ := mem_leafWires.mp h
  refine ⟨Argument.readable_scalars e.2 (Path.readable_field he) hn x hx, fun hc => ?_⟩
  cases hc

theorem readable_directWires {e : String × Argument} (he : FieldName e.1)
    (hn : ∀ n ∈ e.2.pathNames, PlainName n) {direction : Direction} {wire : Wire}
    (h : wire ∈ directWires direction e) : wire.Readable := by
  obtain ⟨field, name, position, dir, shape⟩ := e
  rcases shape with scalar | _ | ⟨_, elem, _, _ | _⟩
  · rw [List.mem_singleton.mp h]
    exact ⟨Path.readable_field he, fun hc => by cases hc⟩
  · exact absurd h List.not_mem_nil
  · exact absurd h List.not_mem_nil
  · rw [List.mem_singleton.mp h]
    refine ⟨Path.readable_field he, fun hc c hm => ?_⟩
    cases hc
    obtain ⟨x, hx, rfl⟩ := List.mem_map.mp hm
    exact readable_scalarsElem elem (fun _ h => absurd h List.not_mem_nil) hn x hx

namespace Subprogram

variable {f : Subprogram} {e : String × Argument} {wire : Wire}

theorem plain_of_mem_entries (h : ∀ n ∈ f.pathNames, PlainName n) (he : e ∈ f.entries) :
    FieldName e.1 ∧ ∀ n ∈ e.2.pathNames, PlainName n := by
  obtain ⟨hfield, harg⟩ := List.of_mem_zip he
  have hargs : ∀ a ∈ f.args, ∀ n, n = a.name ∨ n ∈ a.pathNames → PlainName n := fun a ha n hn =>
    h n (List.mem_append_left _ (mem_pathNamesAll.mpr ⟨a, ha, hn⟩))
  refine ⟨fieldName_of_mem_fieldNames (fun n hn => ?_) hfield,
    fun n hn => hargs e.2 harg n (Or.inr hn)⟩
  obtain ⟨a, ha, rfl⟩ := List.mem_map.mp hn
  exact hargs a ha _ (Or.inl rfl)

theorem plain_of_mem_returnEntries (h : ∀ n ∈ f.pathNames, PlainName n)
    (he : e ∈ f.returnEntries) : FieldName e.1 ∧ ∀ n ∈ e.2.pathNames, PlainName n := by
  rw [returnEntries_eq] at he
  obtain ⟨ret, hret, rfl⟩ := List.mem_map.mp he
  refine ⟨FieldName.fresh ⟨by decide, by decide, by decide, by decide⟩ _, fun n hn => ?_⟩
  refine h n (List.mem_append_right _ ?_)
  rw [Option.mem_toList.mp hret]
  exact hn

/-- **The paths of wires can be read back**, if the names of arguments and record fields are
plain. -/
theorem readable_of_mem_wires (h : ∀ n ∈ f.pathNames, PlainName n) (hw : wire ∈ f.wires) :
    wire.Readable := by
  obtain ⟨e, direction, he, hw⟩ := source_of_mem_wires hw
  obtain ⟨hf, hn⟩ := he.elim (plain_of_mem_entries h) (plain_of_mem_returnEntries h)
  exact hw.elim (readable_leafWires hf hn) (readable_directWires hf hn)

end Subprogram

end StoredCall
