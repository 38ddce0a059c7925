import StoredCall.Proofs.Directive

/-!
# Directives, one subprogram at a time

Directives go over the whole list, one after the other, and a replacement is copied out of the list
as it is at that moment. What comes of it can be said for each subprogram by itself: which of the
directives are about it, and which of these count.

* `adjusted`: the last new name and table size, and the tags and exceptions that are new.
* `replacedBy`: the last replacement, as it was just before its directive. Directives are read from
  the last one back, so what replaces the replacement is found in the same way.
* `fault?`: the first directive whose replacement is not in the list.
* `apply_overlaid`: one more directive; `foldlM_apply_overlaid`: a run of them.
* **`applyAll_eq_overlaid`**: the list that directives make of a list, or why they fail.
-/

namespace StoredCall.Directive

/-! ## What directives are about -/

/-- The table size that a directive gives to a subprogram. -/
def newSize? (f : Subprogram) (d : Directive) : Option Nat :=
  match d.action with
  | .maxTableSize target size => if targets target f then some size else none
  | _ => none

/-- The tag that a directive puts on a subprogram. -/
def newTag? (f : Subprogram) (d : Directive) : Option String :=
  match d.action with
  | .tag target tag => if targets target f then some tag else none
  | _ => none

/-- The exception that is swallowed around a subprogram by a directive. -/
def newHandle? (f : Subprogram) (d : Directive) : Option String :=
  match d.action with
  | .handle package exception => if ∀ p ∈ package, f.package = p then some exception else none
  | _ => none

/-- A list followed by those of others that it does not have, each once, in the order they come. -/
def withNew (old others : List String) : List String :=
  old ++ (others.filter fun s => !old.contains s).eraseDups

/-- A subprogram after directives, but for what replaces it. -/
def adjusted (ds : List Directive) (f : Subprogram) : Subprogram :=
  { f with
    givenName := (lastName? ds f).or f.givenName
    maxTableSize := (ds.filterMap (newSize? f)).getLast?.or f.maxTableSize
    tags := withNew f.tags (ds.filterMap (newTag? f))
    handles := withNew f.handles (ds.filterMap (newHandle? f)) }

/-- What replaces a subprogram after directives; `past` lists them from the last one back. The first
of `fs` that the last directive on the subprogram names stands in, as it was before that. -/
def replacedBy (fs : List Subprogram) : (past : List Directive) → Subprogram → Option Replacement
  | [], f => f.replacement
  | d :: past, f =>
    match d.action with
    | .replace target other format =>
      if targets target f then
        (fs.find? (targets other)).map fun g =>
          ⟨{ adjusted past.reverse g with replacement := replacedBy fs past g }, format⟩
      else replacedBy fs past f
    | _ => replacedBy fs past f

/-- A subprogram after directives that went over the list `fs`. -/
def overlaid (fs : List Subprogram) (ds : List Directive) (f : Subprogram) : Subprogram :=
  { adjusted ds f with replacement := replacedBy fs ds.reverse f }

/-- Why a directive fails: none of the subprograms, hidden or not, is the replacement it names. -/
def faultOf? (fs : List Subprogram) (d : Directive) : Option Error :=
  match d.action with
  | .replace _ other _ =>
    if fs.any (targets other) then none else some (.directive d.line (.noReplacement other))
  | _ => none

/-- Why directives fail: the first of them that does. -/
def fault? (fs : List Subprogram) (ds : List Directive) : Option Error :=
  ds.findSome? (faultOf? fs)

/-! ## One more directive -/

section Concat

variable {fs : List Subprogram} {ds : List Directive} {d : Directive}

theorem filterMap_concat {α β : Type} (pick : α → Option β) (xs : List α) (x : α) :
    (xs ++ [x]).filterMap pick = xs.filterMap pick ++ (pick x).toList := by
  rw [List.filterMap_append]
  cases h : pick x <;> simp [h]

/-- The last one of what is picked is picked from the new element, or from those before. -/
theorem getLast?_filterMap_concat {α β : Type} (pick : α → Option β) (xs : List α) (x : α) :
    ((xs ++ [x]).filterMap pick).getLast? = (pick x).or (xs.filterMap pick).getLast? := by
  rw [filterMap_concat]
  cases pick x <;> simp

/-- Adding a text to a list that others were added to. -/
theorem withNew_concat (old others : List String) (s : String) :
    withNew old (others ++ [s]) = addNew s (withNew old others) := by
  unfold withNew addNew
  by_cases hold : s ∈ old
  · simp [hold]
  · by_cases hothers : s ∈ others
    · simp [hold, hothers, List.eraseDups_append, List.removeAll]
    · simp [hold, hothers, List.eraseDups_append, List.eraseDups_cons, List.removeAll]

theorem replacedBy_concat (fs : List Subprogram) (ds : List Directive) (d : Directive)
    (f : Subprogram) : replacedBy fs (ds ++ [d]).reverse f =
      match d.action with
      | .replace target other format =>
        if targets target f then
          (fs.find? (targets other)).map fun g => ⟨overlaid fs ds g, format⟩
        else replacedBy fs ds.reverse f
      | _ => replacedBy fs ds.reverse f := by
  rw [List.reverse_append, List.reverse_singleton, List.singleton_append, replacedBy,
    List.reverse_reverse]
  rfl

/-- One more directive gives a subprogram what it is about, and keeps the rest. -/
theorem overlaid_concat (fs : List Subprogram) (ds : List Directive) (d : Directive)
    (f : Subprogram) : overlaid fs (ds ++ [d]) f =
      { overlaid fs ds f with
        givenName := (newName? f d).or (overlaid fs ds f).givenName
        maxTableSize := (newSize? f d).or (overlaid fs ds f).maxTableSize
        tags := (newTag? f d).elim (overlaid fs ds f).tags (addNew · (overlaid fs ds f).tags)
        handles :=
          (newHandle? f d).elim (overlaid fs ds f).handles (addNew · (overlaid fs ds f).handles)
        replacement := replacedBy fs (ds ++ [d]).reverse f } := by
  have hnew : ∀ (old : List String) (pick : Directive → Option String),
      withNew old ((ds ++ [d]).filterMap pick) = (pick d).elim (withNew old (ds.filterMap pick))
        (addNew · (withNew old (ds.filterMap pick))) := by
    intro old pick
    rw [filterMap_concat]
    cases pick d with
    | none => rw [Option.toList_none, List.append_nil, Option.elim_none]
    | some s => rw [Option.toList_some, withNew_concat, Option.elim_some]
  unfold overlaid adjusted lastName?
  rw [getLast?_filterMap_concat, getLast?_filterMap_concat, hnew, hnew, Option.or_assoc,
    Option.or_assoc]

/-- A directive changes a subprogram as it left the list before. -/
theorem update_overlaid {target : String} {change : Subprogram → Subprogram}
    (h : ∀ f, overlaid fs (ds ++ [d]) f =
      if targets target f then change (overlaid fs ds f) else overlaid fs ds f) :
    update target change (fs.map (overlaid fs ds)) = fs.map (overlaid fs (ds ++ [d])) := by
  rw [update, List.map_map]
  exact List.map_congr_left fun f _ => (h f).symm

/-- The first match is found wherever directives have been. -/
theorem find?_overlaid (fs : List Subprogram) (ds : List Directive) (other : String) :
    (fs.map (overlaid fs ds)).find? (targets other) =
      (fs.find? (targets other)).map (overlaid fs ds) := by
  rw [List.find?_map]
  rfl

/-- **One more directive** on a list that directives have gone over. -/
theorem apply_overlaid (fs : List Subprogram) (ds : List Directive) (d : Directive) :
    apply (fs.map (overlaid fs ds)) d =
      match faultOf? fs d with
      | some e => .error e
      | none => .ok (fs.map (overlaid fs (ds ++ [d]))) := by
  obtain ⟨line, action⟩ := d
  -- In each case the directive is about one field; for the others both sides agree by definition.
  cases action with
  | rename target newName =>
    refine congrArg Except.ok (update_overlaid fun f => ?_)
    rw [overlaid_concat, replacedBy_concat]
    by_cases ht : targets target f = true
    · have hname : newName? f ⟨line, .rename target newName⟩ = some newName := if_pos ht
      rw [if_pos ht, hname]
      rfl
    · have hname : newName? f ⟨line, .rename target newName⟩ = none := if_neg ht
      rw [if_neg ht, hname]
      rfl
  | maxTableSize target size =>
    refine congrArg Except.ok (update_overlaid fun f => ?_)
    rw [overlaid_concat, replacedBy_concat]
    by_cases ht : targets target f = true
    · have hsize : newSize? f ⟨line, .maxTableSize target size⟩ = some size := if_pos ht
      rw [if_pos ht, hsize]
      rfl
    · have hsize : newSize? f ⟨line, .maxTableSize target size⟩ = none := if_neg ht
      rw [if_neg ht, hsize]
      rfl
  | tag target tag =>
    refine congrArg Except.ok (update_overlaid fun f => ?_)
    rw [overlaid_concat, replacedBy_concat]
    by_cases ht : targets target f = true
    · have htag : newTag? f ⟨line, .tag target tag⟩ = some tag := if_pos ht
      rw [if_pos ht, htag]
      rfl
    · have htag : newTag? f ⟨line, .tag target tag⟩ = none := if_neg ht
      rw [if_neg ht, htag]
      rfl
  | handle package exception =>
    refine congrArg Except.ok (List.map_map.trans (List.map_congr_left fun f _ => ?_))
    rw [overlaid_concat, replacedBy_concat, Function.comp_apply]
    have habout : (package.map fun p => decide (f.package = p)).getD true = true ↔
        ∀ p ∈ package, f.package = p := by
      cases package <;> simp
    by_cases hp : ∀ p ∈ package, f.package = p
    · have hhandle : newHandle? f ⟨line, .handle package exception⟩ = some exception := if_pos hp
      rw [hhandle]
      exact if_pos (habout.mpr hp)
    · have hhandle : newHandle? f ⟨line, .handle package exception⟩ = none := if_neg hp
      rw [hhandle]
      exact if_neg (mt habout.mp hp)
  | hide target =>
    refine congrArg Except.ok (List.map_congr_left fun f _ => ?_)
    rw [overlaid_concat, replacedBy_concat]
    rfl
  | replace target other format =>
    unfold apply faultOf?
    simp only [find?_overlaid]
    cases hfind : fs.find? (targets other) with
    | none =>
      have hany : ¬ fs.any (targets other) = true := by
        simpa using List.find?_eq_none.mp hfind
      rw [if_neg hany]
      rfl
    | some g =>
      have hany : fs.any (targets other) = true :=
        List.any_eq_true.mpr ⟨g, List.mem_of_find?_eq_some hfind, List.find?_some hfind⟩
      rw [if_pos hany]
      refine congrArg Except.ok (update_overlaid fun f => ?_)
      rw [overlaid_concat, replacedBy_concat]
      simp only [hfind]
      by_cases ht : targets target f = true
      · rw [if_pos ht, if_pos ht]
        rfl
      · rw [if_neg ht, if_neg ht]
        rfl

end Concat

/-! ## Runs of directives -/

/-- **A run of directives** leaves each subprogram overlaid, or fails at the first directive whose
replacement is missing. -/
theorem foldlM_apply_overlaid (fs : List Subprogram) (ds : List Directive) :
    ds.foldlM apply fs =
      match fault? fs ds with
      | some e => .error e
      | none => .ok (fs.map (overlaid fs ds)) := by
  induction ds using List.reverseRecOn with
  | nil =>
    have hnew : ∀ old, withNew old [] = old := List.append_nil
    have hid : overlaid fs [] = id := funext fun f => by
      cases f
      simp only [overlaid, adjusted, List.filterMap_nil, hnew]
      rfl
    rw [hid, List.map_id]
    rfl
  | append_singleton ds d ih =>
    have hfault : fault? fs (ds ++ [d]) = (fault? fs ds).or (faultOf? fs d) := by
      simp [fault?, List.findSome?_append]
    rw [List.foldlM_append, ih, hfault]
    cases fault? fs ds with
    | some e => rfl
    | none =>
      rw [Option.none_or]
      show List.foldlM apply (fs.map (overlaid fs ds)) [d] = _
      rw [List.foldlM_cons, apply_overlaid]
      cases faultOf? fs d <;> rfl

/-- **Directives overlay each subprogram by itself.** They fail exactly if one of them names a
replacement that is not in the list, hidden or not, with the line of the first such directive.
Otherwise they give the subprograms that none of them hides, in order: each keeps what it is, has
the last name and table size given to it, its tags and exceptions followed by the new ones, and the
last replacement as that was just before its directive. -/
theorem applyAll_eq_overlaid (fs : List Subprogram) (ds : List Directive) :
    applyAll fs ds =
      match fault? fs ds with
      | some e => .error e
      | none => .ok ((fs.filter fun f => !hides ds f).map (overlaid fs ds)) := by
  rw [applyAll, foldlM_apply_overlaid]
  cases fault? fs ds with
  | some e => rfl
  | none =>
    show Except.ok ((fs.map (overlaid fs ds)).filter fun f => !hides ds f) = _
    rw [List.filter_map]
    rfl

/-- A hidden subprogram still replaces another one, with the tags that it had by then. -/
example :
    (applyAll [{ package := "PKG", name := "LOAD" }, { package := "PKG", name := "LOAD_XML" }]
      [⟨1, .tag "LOAD_XML" "bulk"⟩, ⟨2, .replace "PKG.LOAD" "LOAD_XML" .xml⟩,
        ⟨3, .tag "PKG.LOAD_XML" "slow"⟩, ⟨4, .hide "LOAD_XML"⟩]).map (fun fs => fs.map fun f =>
      (f.name, f.replacement.map fun r => (r.subprogram.name, r.subprogram.tags))) =
    .ok [("LOAD", some ("LOAD_XML", ["bulk"]))] := by decide +kernel

end StoredCall.Directive
