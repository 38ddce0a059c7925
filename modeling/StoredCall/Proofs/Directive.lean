import StoredCall.Directive
import StoredCall.Proofs.Program
import StoredCall.Subprogram.OfRows

/-!
# What directives do to a subprogram

Directives go through the whole list of subprograms one after the other. Seen from one subprogram, a
directive keeps package, name and overload number, and whether it is about the subprogram hangs on
those alone; so a run of directives can be read off for each subprogram by itself.

* `newName?` is the name that a directive gives to a subprogram, `lastName?` that of a list of them.
* `apply_keeps`: what one directive does; `foldlM_apply_keeps`: what a run does.
* `applyAll_keeps`: the subprograms that are not hidden, each with the last name it was given.
-/

namespace StoredCall

/-- Package, name and overload number. -/
def Subprogram.key (f : Subprogram) : Subprogram.Key := (f.package, f.name, f.overload)

namespace Directive

/-- The name that a directive gives to a subprogram. -/
def newName? (f : Subprogram) (d : Directive) : Option String :=
  match d.action with
  | .rename target newName => if targets target f then some newName else none
  | _ => none

/-- The last name that directives give to a subprogram. -/
def lastName? (ds : List Directive) (f : Subprogram) : Option String :=
  (ds.filterMap (newName? f)).getLast?

theorem lastName?_cons (d : Directive) (ds : List Directive) (f : Subprogram) :
    lastName? (d :: ds) f = (lastName? ds f).or (newName? f d) := by
  unfold lastName?
  cases h : newName? f d with
  | none => rw [List.filterMap_cons_none h, Option.or_none]
  | some name =>
    rw [List.filterMap_cons_some h, List.getLast?_cons]
    cases (ds.filterMap (newName? f)).getLast? <;> rfl

/-! ## What a target stands for -/

section Key

variable {f g : Subprogram} (h : f.key = g.key)

include h

theorem targets_congr (target : String) : targets target f = targets target g := by
  obtain ⟨hpackage, hname, -⟩ : f.package = g.package ∧ f.name = g.name ∧ f.overload = g.overload :=
    by simpa [Subprogram.key] using h
  unfold targets Subprogram.qualifiedName
  rw [hpackage, hname]

theorem newName?_congr (d : Directive) : newName? f d = newName? g d := by
  unfold newName?
  cases d.action <;> simp only [targets_congr h]

theorem lastName?_congr (ds : List Directive) : lastName? ds f = lastName? ds g := by
  unfold lastName?
  rw [funext (newName?_congr h)]

theorem hides_congr (ds : List Directive) : hides ds f = hides ds g := by
  unfold hides
  congr 1
  funext d
  cases d.action <;> simp only [targets_congr h]

end Key

/-! ## Runs of directives -/

/-- A change of subprograms that keeps what they are and gives them names. -/
def Keeps (name? : Subprogram → Option String) (change : Subprogram → Subprogram) : Prop :=
  ∀ f, (change f).key = f.key ∧ (change f).givenName = (name? f).or f.givenName

/-- **One directive** changes each subprogram by itself. -/
theorem apply_keeps {fs fs' : List Subprogram} {d : Directive} (h : apply fs d = .ok fs') :
    ∃ change, fs' = fs.map change ∧ Keeps (fun f => newName? f d) change := by
  obtain ⟨line, action⟩ := d
  cases action with
  | rename target newName =>
    cases h
    refine ⟨_, rfl, fun f => ?_⟩
    by_cases ht : targets target f = true
    · simp [newName?, ht, Subprogram.key]
    · simp [newName?, ht]
  | replace target other format =>
    rw [apply] at h
    simp only at h
    split at h
    · cases h
    · cases h
      refine ⟨_, rfl, fun f => ?_⟩
      split <;> exact ⟨rfl, rfl⟩
  | hide target =>
    cases h
    exact ⟨id, (List.map_id fs).symm, fun f => ⟨rfl, rfl⟩⟩
  | handle package exception =>
    cases h
    refine ⟨_, rfl, fun f => ?_⟩
    split <;> exact ⟨rfl, rfl⟩
  | maxTableSize target size =>
    cases h
    refine ⟨_, rfl, fun f => ?_⟩
    split <;> exact ⟨rfl, rfl⟩
  | tag target tag =>
    cases h
    refine ⟨_, rfl, fun f => ?_⟩
    split <;> exact ⟨rfl, rfl⟩

/-- **A run of directives** gives each subprogram the last of its names. -/
theorem foldlM_apply_keeps {fs fs' : List Subprogram} {ds : List Directive}
    (h : ds.foldlM apply fs = .ok fs') :
    ∃ change, fs' = fs.map change ∧ Keeps (lastName? ds) change := by
  induction ds generalizing fs with
  | nil =>
    obtain rfl : fs = fs' := Except.ok.inj h
    exact ⟨id, (List.map_id fs).symm, fun f => ⟨rfl, rfl⟩⟩
  | cons d ds ih =>
    rw [List.foldlM_cons] at h
    obtain ⟨mid, hmid, h⟩ := except_bind_eq_ok.mp h
    obtain ⟨first, rfl, hfirst⟩ := apply_keeps hmid
    obtain ⟨rest, rfl, hrest⟩ := ih h
    refine ⟨rest ∘ first, List.map_map, fun f => ?_⟩
    obtain ⟨hkey, hname⟩ := hfirst f
    obtain ⟨hkey', hname'⟩ := hrest (first f)
    refine ⟨hkey'.trans hkey, ?_⟩
    rw [Function.comp_apply, hname', hname, lastName?_congr hkey, lastName?_cons, Option.or_assoc]

/-- **What is shown**: the subprograms that are not hidden, in order, each as directives left it. -/
theorem applyAll_keeps {fs fs' : List Subprogram} {ds : List Directive}
    (h : applyAll fs ds = .ok fs') :
    ∃ change, fs' = (fs.filter fun f => !hides ds f).map change ∧ Keeps (lastName? ds) change := by
  obtain ⟨mid, hmid, h⟩ := except_bind_eq_ok.mp h
  obtain ⟨change, rfl, hchange⟩ := foldlM_apply_keeps hmid
  cases h
  refine ⟨change, ?_, hchange⟩
  have hhides : (fun f => !hides ds f) ∘ change = fun f => !hides ds f := by
    funext f
    rw [Function.comp_apply, hides_congr (hchange f).1]
  rw [List.filter_map, hhides]

end Directive

end StoredCall
