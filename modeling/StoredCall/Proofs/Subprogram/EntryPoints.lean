import StoredCall.Proofs.Assoc
import StoredCall.Proofs.Directive
import StoredCall.Proofs.Stub.Names
import StoredCall.Subprogram.Fill

/-!
# Entry points

The entry point of a subprogram is spelled from its name and overload number, or from the name that
it was given. Nothing compares entry points with each other, so two subprograms of a package can end
up with one.

* `FromRows`: subprograms built from catalog rows; no two are of one name and overload number.
* `Clash`: the four ways in which two subprograms get the same entry point.
* **`nodup_entryPoints_iff`**: entry points differ exactly if no two of the subprograms shown clash.
* `get_shares_entryPoint`: the second overload of `GET` meets a procedure `GET_2`.
-/

namespace StoredCall.Subprogram

open Text Directive

/-! ## Subprograms from rows -/

/-- Subprograms are built from rows, whether declared types are filled in or not. -/
inductive FromRows (wanted : Selection) (rows : List ArgRow) (fs : List Subprogram) : Prop where
  | plain (h : allOfRows wanted rows = .ok fs)
  | filled (c : Catalog) (g g' : TypeGraph) (h : Gives (allFilled c wanted rows) g fs g')

theorem keyed_groups (wanted : Selection) (rows : List ArgRow) :
    Assoc.Keyed (groups wanted rows) := by
  rw [groups, Assoc.Keyed, List.map_map]
  exact Assoc.keyed_group ArgRow.key _

theorem built_of_ofRows {key : Key} {rows : List ArgRow} {f : Subprogram}
    (h : ofRows key rows = .ok f) : f.key = key ∧ f.givenName = none := by
  obtain ⟨d, -, h⟩ := except_bind_eq_ok.mp h
  cases h
  exact ⟨rfl, rfl⟩

theorem built_of_fill {c : Catalog} {f f' : Subprogram} {g g' : TypeGraph}
    (h : Gives (fill c f) g f' g') : f'.key = f.key ∧ f'.givenName = f.givenName := by
  obtain ⟨args, g₁, -, h⟩ := gives_bind.mp h
  obtain ⟨returns, g₂, -, h⟩ := gives_bind.mp h
  obtain ⟨rfl, -⟩ := gives_pure.mp h
  exact ⟨rfl, rfl⟩

/-- Each group of rows gives one subprogram of its key, without a given name. -/
theorem FromRows.built {wanted : Selection} {rows : List ArgRow} {fs : List Subprogram}
    (h : FromRows wanted rows fs) :
    List.Forall₂ (fun e f => f.key = e.1 ∧ f.givenName = none) (groups wanted rows) fs := by
  cases h with
  | plain h => exact (forall₂_of_mapM h).imp fun e f hf => built_of_ofRows hf
  | filled c g g' h =>
    refine (forall₂_of_gives_mapM h).imp fun e f hf => ?_
    obtain ⟨g₁, g₂, hf⟩ := hf
    obtain ⟨f₀, g₃, hrows, hfill⟩ := gives_bind.mp hf
    obtain ⟨hkey, hname⟩ := built_of_ofRows (gives_ofExcept.mp hrows).1
    obtain ⟨hkey', hname'⟩ := built_of_fill hfill
    exact ⟨hkey'.trans hkey, hname'.trans hname⟩

section Built

variable {wanted : Selection} {rows : List ArgRow} {fs : List Subprogram}

/-- Package, name and overload number tell the subprograms of rows apart. -/
theorem FromRows.pairwise_key (h : FromRows wanted rows fs) :
    fs.Pairwise fun f g => f.key ≠ g.key := by
  have hkeys : List.Forall₂ (· = ·) (fs.map key) ((groups wanted rows).map Prod.fst) :=
    List.forall₂_map_left_iff.mpr
      (List.forall₂_map_right_iff.mpr (h.built.flip.imp fun f e hf => hf.1))
  rw [List.forall₂_eq_eq_eq] at hkeys
  have hnodup : (fs.map key).Nodup := hkeys ▸ keyed_groups wanted rows
  exact List.pairwise_map.mp hnodup

theorem FromRows.givenName_eq_none (h : FromRows wanted rows fs) {f : Subprogram} (hf : f ∈ fs) :
    f.givenName = none := by
  obtain ⟨e, -, -, hname⟩ := exists_of_forall₂ h.built.flip hf
  exact hname

end Built

/-! ## Spelling -/

section Ident

variable {f g : Subprogram}

/-- The entry point that directives leave a subprogram. -/
def identAfter (ds : List Directive) (f : Subprogram) : String :=
  match lastName? ds f with
  | some name => snake name
  | none => f.ident

theorem identAfter_of_some {ds : List Directive} {name : String} (h : lastName? ds f = some name) :
    identAfter ds f = snake name := by
  rw [identAfter, h]

theorem identAfter_of_none {ds : List Directive} (h : lastName? ds f = none) :
    identAfter ds f = f.ident := by
  rw [identAfter, h]

/-- Entry points hang on the given name, the name and the overload number. -/
theorem ident_of_keeps {ds : List Directive} {change : Subprogram → Subprogram}
    (h : Keeps (lastName? ds) change) (hf : f.givenName = none) :
    (change f).ident = identAfter ds f := by
  obtain ⟨hkey, hgiven⟩ := h f
  obtain ⟨-, hname, hoverload⟩ : (change f).package = f.package ∧ (change f).name = f.name ∧
      (change f).overload = f.overload := by simpa [key] using hkey
  rw [hf, Option.or_none] at hgiven
  rw [identAfter, ident, ident, hgiven, hname, hoverload, hf]
  cases lastName? ds f <;> rfl

/-- The number after a name can be told from the entry point. -/
theorem numbered_inj {s t : String} {m n : UInt32}
    (h : s ++ "_" ++ toString m.toNat = t ++ "_" ++ toString n.toNat) : s = t ∧ m = n := by
  have hlist : s.toList ++ '_' :: (toString m.toNat).toList =
      t.toList ++ '_' :: (toString n.toNat).toList := by
    simpa [String.toList_append] using congrArg String.toList h
  have hnumber := Scope.eq_of_append_underscore hlist
    (Scope.underscore_notMem_toString _) (Scope.underscore_notMem_toString _)
  refine ⟨String.toList_inj.mp ?_, ?_⟩
  · rw [hnumber] at hlist
    exact List.append_cancel_right hlist
  · rw [String.toList_inj, Nat.toString_eq_repr, Nat.toString_eq_repr] at hnumber
    exact UInt32.toNat_inj.mp (Nat.repr_injective hnumber)

end Ident

/-! ## Clashes -/

/-- Two subprograms of a package get the same entry point from directives, as far as it goes from
the first to the second. -/
inductive Clash (ds : List Directive) (f g : Subprogram) : Prop where
  /-- Both are renamed, perhaps as overloads by one directive, to names that are spelled alike. -/
  | renamed (a b : String) (hf : lastName? ds f = some a) (hg : lastName? ds g = some b)
      (h : snake a = snake b)
  /-- One is renamed to the entry point that the other one has. -/
  | taken (a : String) (hf : lastName? ds f = some a) (hg : lastName? ds g = none)
      (h : snake a = g.ident)
  /-- Two names are spelled alike, and are not told apart by a number. -/
  | spelled (hf : lastName? ds f = none) (hg : lastName? ds g = none) (hname : f.name ≠ g.name)
      (hoverload : f.overload = g.overload) (h : snake f.name = snake g.name)
  /-- A name with an overload number is spelled like another name. -/
  | numbered (n : UInt32) (hf : lastName? ds f = none) (hg : lastName? ds g = none)
      (hoverload : f.overload = some n) (hnone : g.overload = none)
      (h : snake f.name ++ "_" ++ toString n.toNat = snake g.name)

section Clash

variable {ds : List Directive} {f g : Subprogram}

theorem Clash.identAfter_eq (h : Clash ds f g) (hf : f.givenName = none)
    (hg : g.givenName = none) : identAfter ds f = identAfter ds g := by
  cases h with
  | renamed a b ha hb hsnake => rw [identAfter_of_some ha, identAfter_of_some hb, hsnake]
  | taken a ha hb hsnake => rw [identAfter_of_some ha, identAfter_of_none hb, hsnake]
  | spelled ha hb hname hoverload hsnake =>
    rw [identAfter_of_none ha, identAfter_of_none hb, ident, ident, hf, hg, hoverload, hsnake]
  | numbered n ha hb hoverload hnone hsnake =>
    rw [identAfter_of_none ha, identAfter_of_none hb, ident, ident, hf, hg, hoverload, hnone]
    exact hsnake

/-- Subprograms that are not renamed share an entry point only if it is spelled from different
names. -/
theorem clash_of_ident_eq (hkey : f.key ≠ g.key) (hpackage : f.package = g.package)
    (hf : f.givenName = none) (hg : g.givenName = none) (hnf : lastName? ds f = none)
    (hng : lastName? ds g = none) (h : f.ident = g.ident) : Clash ds f g ∨ Clash ds g f := by
  have hname : f.overload = g.overload → f.name ≠ g.name := fun ho hn =>
    hkey (by rw [key, key, hpackage, hn, ho])
  rw [ident, ident, hf, hg] at h
  cases hfo : f.overload with
  | none =>
    cases hgo : g.overload with
    | none =>
      have ho : f.overload = g.overload := hfo.trans hgo.symm
      rw [hfo, hgo] at h
      exact .inl (.spelled hnf hng (hname ho) ho h)
    | some n =>
      rw [hfo, hgo] at h
      exact .inr (.numbered n hng hnf hgo hfo h.symm)
  | some m =>
    cases hgo : g.overload with
    | none =>
      rw [hfo, hgo] at h
      exact .inl (.numbered m hnf hng hfo hgo h)
    | some n =>
      rw [hfo, hgo] at h
      obtain ⟨hsnake, rfl⟩ := numbered_inj h
      have ho : f.overload = g.overload := hfo.trans hgo.symm
      exact .inl (.spelled hnf hng (hname ho) ho hsnake)

/-- **Two subprograms share an entry point exactly if they clash.** -/
theorem identAfter_eq_iff (hkey : f.key ≠ g.key) (hpackage : f.package = g.package)
    (hf : f.givenName = none) (hg : g.givenName = none) :
    identAfter ds f = identAfter ds g ↔ Clash ds f g ∨ Clash ds g f := by
  constructor
  · intro h
    cases hnf : lastName? ds f with
    | some a =>
      cases hng : lastName? ds g with
      | some b =>
        rw [identAfter_of_some hnf, identAfter_of_some hng] at h
        exact .inl (.renamed a b hnf hng h)
      | none =>
        rw [identAfter_of_some hnf, identAfter_of_none hng] at h
        exact .inl (.taken a hnf hng h)
    | none =>
      cases hng : lastName? ds g with
      | some b =>
        rw [identAfter_of_none hnf, identAfter_of_some hng] at h
        exact .inr (.taken b hng hnf h.symm)
      | none =>
        rw [identAfter_of_none hnf, identAfter_of_none hng] at h
        exact clash_of_ident_eq hkey hpackage hf hg hnf hng h
  · rintro (h | h)
    · exact h.identAfter_eq hf hg
    · exact (h.identAfter_eq hg hf).symm

end Clash

/-! ## All entry points -/

/-- The entry points with their packages. -/
def entryPoints (fs : List Subprogram) : List (String × String) :=
  fs.map fun f => (f.package, f.ident)

theorem entryPoints_of_keeps {ds : List Directive} {change : Subprogram → Subprogram}
    (h : Keeps (lastName? ds) change) {fs : List Subprogram} (hfs : ∀ f ∈ fs, f.givenName = none) :
    entryPoints (fs.map change) = fs.map fun f => (f.package, identAfter ds f) := by
  rw [entryPoints, List.map_map]
  refine List.map_congr_left fun f hf => ?_
  have hpackage : (change f).package = f.package := congrArg Prod.fst (h f).1
  rw [Function.comp_apply, hpackage, ident_of_keeps h (hfs f hf)]

/-- **Entry points differ exactly if no two of the subprograms shown clash.** -/
theorem nodup_entryPoints_iff {wanted : Selection} {rows : List ArgRow} {built fs : List Subprogram}
    {ds : List Directive} (hrows : FromRows wanted rows built) (h : applyAll built ds = .ok fs) :
    (entryPoints fs).Nodup ↔ (built.filter fun f => !hides ds f).Pairwise fun f g =>
      f.package = g.package → ¬ (Clash ds f g ∨ Clash ds g f) := by
  obtain ⟨change, rfl, hchange⟩ := applyAll_keeps h
  have hunnamed : ∀ f ∈ built.filter fun f => !hides ds f, f.givenName = none := fun f hf =>
    hrows.givenName_eq_none (List.mem_filter.mp hf).1
  have hkeys := hrows.pairwise_key.sublist (List.filter_sublist (p := fun f => !hides ds f))
  rw [entryPoints_of_keeps hchange hunnamed, List.Nodup, List.pairwise_map]
  have hiff : ∀ f ∈ built.filter fun f => !hides ds f, ∀ g ∈ built.filter fun f => !hides ds f,
      f.key ≠ g.key → ((f.package, identAfter ds f) ≠ (g.package, identAfter ds g) ↔
        (f.package = g.package → ¬ (Clash ds f g ∨ Clash ds g f))) := by
    intro f hf g hg hkey
    rw [ne_eq, Prod.mk.injEq, not_and]
    refine forall_congr' fun hpackage => not_congr ?_
    exact identAfter_eq_iff hkey hpackage (hunnamed f hf) (hunnamed g hg)
  constructor
  · intro hapart
    exact (hapart.and hkeys).imp_of_mem fun hf hg hboth => (hiff _ hf _ hg hboth.2).mp hboth.1
  · intro hapart
    exact (hapart.and hkeys).imp_of_mem fun hf hg hboth => (hiff _ hf _ hg hboth.2).mpr hboth.1

/-- A row that says of a subprogram of the package `STORE` that it has no arguments. -/
def storeRow (object : String) (overload : Option UInt32) : ArgRow :=
  { package := "STORE", object, overload }

/-- Two overloads of `GET`, and two procedures whose names are spelled alike, one of which is hidden
and the other renamed. -/
def storeRows : List ArgRow :=
  [storeRow "GET" (some 1), storeRow "GET" (some 2), storeRow "PUT$ALL" none,
    storeRow "PUT_ALL" none, storeRow "PUT_2" none]

/-- Directives under which all entry points of `storeRows` differ. -/
def storeDirectives : List Directive :=
  [⟨1, .rename "STORE.PUT_ALL" "put_2"⟩, ⟨2, .rename "PUT_ALL" "PutEvery"⟩, ⟨3, .hide "PUT$ALL"⟩]

theorem store_nodup_entryPoints : ∃ built fs, FromRows {} storeRows built ∧
    applyAll built storeDirectives = .ok fs ∧
    entryPoints fs = [("STORE", "get_1"), ("STORE", "get_2"), ("STORE", "put_every"),
      ("STORE", "put_2")] ∧
    (built.filter fun f => !hides storeDirectives f).Pairwise fun f g =>
      f.package = g.package → ¬ (Clash storeDirectives f g ∨ Clash storeDirectives g f) := by
  have hrun : (do
      let built ← allOfRows {} storeRows
      let fs ← applyAll built storeDirectives
      return entryPoints fs) = .ok [("STORE", "get_1"), ("STORE", "get_2"),
        ("STORE", "put_every"), ("STORE", "put_2")] := by decide +kernel
  obtain ⟨built, hbuilt, hrun⟩ := except_bind_eq_ok.mp hrun
  obtain ⟨fs, hfs, hrun⟩ := except_bind_eq_ok.mp hrun
  have hentries := Except.ok.inj hrun
  refine ⟨built, fs, .plain hbuilt, hfs, hentries, ?_⟩
  refine (nodup_entryPoints_iff (.plain hbuilt) hfs).mp ?_
  rw [hentries]
  decide

/-- **Entry points are not unique**: the second overload of `GET` has the one of `GET_2`. -/
theorem get_shares_entryPoint : ∃ fs,
    FromRows {} [storeRow "GET" (some 1), storeRow "GET" (some 2), storeRow "GET_2" none] fs ∧
    applyAll fs [] = .ok fs ∧
    entryPoints fs = [("STORE", "get_1"), ("STORE", "get_2"), ("STORE", "get_2")] ∧
    ¬ (entryPoints fs).Nodup := by
  have hrun : (do
      let fs ← allOfRows {}
        [storeRow "GET" (some 1), storeRow "GET" (some 2), storeRow "GET_2" none]
      return entryPoints fs) =
        .ok [("STORE", "get_1"), ("STORE", "get_2"), ("STORE", "get_2")] := by
    decide +kernel
  obtain ⟨fs, hfs, hrun⟩ := except_bind_eq_ok.mp hrun
  have hentries := Except.ok.inj hrun
  refine ⟨fs, .plain hfs, ?_, hentries, ?_⟩
  · show Except.ok (fs.filter fun _ => true) = _
    rw [List.filter_true]
  · rw [hentries]
    decide

end StoredCall.Subprogram
