import Mathlib

/-!
# Programs that change a state and may fail

Many programs here may fail and change a state. A run is opened one step at a time.

* `Gives x w a w'`: the program `x` succeeds at the state `w` with `a` and leaves `w'`.
* `run_bind`: what a run of two programs is, whether or not the first one fails.
* `gives_bind`: a run of two programs is a run of the first and then one of the second;
  `except_bind_eq_ok` says the same of programs that only fail.
* `Ends x w ok fail` also says what holds after a run that fails; `ends_bind` and its like work out
  what has to hold before a program.
* `Moves R x`: every run keeps to a relation between states; `Moves.bind` puts such programs
  together.
* `Alike S x w v`: runs from two states come to the same and leave related states; `alike_bind` puts
  such programs together.
* `Comes x w post` is the same as `Ends` for programs that cannot fail.
* `Settles body look y`: a program that calls itself comes to an end, with `y`.
* `forall₂_of_mapM` and `forall₂_of_gives_mapM`: a program that goes through a list makes one result
  of each element, and `exists_of_forall₂` finds the one of an element; `mapM_of_perm`: the order of
  the elements only shows in the order of the results.
-/

namespace StoredCall

variable {ε σ α β : Type}

theorem except_bind_eq_ok {x : Except ε α} {f : α → Except ε β} {b : β} :
    (x >>= f) = .ok b ↔ ∃ a, x = .ok a ∧ f a = .ok b := by
  cases x <;> simp [bind, Except.bind]

theorem except_bind_eq_error {x : Except ε α} {f : α → Except ε β} {e : ε} :
    (x >>= f) = .error e ↔ x = .error e ∨ ∃ a, x = .ok a ∧ f a = .error e := by
  cases x <;> simp [bind, Except.bind]

theorem run_of_fst {x : ExceptT ε (StateM σ) α} {w : σ} {r : Except ε α} (h : (x.run w).1 = r) :
    x.run w = (r, (x.run w).2) := Prod.ext h rfl

/-- A program succeeds at `w` with `a` and leaves `w'`. -/
def Gives (x : ExceptT ε (StateM σ) α) (w : σ) (a : α) (w' : σ) : Prop := x.run w = (.ok a, w')

theorem gives_of_fst {x : ExceptT ε (StateM σ) α} {w : σ} {a : α} (h : (x.run w).1 = .ok a) :
    Gives x w a (x.run w).2 := run_of_fst h

theorem gives_pure {a b : α} {w w' : σ} :
    Gives (pure a : ExceptT ε (StateM σ) α) w b w' ↔ b = a ∧ w' = w := by
  show ((Except.ok a, w) : Except ε α × σ) = (.ok b, w') ↔ _
  simp only [Prod.mk.injEq, Except.ok.injEq]
  exact and_congr eq_comm eq_comm

/-- A program goes on with the result and the state of the first part, unless that failed. -/
theorem run_bind (x : ExceptT ε (StateM σ) α) (f : α → ExceptT ε (StateM σ) β) (w : σ) :
    (x >>= f).run w = match x.run w with
      | (.ok a, w₁) => (f a).run w₁
      | (.error e, w₁) => (.error e, w₁) := by
  show (ExceptT.bindCont f (x.run w).1) (x.run w).2 = _
  rcases x.run w with ⟨_ | a, w₁⟩ <;> rfl

/-- A program that reads the state goes on from it. -/
theorem run_get_bind (f : σ → ExceptT ε (StateM σ) α) (w : σ) :
    (get >>= f : ExceptT ε (StateM σ) α).run w = (f w).run w := rfl

theorem run_ofExcept (x : Except ε α) (w : σ) :
    (ofExcept x : ExceptT ε (StateM σ) α).run w = (x, w) := by
  cases x <;> rfl

/-- **A run of two programs is a run of the first and then one of the second.** -/
theorem gives_bind {x : ExceptT ε (StateM σ) α} {f : α → ExceptT ε (StateM σ) β} {w w' : σ}
    {b : β} :
    Gives (x >>= f) w b w' ↔ ∃ a w₁, Gives x w a w₁ ∧ Gives (f a) w₁ b w' := by
  unfold Gives
  rw [run_bind]
  constructor
  · intro h
    rcases hx : x.run w with ⟨_ | a, w₁⟩
    · rw [hx] at h
      cases h
    · rw [hx] at h
      exact ⟨a, w₁, rfl, h⟩
  · rintro ⟨a, w₁, hx, h⟩
    rw [hx]
    exact h

theorem not_gives_throw {e : ε} {w w' : σ} {a : α} :
    ¬ Gives (throw e : ExceptT ε (StateM σ) α) w a w' := by
  intro h
  have h : ((Except.error e, w) : Except ε α × σ) = (.ok a, w') := h
  simp at h

theorem gives_ofExcept {x : Except ε α} {w w' : σ} {a : α} :
    Gives (ofExcept x : ExceptT ε (StateM σ) α) w a w' ↔ x = .ok a ∧ w' = w := by
  cases x with
  | error e =>
    refine ⟨fun h => absurd h not_gives_throw, fun h => ?_⟩
    exact absurd h.1 (by simp)
  | ok b =>
    show Gives (pure b : ExceptT ε (StateM σ) α) w a w' ↔ _
    rw [gives_pure, Except.ok.injEq]
    exact and_congr eq_comm Iff.rfl

theorem gives_modifyGet {f : σ → α × σ} {w w' : σ} {a : α} :
    Gives (modifyGet f : ExceptT ε (StateM σ) α) w a w' ↔ a = (f w).1 ∧ w' = (f w).2 := by
  show ((Except.ok (f w).1, (f w).2) : Except ε α × σ) = (.ok a, w') ↔ _
  simp only [Prod.mk.injEq, Except.ok.injEq]
  exact and_congr eq_comm eq_comm

theorem gives_modify {f : σ → σ} {w w' : σ} {u : Unit} :
    Gives (modify f : ExceptT ε (StateM σ) Unit) w u w' ↔ w' = f w := by
  refine (gives_modifyGet (f := fun w => ((), f w))).trans ?_
  simp

theorem gives_get {w w' v : σ} :
    Gives (get : ExceptT ε (StateM σ) σ) w v w' ↔ v = w ∧ w' = w :=
  gives_modifyGet (f := fun w => (w, w))

/-! ## Runs that may fail -/

/-- A run from `w` succeeds as `ok` says, or fails as `fail` says. -/
def Ends (x : ExceptT ε (StateM σ) α) (w : σ) (ok : α → σ → Prop) (fail : ε → σ → Prop) : Prop :=
  match x.run w with
  | (.ok a, w') => ok a w'
  | (.error e, w') => fail e w'

section Ends

variable {x : ExceptT ε (StateM σ) α} {w : σ} {ok ok' : α → σ → Prop} {fail fail' : ε → σ → Prop}

theorem Ends.mono (h : Ends x w ok fail) (hok : ∀ a w', ok a w' → ok' a w')
    (hfail : ∀ e w', fail e w' → fail' e w') : Ends x w ok' fail' := by
  unfold Ends at h ⊢
  rcases hx : x.run w with ⟨e | a, w'⟩
  · rw [hx] at h
    exact hfail e w' h
  · rw [hx] at h
    exact hok a w' h

/-- A run ends as it does. -/
theorem ends_run (x : ExceptT ε (StateM σ) α) (w : σ) :
    Ends x w (fun a w' => x.run w = (.ok a, w')) (fun e w' => x.run w = (.error e, w')) := by
  unfold Ends
  rcases x.run w with ⟨e | a, w'⟩ <;> rfl

theorem ends_pure {a : α} : Ends (pure a : ExceptT ε (StateM σ) α) w ok fail ↔ ok a w := Iff.rfl

theorem ends_throw {e : ε} : Ends (throw e : ExceptT ε (StateM σ) α) w ok fail ↔ fail e w := Iff.rfl

theorem ends_bind {f : α → ExceptT ε (StateM σ) β} {ok : β → σ → Prop} :
    Ends (x >>= f) w ok fail ↔ Ends x w (fun a w' => Ends (f a) w' ok fail) fail := by
  unfold Ends
  rw [run_bind]
  rcases x.run w with ⟨_ | a, w'⟩ <;> rfl

theorem ends_tryCatch {handle : ε → ExceptT ε (StateM σ) α} :
    Ends (tryCatch x handle) w ok fail ↔
      Ends x w ok (fun e w' => Ends (handle e) w' ok fail) := by
  have hrun : (tryCatch x handle).run w = match x.run w with
      | (.ok a, w') => (.ok a, w')
      | (.error e, w') => (handle e).run w' := by
    show (match (x.run w).1 with
      | .ok a => (pure (.ok a) : StateM σ (Except ε α))
      | .error e => handle e) (x.run w).2 = _
    rcases x.run w with ⟨_ | a, w'⟩ <;> rfl
  unfold Ends
  rw [hrun]
  rcases x.run w with ⟨_ | a, w'⟩ <;> rfl

theorem ends_discard {ok : Unit → σ → Prop} :
    Ends (discard x) w ok fail ↔ Ends x w (fun _ => ok ()) fail := by
  have hrun : (discard x).run w = match x.run w with
      | (.ok _, w') => (.ok (), w')
      | (.error e, w') => (.error e, w') := by
    show (match (x.run w).1 with
      | .ok _ => (pure (.ok ()) : StateM σ (Except ε Unit))
      | .error e => pure (.error e)) (x.run w).2 = _
    rcases x.run w with ⟨_ | a, w'⟩ <;> rfl
  unfold Ends
  rw [hrun]
  rcases x.run w with ⟨_ | a, w'⟩ <;> rfl

theorem ends_bind_discard {f : α → ExceptT ε (StateM σ) β} {ok : Unit → σ → Prop} :
    Ends (x >>= fun a => discard (f a)) w ok fail ↔ Ends (x >>= f) w (fun _ => ok ()) fail := by
  simp only [ends_bind, ends_discard]

theorem ends_get {ok : σ → σ → Prop} :
    Ends (get : ExceptT ε (StateM σ) σ) w ok fail ↔ ok w w := Iff.rfl

theorem ends_modify {f : σ → σ} {ok : Unit → σ → Prop} :
    Ends (modify f : ExceptT ε (StateM σ) Unit) w ok fail ↔ ok () (f w) := Iff.rfl

theorem ends_lift {y : StateM σ α} :
    Ends (liftM y : ExceptT ε (StateM σ) α) w ok fail ↔ ok (y.run w).1 (y.run w).2 := Iff.rfl

theorem Ends.of_gives {a : α} {w' : σ} (h : Ends x w ok fail) (hx : Gives x w a w') : ok a w' := by
  unfold Ends at h
  rwa [hx] at h

/-- A run that cannot fail succeeds. -/
theorem Ends.exists_gives (h : Ends x w ok fail) (hfail : ∀ e w', ¬ fail e w') :
    ∃ a w', Gives x w a w' ∧ ok a w' := by
  unfold Ends at h
  rcases hx : x.run w with ⟨e | a, w'⟩
  · rw [hx] at h
    exact absurd h (hfail e w')
  · rw [hx] at h
    exact ⟨a, w', hx, h⟩

/-- A run that cannot succeed fails. -/
theorem Ends.exists_error (h : Ends x w ok fail) (hok : ∀ a w', ¬ ok a w') :
    ∃ e w', x.run w = (.error e, w') ∧ fail e w' := by
  unfold Ends at h
  rcases hx : x.run w with ⟨e | a, w'⟩
  · rw [hx] at h
    exact ⟨e, w', rfl, h⟩
  · rw [hx] at h
    exact absurd h (hok a w')

/-- What holds at every end of a run holds of what it comes to and the state it leaves. -/
theorem Ends.result {P : Except ε α → σ → Prop}
    (h : Ends x w (fun a => P (.ok a)) (fun e => P (.error e))) : P (x.run w).1 (x.run w).2 := by
  unfold Ends at h
  rcases hx : x.run w with ⟨e | a, w'⟩ <;> rwa [hx] at h

/-- What holds after every end of a run holds of the state it leaves. -/
theorem Ends.state {P : σ → Prop} (h : Ends x w (fun _ => P) (fun _ => P)) : P (x.run w).2 :=
  Ends.result (P := fun _ => P) h

end Ends

/-! ## Runs that keep to a relation -/

/-- However a run ends, the state it leaves is related to the one it started from. -/
def Moves (R : σ → σ → Prop) (x : ExceptT ε (StateM σ) α) : Prop :=
  ∀ w, Ends x w (fun _ => R w) (fun _ => R w)

/-- A relation may suppose something of the state that a run starts from. -/
theorem moves_imp_iff {I : σ → Prop} {S : σ → σ → Prop} {x : ExceptT ε (StateM σ) α} :
    Moves (fun w w' => I w → S w w') x ↔
      ∀ w, I w → Ends x w (fun _ => S w) (fun _ => S w) := by
  constructor
  · exact fun h w hw => (h w).mono (fun _ _ hS => hS hw) (fun _ _ hS => hS hw)
  · intro h w
    by_cases hw : I w
    · exact (h w hw).mono (fun _ _ hS _ => hS) (fun _ _ hS _ => hS)
    · unfold Ends
      split <;> exact fun hI => absurd hI hw

section Moves

variable {R : σ → σ → Prop} [IsPreorder σ R]

theorem moves_pure (a : α) : Moves R (pure a : ExceptT ε (StateM σ) α) :=
  fun w => ends_pure.mpr (refl_of R w)

theorem moves_throw (e : ε) : Moves R (throw e : ExceptT ε (StateM σ) α) :=
  fun w => ends_throw.mpr (refl_of R w)

theorem moves_ofExcept (x : Except ε α) : Moves R (ofExcept x : ExceptT ε (StateM σ) α) := by
  cases x with
  | error e => exact moves_throw e
  | ok a => exact moves_pure a

theorem moves_get : Moves R (get : ExceptT ε (StateM σ) σ) := fun w => ends_get.mpr (refl_of R w)

theorem Moves.bind {x : ExceptT ε (StateM σ) α} {f : α → ExceptT ε (StateM σ) β} (hx : Moves R x)
    (hf : ∀ a, Moves R (f a)) : Moves R (x >>= f) := by
  intro w
  refine ends_bind.mpr ((hx w).mono (fun a w₁ h₁ => ?_) (fun _ _ h => h))
  exact (hf a w₁).mono (fun _ _ h₂ => trans_of R h₁ h₂) (fun _ _ h₂ => trans_of R h₁ h₂)

end Moves

/-! ## Runs from two states -/

/-- A program comes to the same from two states, and leaves states that are related. -/
def Alike (S : σ → σ → Prop) (x : ExceptT ε (StateM σ) α) (w v : σ) : Prop :=
  (x.run w).1 = (x.run v).1 ∧ S (x.run w).2 (x.run v).2

section Alike

variable {S : σ → σ → Prop} {w v : σ}

theorem alike_pure (h : S w v) (a : α) : Alike S (pure a : ExceptT ε (StateM σ) α) w v := ⟨rfl, h⟩

theorem alike_throw (h : S w v) (e : ε) : Alike S (throw e : ExceptT ε (StateM σ) α) w v := ⟨rfl, h⟩

theorem alike_bind {x : ExceptT ε (StateM σ) α} {f : α → ExceptT ε (StateM σ) β}
    (hx : Alike S x w v)
    (hf : ∀ a w' v', Gives x v a v' → S w' v' → Alike S (f a) w' v') : Alike S (x >>= f) w v := by
  unfold Alike at hx ⊢
  rw [run_bind, run_bind]
  rcases hw : x.run w with ⟨o, w'⟩
  rcases hv : x.run v with ⟨o', v'⟩
  rw [hw, hv] at hx
  obtain ⟨rfl, hS⟩ := hx
  cases o with
  | error e => exact ⟨rfl, hS⟩
  | ok a => exact hf a w' v' hv hS

theorem alike_discard {x : ExceptT ε (StateM σ) α} (hx : Alike S x w v) :
    Alike S (discard x) w v :=
  alike_bind hx fun _ _ _ _ hS => alike_pure hS ()

/-- What is read off two states is the same. -/
theorem alike_ofExcept_get {f : σ → Except ε α} (h : S w v) (hf : f w = f v) :
    Alike S (do ofExcept (f (← get)) : ExceptT ε (StateM σ) α) w v := by
  have hrun : ∀ u : σ, (do ofExcept (f (← get)) : ExceptT ε (StateM σ) α).run u = (f u, u) :=
    fun u => run_ofExcept (f u) u
  unfold Alike
  rw [hrun, hrun]
  exact ⟨hf, h⟩

end Alike

/-! ## Runs that cannot fail -/

/-- A run from `w` comes out as `post` says. -/
def Comes (x : StateM σ α) (w : σ) (post : α → σ → Prop) : Prop := post (x.run w).1 (x.run w).2

section Comes

variable {x : StateM σ α} {w : σ} {post post' : α → σ → Prop}

theorem Comes.mono (h : Comes x w post) (hpost : ∀ a w', post a w' → post' a w') :
    Comes x w post' := hpost _ _ h

theorem comes_pure {a : α} : Comes (pure a : StateM σ α) w post ↔ post a w := Iff.rfl

theorem comes_bind {f : α → StateM σ β} {post : β → σ → Prop} :
    Comes (x >>= f) w post ↔ Comes x w fun a w' => Comes (f a) w' post := Iff.rfl

end Comes

/-! ## Programs that call themselves -/

/-- A program that calls itself comes to an end with `y`: after enough rounds of its body it does
not matter what is put for the calls that are left. `look` makes the first call. -/
def Settles {γ β : Type} (body : γ → γ) (look : γ → β) (y : β) : Prop :=
  ∃ n, ∀ rest, look (body^[n] rest) = y

/-! ## Lists in step -/

/-- What is in one of two lists that correspond has its counterpart in the other. -/
theorem exists_of_forall₂ {α β : Type} {R : α → β → Prop} {xs : List α} {ys : List β}
    (h : List.Forall₂ R xs ys) {x : α} (hx : x ∈ xs) : ∃ y ∈ ys, R x y := by
  induction h with
  | nil => exact absurd hx List.not_mem_nil
  | cons h _ ih =>
    rcases List.mem_cons.mp hx with rfl | hx
    · exact ⟨_, List.mem_cons_self, h⟩
    · obtain ⟨y, hy, hr⟩ := ih hx
      exact ⟨y, List.mem_cons_of_mem _ hy, hr⟩

/-- A program that only fails makes one result of each element. -/
theorem forall₂_of_mapM {f : α → Except ε β} {xs : List α} {ys : List β}
    (h : xs.mapM f = .ok ys) : List.Forall₂ (fun x y => f x = .ok y) xs ys := by
  induction xs generalizing ys with
  | nil =>
    cases h
    exact .nil
  | cons x xs ih =>
    rw [List.mapM_cons] at h
    obtain ⟨y, hy, h⟩ := except_bind_eq_ok.mp h
    obtain ⟨rest, hrest, h⟩ := except_bind_eq_ok.mp h
    cases h
    exact .cons hy (ih hrest)

theorem mapM_of_forall₂ {f : α → Except ε β} {xs : List α} {ys : List β}
    (h : List.Forall₂ (fun x y => f x = .ok y) xs ys) : xs.mapM f = .ok ys := by
  induction h with
  | nil => rfl
  | cons hy _ ih =>
    rw [List.mapM_cons]
    exact except_bind_eq_ok.mpr ⟨_, hy, except_bind_eq_ok.mpr ⟨_, ih, rfl⟩⟩

/-- The order of the elements is the order of the results, and does not matter otherwise. -/
theorem mapM_of_perm {f : α → Except ε β} {xs xs' : List α} {ys : List β} (hperm : xs.Perm xs')
    (h : xs.mapM f = .ok ys) : ∃ ys', xs'.mapM f = .ok ys' ∧ ys.Perm ys' := by
  obtain ⟨ys', hys', hperm'⟩ := List.perm_comp_forall₂ hperm.symm (forall₂_of_mapM h)
  exact ⟨ys', mapM_of_forall₂ hys', hperm'.symm⟩

/-- So does a program that changes a state, each from the state that the one before left. -/
theorem forall₂_of_gives_mapM {f : α → ExceptT ε (StateM σ) β} {xs : List α} {ys : List β}
    {w w' : σ} (h : Gives (xs.mapM f) w ys w') :
    List.Forall₂ (fun x y => ∃ w₁ w₂, Gives (f x) w₁ y w₂) xs ys := by
  induction xs generalizing ys w w' with
  | nil =>
    rw [List.mapM_nil, gives_pure] at h
    rw [h.1]
    exact .nil
  | cons x xs ih =>
    rw [List.mapM_cons, gives_bind] at h
    obtain ⟨y, w₁, hy, h⟩ := h
    obtain ⟨rest, w₂, hrest, h⟩ := gives_bind.mp h
    rw [gives_pure] at h
    rw [h.1]
    exact .cons ⟨w, w₁, hy⟩ (ih hrest)

end StoredCall
