import StoredCall.Proofs.Assoc
import StoredCall.Proofs.Text.Distinct
import StoredCall.Stub.Names

/-!
# Identifiers of long names

`Names.Reached` are the states that giving out identifiers leads to, starting from none given out.
Nothing else makes such a state, so every state a block is made from is one of them.

* `Scope.free_cases`: a free identifier is its base, or the base with the first free number.
* `Scope.Sound` is what one package's identifiers keep: no two long names share one, and each is
  written in the characters of an identifier and begins as its long name does, or with `_`.
* `Names.given` reads the identifier of a long name; `given_ident` and `given_ident_of_given` say
  that a long name has its identifier from the first time on.
* `Names.Reached.given_inj`: different long names of a package have different identifiers.
-/

namespace StoredCall

open Text

namespace Scope

/-! ## The characters of an identifier -/

/-- The characters of identifiers: small letters, digits and the underscore. -/
def isIdentChar (c : Char) : Bool := c.isLower || c.isDigit || c == '_'

theorem isAlpha_of_isDigit {c : Char} (h : c.isDigit = true) : c.isAlpha = false := by
  simp [Char.isDigit, Char.isAlpha, Char.isUpper, Char.isLower, UInt32.le_iff_toNat_le] at *
  omega

theorem isIdentChar_toLower {c : Char} (h : c.isAlphanum = true) :
    isIdentChar c.toLower = true := by
  unfold isIdentChar
  rw [Char.isLower_toLower_eq_isAlpha]
  rcases Bool.or_eq_true_iff.mp h with ha | hd
  · rw [ha]
    rfl
  · have hu : ¬ c.isUpper = true := by
      intro hu
      have ha := isAlpha_of_isDigit hd
      rw [Char.isAlpha, hu, Bool.true_or] at ha
      cases ha
    rw [Char.toLower_eq_of_not_isUpper hu, hd, Bool.or_true, Bool.true_or]

theorem isIdentChar_identChar (c : Char) : isIdentChar (identChar c) = true := by
  unfold identChar
  split
  · rename_i h
    rcases Bool.or_eq_true_iff.mp h with h | h
    · exact isIdentChar_toLower h
    · rw [beq_iff_eq.mp h]
      rfl
  · rfl

theorem isIdentChar_of_mem_sanitize {long : String} {c : Char} (h : c ∈ sanitize long) :
    isIdentChar c = true := by
  have hmap : ∀ d ∈ long.toList.map identChar, isIdentChar d = true := by
    intro d hd
    obtain ⟨e, -, rfl⟩ := List.mem_map.mp hd
    exact isIdentChar_identChar e
  unfold sanitize at h
  simp only at h
  split at h
  · exact hmap c h
  · rcases List.mem_cons.mp h with rfl | h
    · rfl
    · exact hmap c h

theorem isIdentChar_of_mem_toString {n : Nat} {c : Char} (h : c ∈ (toString n).toList) :
    isIdentChar c = true := by
  rw [Nat.toString_eq_repr, Nat.toList_repr] at h
  have hd : c.isDigit = true := Nat.isDigit_of_mem_toDigits (by decide) (by decide) h
  unfold isIdentChar
  rw [hd, Bool.or_true, Bool.true_or]

/-! ## Free identifiers -/

theorem toList_withNumber (base : List Char) (n : Nat) :
    (withNumber base n).toList =
      base.take (maxIdent - ("_" ++ toString n).length) ++ '_' :: (toString n).toList := by
  unfold withNumber
  simp only [String.toList_append, String.toList_ofList]
  rfl

/-- What stands after the last underscore is determined. -/
theorem eq_of_append_underscore {a a' b b' : List Char} (h : a ++ '_' :: b = a' ++ '_' :: b')
    (hb : '_' ∉ b) (hb' : '_' ∉ b') : b = b' := by
  have hr : ∀ x y : List Char, '_' ∉ y →
      (x ++ '_' :: y).reverse.takeWhile (· != '_') = y.reverse := by
    intro x y hy
    rw [List.reverse_append, List.reverse_cons, List.append_assoc,
      List.takeWhile_append_of_pos (by
        intro c hc
        exact bne_iff_ne.mpr fun e => hy (e ▸ List.mem_reverse.mp hc))]
    simp
  have := congrArg (fun l : List Char => l.reverse.takeWhile (· != '_')) h
  simp only [hr _ _ hb, hr _ _ hb'] at this
  exact List.reverse_injective this

theorem underscore_notMem_toString (n : Nat) : '_' ∉ (toString n).toList := by
  intro h
  rw [Nat.toString_eq_repr, Nat.toList_repr] at h
  exact absurd (Nat.isDigit_of_mem_toDigits (by decide) (by decide) h) (by decide)

theorem withNumber_injective (base : List Char) : Function.Injective (withNumber base) := by
  intro m n h
  have hl := congrArg String.toList h
  rw [toList_withNumber, toList_withNumber] at hl
  have := eq_of_append_underscore hl (underscore_notMem_toString m) (underscore_notMem_toString n)
  rw [String.toList_inj, Nat.toString_eq_repr, Nat.toString_eq_repr] at this
  exact Nat.repr_injective this

/-- One number more is tried than there are taken identifiers, so the search ends. -/
theorem exists_firstFree? (used : List String) (base : List Char) :
    ∃ name, firstFree? used base (used.length + 1) = some name := by
  apply exists_find? (List.Nodup.map (withNumber_injective base) List.nodup_range')
  rw [List.length_map, List.length_range']
  omega

/-- The search goes up one by one, to a number below the end. -/
theorem search_of_firstFree? {used : List String} {base : List Char} {count : Nat} {name : String}
    (h : firstFree? used base count = some name) :
    ∃ n < 2 + count, name = withNumber base n ∧ Search used (withNumber base) 2 name := by
  obtain ⟨n, hn, rfl⟩ := List.mem_map.mp (List.mem_of_find?_eq_some h)
  exact ⟨n, (List.mem_range'_1.mp hn).2, rfl, search_of_find? h⟩

/-- A free identifier is the base if that is short enough and free, and else the base with the first
free number. -/
theorem free_cases (used : List String) (base : List Char) :
    (base.length ≤ maxIdent ∧ String.ofList base ∉ used ∧ free used base = String.ofList base) ∨
      ∃ n, free used base = withNumber base n ∧
        Search used (withNumber base) 2 (free used base) := by
  unfold free
  split
  · rename_i h
    exact Or.inl ⟨h.1, h.2, rfl⟩
  · obtain ⟨name, hname⟩ := exists_firstFree? used base
    obtain ⟨n, -, hn, hsearch⟩ := search_of_firstFree? hname
    rw [hname, Option.getD_some]
    exact Or.inr ⟨n, hn, hsearch⟩

/-- **A free identifier is not taken.** -/
theorem free_notMem (used : List String) (base : List Char) : free used base ∉ used := by
  rcases free_cases used base with ⟨-, hfree, he⟩ | ⟨n, -, hsearch⟩
  · rwa [he]
  · exact hsearch.notMem

theorem isIdentChar_of_mem_free {used : List String} {long : String} {c : Char}
    (h : c ∈ (free used (sanitize long)).toList) : isIdentChar c = true := by
  rcases free_cases used (sanitize long) with ⟨-, -, he⟩ | ⟨n, he, -⟩
  · rw [he, String.toList_ofList] at h
    exact isIdentChar_of_mem_sanitize h
  · rw [he, toList_withNumber, List.mem_append, List.mem_cons] at h
    rcases h with h | rfl | h
    · exact isIdentChar_of_mem_sanitize (List.mem_of_mem_take h)
    · rfl
    · exact isIdentChar_of_mem_toString h

/-- An identifier begins with the first character of its base, or with `_` when the number leaves
no room for it. -/
theorem head?_free (used : List String) {c : Char} {rest : List Char} :
    (free used (c :: rest)).toList.head? = some c ∨
      (free used (c :: rest)).toList.head? = some '_' := by
  rcases free_cases used (c :: rest) with ⟨-, -, he⟩ | ⟨n, he, -⟩
  · rw [he, String.toList_ofList]
    exact Or.inl rfl
  · rw [he, toList_withNumber]
    cases maxIdent - ("_" ++ toString n).length with
    | zero => exact Or.inr rfl
    | succ k => exact Or.inl rfl

/-! ## One package -/

/-- What the identifiers of a package keep. -/
structure Sound (s : Scope) : Prop where
  /-- No identifier is given to two long names. -/
  nodup : s.used.Nodup
  /-- Identifiers are written in their characters. -/
  chars : ∀ e ∈ s.given, ∀ c ∈ e.2.toList, isIdentChar c = true
  /-- Identifiers begin as their long names do, or with `_`. -/
  head : ∀ e ∈ s.given, ∀ c rest, sanitize e.1 = c :: rest →
    e.2.toList.head? = some c ∨ e.2.toList.head? = some '_'

theorem sound_empty : Sound {} where
  nodup := List.nodup_nil
  chars := fun _ h => absurd h List.not_mem_nil
  head := fun _ h => absurd h List.not_mem_nil

/-- Giving out an identifier keeps a package sound. -/
theorem Sound.ident {s : Scope} (h : s.Sound) (long : String) : (s.ident long).2.Sound := by
  unfold Scope.ident
  cases Assoc.get? long s.given with
  | some name => exact h
  | none =>
    refine ⟨?_, fun e he => ?_, fun e he => ?_⟩
    · show (free s.used (sanitize long) :: s.used).Nodup
      exact List.nodup_cons.mpr ⟨free_notMem _ _, h.nodup⟩
    · rcases List.mem_cons.mp he with rfl | he
      · exact fun c hc => isIdentChar_of_mem_free hc
      · exact h.chars e he
    · rcases List.mem_cons.mp he with rfl | he
      · intro c rest hs
        show (free s.used (sanitize long)).toList.head? = some c ∨ _
        rw [hs]
        exact head?_free s.used
      · exact h.head e he

theorem get?_ident_self (s : Scope) (long : String) :
    Assoc.get? long (s.ident long).2.given = some (s.ident long).1 := by
  unfold Scope.ident
  cases h : Assoc.get? long s.given with
  | some name => exact h
  | none => simp [Assoc.get?]

theorem get?_ident_of_get? {s : Scope} {long name : String}
    (h : Assoc.get? long s.given = some name) (other : String) :
    Assoc.get? long (s.ident other).2.given = some name := by
  unfold Scope.ident
  cases ho : Assoc.get? other s.given with
  | some _ => exact h
  | none =>
    have hne : other ≠ long := by
      rintro rfl
      rw [ho] at h
      exact absurd h (by simp)
    simp only [Assoc.get?, if_neg hne]
    exact h

theorem Sound.get?_inj {s : Scope} (h : s.Sound) {long long' name : String}
    (h₁ : Assoc.get? long s.given = some name) (h₂ : Assoc.get? long' s.given = some name) :
    long = long' := by
  have hinj := List.inj_on_of_nodup_map h.nodup (Assoc.mem_of_get? h₁) (Assoc.mem_of_get? h₂) rfl
  exact congrArg Prod.fst hinj

end Scope

/-! ## All packages -/

namespace Names

/-- The states that giving out identifiers leads to. -/
inductive Reached : Names → Prop
  | start : Reached []
  | ident {names : Names} (h : Reached names) (package long : String) :
    Reached (names.ident package long).2

/-- The identifier that a long name of a package has been given. -/
def given (names : Names) (package long : String) : Option String :=
  (Assoc.get? (upper package) names).bind fun scope => Assoc.get? long scope.given

theorem given_ident (names : Names) (package long : String) :
    (names.ident package long).2.given package long = some (names.ident package long).1 := by
  unfold given Names.ident
  simp only [Assoc.get?_put_self, Option.bind_some]
  exact Scope.get?_ident_self _ long

/-- What has been given out stays given out. -/
theorem given_ident_of_given {names : Names} {package long name : String}
    (h : names.given package long = some name) (package' long' : String) :
    (names.ident package' long').2.given package long = some name := by
  obtain ⟨scope, hs, hg⟩ := Option.bind_eq_some_iff.mp h
  unfold given Names.ident
  simp only
  by_cases hp : upper package = upper package'
  · rw [← hp, Assoc.get?_put_self, Option.bind_some, hs, Option.getD_some]
    exact Scope.get?_ident_of_get? hg long'
  · rw [Assoc.get?_put_of_ne hp, hs, Option.bind_some]
    exact hg

/-- What giving out an identifier does to every package: one gets it, the others stay. -/
theorem forall_get?_ident {P Q : Scope → Prop} (hempty : P {}) (hstay : ∀ s, P s → Q s)
    (hident : ∀ s long, P s → Q (s.ident long).2) {names : Names}
    (h : ∀ package scope, Assoc.get? package names = some scope → P scope)
    (package' long : String) :
    ∀ package scope, Assoc.get? package (names.ident package' long).2 = some scope → Q scope := by
  intro package scope hs
  unfold Names.ident at hs
  simp only at hs
  by_cases hp : package = upper package'
  · rw [hp, Assoc.get?_put_self] at hs
    rw [← Option.some.inj hs]
    apply hident
    cases hg : Assoc.get? (upper package') names with
    | none => exact hempty
    | some scope' => exact h _ _ hg
  · rw [Assoc.get?_put_of_ne hp] at hs
    exact hstay scope (h _ _ hs)

/-- Every package of a reached state is sound. -/
theorem Reached.sound {names : Names} (h : names.Reached) {package : String} {scope : Scope}
    (hs : Assoc.get? package names = some scope) : scope.Sound := by
  induction h generalizing package scope with
  | start => exact absurd hs (by simp [Assoc.get?])
  | @ident names _ package' long ih =>
    exact forall_get?_ident Scope.sound_empty (fun _ hsound => hsound)
      (fun _ long hsound => hsound.ident long) (fun _ _ => ih) package' long _ _ hs

/-- **Different long names of a package have different identifiers.** -/
theorem Reached.given_inj {names : Names} (h : names.Reached) {package long long' name : String}
    (h₁ : names.given package long = some name) (h₂ : names.given package long' = some name) :
    long = long' := by
  obtain ⟨scope, hs, hg₁⟩ := Option.bind_eq_some_iff.mp h₁
  obtain ⟨scope', hs', hg₂⟩ := Option.bind_eq_some_iff.mp h₂
  rw [hs] at hs'
  rw [← Option.some.inj hs'] at hg₂
  exact (h.sound hs).get?_inj hg₁ hg₂

theorem Reached.isIdentChar_of_given {names : Names} (h : names.Reached)
    {package long name : String} (hg : names.given package long = some name) {c : Char}
    (hc : c ∈ name.toList) : Scope.isIdentChar c = true := by
  obtain ⟨scope, hs, hg⟩ := Option.bind_eq_some_iff.mp hg
  exact (h.sound hs).chars _ (Assoc.mem_of_get? hg) c hc

theorem Reached.head?_of_given {names : Names} (h : names.Reached) {package long name : String}
    (hg : names.given package long = some name) {c : Char} {rest : List Char}
    (hl : Scope.sanitize long = c :: rest) :
    name.toList.head? = some c ∨ name.toList.head? = some '_' := by
  obtain ⟨scope, hs, hg⟩ := Option.bind_eq_some_iff.mp hg
  exact (h.sound hs).head _ (Assoc.mem_of_get? hg) c rest hl

end Names

end StoredCall
