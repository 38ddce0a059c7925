import StoredCall.Proofs.Stub.Names

/-!
# Identifiers are legal, stable and unique

Long names are cut to the room of an identifier, written in its characters and numbered, and each
of these merges names that were different. What is given out is remembered, so a sequence of calls
tells them apart nevertheless. Numbers are counted in a word of 32 bits, so that there is always
room for a letter before them.

* `Scope.Legal` is an identifier as a block may hold it, and `Scope.legal_free?` says that no other
  is given out.
* `Scope.Exhausted`: all numbers are taken; `Scope.ident?_eq_none_iff` says that a call fails for no
  other reason.
* `Scope.ident_of_ident?`, `Names.ident_of_ident?`: counting without an end gives the same.
* `Names.served_of_idents?`: every call of a sequence gets what its long name has in the end;
  `Names.tallied_of_idents?` says how much is given out then.
* **`Names.idents_spec`**: in a sequence of calls every call gets an identifier, unless there are
  two billion of them; identifiers are legal, and two calls for one package get the same just when
  they ask for the same long name.
-/

namespace StoredCall

open Text

namespace Scope

variable {used : List String} {base : List Char} {name long : String} {s : Scope}

/-! ## Legal identifiers -/

/-- An identifier that a block may hold: short enough, a small letter first, and after it small
letters, digits and underscores. -/
structure Legal (name : String) : Prop where
  length_le : name.length ≤ maxIdent
  head : ∃ c, name.toList.head? = some c ∧ c.isLower = true
  chars : ∀ c ∈ name.toList, isIdentChar c = true

/-- A long name in the characters of an identifier begins with a small letter. -/
theorem exists_sanitize_cons (long : String) :
    ∃ c rest, sanitize long = c :: rest ∧ c.isLower = true := by
  unfold sanitize
  simp only
  split
  · rename_i h
    cases hl : long.toList with
    | nil => simp [hl] at h
    | cons d ds =>
      refine ⟨identChar d, ds.map identChar, rfl, ?_⟩
      have halpha : (identChar d).isAlpha = true := by simpa [hl] using h
      have hchar := isIdentChar_identChar d
      unfold isIdentChar at hchar
      rw [Bool.or_eq_true, Bool.or_eq_true, beq_iff_eq] at hchar
      rcases hchar with (hlower | hdigit) | hunderscore
      · exact hlower
      · rw [isAlpha_of_isDigit hdigit] at halpha
        cases halpha
      · rw [hunderscore] at halpha
        cases halpha
  · exact ⟨'x', _, rfl, rfl⟩

/-- The numbers of the counter have ten digits at most, so with `_` before them there is room for
more. -/
theorem length_ending_lt {n : Nat} (h : n ≤ maxNumber) : ("_" ++ toString n).length < maxIdent := by
  have hdigits : (toString n).length ≤ 10 := by
    rw [← String.length_toList, Nat.toString_eq_repr, Nat.toList_repr]
    exact Nat.toDigits_length 10 n _ (by decide) (lt_of_le_of_lt h (by decide))
  have hmark : "_".length = 1 := rfl
  have hmax : 11 < maxIdent := by decide
  rw [String.length_append]
  omega

/-! ## The counter -/

/-- A longer search finds the same. -/
theorem firstFree?_of_le {count more : Nat} (h : firstFree? used base count = some name)
    (hle : count ≤ more) : firstFree? used base more = some name := by
  obtain ⟨k, rfl⟩ := Nat.exists_eq_add_of_le hle
  have happend : List.range' 2 (count + k) = List.range' 2 count ++ List.range' (2 + count) k :=
    List.range'_append_1.symm
  unfold firstFree? at h ⊢
  rw [happend, List.map_append, List.find?_append, h]
  rfl

/-- What the counter reaches is the first free identifier. -/
theorem free_of_free? (h : free? used base = some name) : free used base = name := by
  unfold free? at h
  unfold free
  split at h
  · next hshort => rw [if_pos hshort, Option.some.inj h]
  · next hshort =>
    rw [if_neg hshort, firstFree?_of_le h (Nat.min_le_left _ _)]
    rfl

/-- The counter gives the base if that is short enough and free, and else the base with the first
free number, none of them past the largest. -/
theorem free?_cases (h : free? used base = some name) :
    (base.length ≤ maxIdent ∧ String.ofList base ∉ used ∧ name = String.ofList base) ∨
      ∃ n ≤ maxNumber, name = withNumber base n ∧ Search used (withNumber base) 2 name := by
  unfold free? at h
  split at h
  · next hshort => exact .inl ⟨hshort.1, hshort.2, (Option.some.inj h).symm⟩
  · obtain ⟨n, hn, hname, hsearch⟩ := search_of_firstFree? h
    have hmax : 1 ≤ maxNumber := by decide
    exact .inr ⟨n, by omega, hname, hsearch⟩

/-- **What the counter gives is legal.** -/
theorem legal_free? (h : free? used (sanitize long) = some name) : Legal name := by
  obtain ⟨c, rest, hbase, hlower⟩ := exists_sanitize_cons long
  have hchars : ∀ d ∈ name.toList, isIdentChar d = true := by
    rw [← free_of_free? h]
    exact fun d hd => isIdentChar_of_mem_free hd
  rcases free?_cases h with ⟨hshort, -, rfl⟩ | ⟨n, hn, rfl, -⟩
  · refine ⟨?_, ⟨c, ?_, hlower⟩, hchars⟩
    · rwa [String.length_ofList]
    · rw [hbase, String.toList_ofList]
      rfl
  · have hroom := length_ending_lt hn
    refine ⟨?_, ⟨c, ?_, hlower⟩, hchars⟩
    · rw [withNumber]
      simp only [String.length_append, String.length_ofList, List.length_take] at hroom ⊢
      omega
    · -- At least the first character of the base stays.
      obtain ⟨k, hk⟩ := Nat.exists_eq_succ_of_ne_zero (Nat.sub_ne_zero_of_lt hroom)
      rw [toList_withNumber, hk, hbase]
      rfl

/-- Every number that the counter holds is taken. -/
def AllTaken (used : List String) (base : List Char) : Prop :=
  ∀ n, 2 ≤ n → n ≤ maxNumber → withNumber base n ∈ used

/-- There are as many taken identifiers then as the counter has numbers. -/
theorem AllTaken.le_length (h : AllTaken used base) : maxNumber - 1 ≤ used.length := by
  have hsub : (List.range' 2 (maxNumber - 1)).map (withNumber base) ⊆ used := by
    intro name hname
    obtain ⟨n, hn, rfl⟩ := List.mem_map.mp hname
    have hmax : 1 ≤ maxNumber := by decide
    rw [List.mem_range'_1] at hn
    exact h n hn.1 (by omega)
  have hnodup := (List.nodup_range' (s := 2) (n := maxNumber - 1)).map (withNumber_injective base)
  simpa using hnodup.length_le_of_subset hsub

/-- A search fails just when all of its numbers are taken. -/
theorem firstFree?_eq_none_iff {count : Nat} : firstFree? used base count = none ↔
    ∀ n, 2 ≤ n → n < 2 + count → withNumber base n ∈ used := by
  rw [firstFree?, List.find?_eq_none]
  simp only [List.forall_mem_map, List.mem_range'_1, and_imp, Bool.not_eq_true, Bool.not_eq_false',
    List.contains_iff_mem]

/-- The counter runs out just when all of its numbers are taken. -/
theorem free?_eq_none_iff : free? used base = none ↔
    ¬ (base.length ≤ maxIdent ∧ String.ofList base ∉ used) ∧ AllTaken used base := by
  unfold free?
  split
  · next hshort => exact iff_of_false (by simp) fun h => h.1 hshort
  · next hshort =>
    have hmax : 1 ≤ maxNumber := by decide
    refine ⟨fun h => ⟨hshort, ?_⟩, fun h => firstFree?_eq_none_iff.mpr fun n hlow hhigh => ?_⟩
    · -- one number more than there are taken identifiers would have been enough
      have hfew : maxNumber - 1 ≤ used.length + 1 := by
        by_contra hlt
        obtain ⟨name, hname⟩ := exists_firstFree? used base
        rw [Nat.min_eq_left (by omega), hname] at h
        cases h
      rw [Nat.min_eq_right hfew, firstFree?_eq_none_iff] at h
      exact fun n hlow hhigh => h n hlow (by omega)
    · exact h.2 n hlow (by omega)

/-! ## One call -/

/-- There is no identifier left for a long name: it has none yet, and its natural form and all of
its numbered forms are taken or too long. -/
structure Exhausted (s : Scope) (long : String) : Prop where
  unknown : Assoc.get? long s.given = none
  natural : ¬ ((sanitize long).length ≤ maxIdent ∧ String.ofList (sanitize long) ∉ s.used)
  numbered : AllTaken s.used (sanitize long)

/-- What a call gives: the identifier that the long name has, or one that is free. -/
theorem ident?_cases {r : String × Scope} (h : s.ident? long = some r) :
    (Assoc.get? long s.given = some r.1 ∧ r.2 = s) ∨
      (Assoc.get? long s.given = none ∧ free? s.used (sanitize long) = some r.1 ∧
        r.2 = { given := (long, r.1) :: s.given }) := by
  unfold ident? at h
  cases hget : Assoc.get? long s.given with
  | some name =>
    rw [hget] at h
    cases h
    exact .inl ⟨rfl, rfl⟩
  | none =>
    rw [hget] at h
    obtain ⟨name, hfree, rfl⟩ := Option.map_eq_some_iff.mp h
    exact .inr ⟨rfl, hfree, rfl⟩

theorem ident_of_ident? {r : String × Scope} (h : s.ident? long = some r) : s.ident long = r := by
  unfold ident
  rcases ident?_cases h with ⟨hget, hs⟩ | ⟨hget, hfree, hs⟩
  · rw [hget, ← hs]
  · rw [hget]
    simp only [free_of_free? hfree, ← hs]

/-- **A call fails just when there is no identifier left.** -/
theorem ident?_eq_none_iff : s.ident? long = none ↔ s.Exhausted long := by
  unfold ident?
  cases hget : Assoc.get? long s.given with
  | some name => exact iff_of_false (by simp) fun h => by simpa [hget] using h.unknown
  | none =>
    rw [Option.map_eq_none_iff, free?_eq_none_iff]
    exact ⟨fun h => ⟨hget, h.1, h.2⟩, fun h => ⟨h.natural, h.numbered⟩⟩

/-- What the identifiers of a package are after a number of calls. -/
structure Tallied (k : Nat) (s : Scope) : Prop where
  /-- A call gives out at most one. -/
  length_le : s.given.length ≤ k
  legal : ∀ e ∈ s.given, Legal e.2

theorem tallied_empty (k : Nat) : Tallied k {} where
  length_le := Nat.zero_le k
  legal := fun _ h => absurd h List.not_mem_nil

theorem Tallied.succ {k : Nat} (h : Tallied k s) : Tallied (k + 1) s where
  length_le := Nat.le_succ_of_le h.length_le
  legal := h.legal

theorem Tallied.ident? {k : Nat} (h : Tallied k s) {r : String × Scope}
    (hr : s.ident? long = some r) : Tallied (k + 1) r.2 := by
  rcases ident?_cases hr with ⟨-, hs⟩ | ⟨-, hfree, hs⟩
  · rw [hs]
    exact h.succ
  · rw [hs]
    exact ⟨Nat.succ_le_succ h.length_le, List.forall_mem_cons.mpr ⟨legal_free? hfree, h.legal⟩⟩

/-- A call fails only after as many calls as the counter has numbers. -/
theorem Tallied.le_of_exhausted {k : Nat} (h : Tallied k s) (he : s.Exhausted long) :
    maxNumber - 1 ≤ k := by
  have hused := he.numbered.le_length
  rw [used, List.length_map] at hused
  exact hused.trans h.length_le

end Scope

/-! ## Sequences of calls -/

namespace Names

variable {names after : Names} {package long name : String} {calls : List (String × String)}
  {given : List String}

theorem ident?_eq_some_iff {r : String × Names} : names.ident? package long = some r ↔
    ∃ scope, ((Assoc.get? (upper package) names).getD {}).ident? long = some (r.1, scope) ∧
      r.2 = Assoc.put (upper package) scope names := by
  unfold ident?
  rw [Option.map_eq_some_iff]
  constructor
  · rintro ⟨⟨name, scope⟩, hs, rfl⟩
    exact ⟨scope, hs, rfl⟩
  · rintro ⟨scope, hs, hr⟩
    exact ⟨_, hs, Prod.ext rfl hr.symm⟩

/-- Counting without an end gives the same. -/
theorem ident_of_ident? {r : String × Names} (h : names.ident? package long = some r) :
    names.ident package long = r := by
  obtain ⟨scope, hs, hr⟩ := ident?_eq_some_iff.mp h
  unfold Names.ident
  simp only [Scope.ident_of_ident? hs, ← hr]

/-- A sequence of calls is the first call, and then the others. -/
theorem idents?_cons_eq_some_iff : names.idents? ((package, long) :: calls) = some (given, after) ↔
    ∃ name between more, names.ident? package long = some (name, between) ∧
      between.idents? calls = some (more, after) ∧ given = name :: more := by
  rw [idents?]
  constructor
  · intro h
    obtain ⟨⟨name, between⟩, hcall, h⟩ := Option.bind_eq_some_iff.mp h
    obtain ⟨⟨more, after⟩, hcalls, h⟩ := Option.bind_eq_some_iff.mp h
    cases h
    exact ⟨name, between, more, hcall, hcalls, rfl⟩
  · rintro ⟨name, between, more, hcall, hcalls, rfl⟩
    simp [hcall, hcalls]

/-- What calls lead to: the state is reached, each call has an identifier, and it is the one its
long name has in the end. -/
structure Served (names : Names) (calls : List (String × String)) (given : List String)
    (after : Names) : Prop where
  reached : names.Reached → after.Reached
  length : given.length = calls.length
  kept : ∀ package long name, names.given package long = some name →
    after.given package long = some name
  given : ∀ e ∈ calls.zip given, after.given e.1.1 e.1.2 = some e.2

theorem served_of_idents? : ∀ {calls : List (String × String)} {names after : Names}
    {given : List String}, names.idents? calls = some (given, after) →
      names.Served calls given after
  | [], names, after, given, h => by
    cases h
    exact ⟨id, rfl, fun _ _ _ => id, fun e he => by simp at he⟩
  | (package, long) :: calls, names, after, given, h => by
    obtain ⟨name, between, more, hcall, hcalls, rfl⟩ := idents?_cons_eq_some_iff.mp h
    have hident := ident_of_ident? hcall
    have hrest := served_of_idents? hcalls
    -- the first call's identifier is there when the others are made
    have hfirst : between.given package long = some name := by
      have hgiven := given_ident names package long
      rwa [hident] at hgiven
    refine ⟨fun hr => hrest.reached ?_, congrArg (· + 1) hrest.length, fun p l n hn => ?_, ?_⟩
    · have hstep := hr.ident package long
      rwa [hident] at hstep
    · have hstay := given_ident_of_given hn package long
      rw [hident] at hstay
      exact hrest.kept p l n hstay
    · rw [List.zip_cons_cons, List.forall_mem_cons]
      exact ⟨hrest.kept _ _ _ hfirst, hrest.given⟩

/-- Every package is within a count of calls. -/
def Tallied (k : Nat) (names : Names) : Prop :=
  ∀ package scope, Assoc.get? package names = some scope → scope.Tallied k

theorem tallied_nil : Tallied 0 [] := fun _ _ h => by cases h

theorem Tallied.getD {k : Nat} (h : names.Tallied k) (package : String) :
    ((Assoc.get? package names).getD {}).Tallied k := by
  cases hget : Assoc.get? package names with
  | none => exact Scope.tallied_empty k
  | some scope => exact h _ _ hget

theorem Tallied.ident? {k : Nat} (h : names.Tallied k) {r : String × Names}
    (hr : names.ident? package long = some r) : Tallied (k + 1) r.2 := by
  obtain ⟨scope, hs, hput⟩ := ident?_eq_some_iff.mp hr
  rw [hput]
  intro other scope' hget
  by_cases hp : other = upper package
  · rw [hp, Assoc.get?_put_self] at hget
    cases hget
    exact (h.getD _).ident? hs
  · rw [Assoc.get?_put_of_ne hp] at hget
    exact (h _ _ hget).succ

theorem tallied_of_idents? : ∀ {calls : List (String × String)} {names after : Names} {k : Nat}
    {given : List String}, names.Tallied k → names.idents? calls = some (given, after) →
      after.Tallied (k + calls.length)
  | [], names, after, k, given, h, hrun => by
    cases hrun
    exact h
  | (package, long) :: calls, names, after, k, given, h, hrun => by
    obtain ⟨name, between, more, hcall, hcalls, rfl⟩ := idents?_cons_eq_some_iff.mp hrun
    rw [List.length_cons, ← Nat.add_assoc, Nat.add_right_comm]
    exact tallied_of_idents? (h.ident? hcall) hcalls

/-- A sequence of calls fails only when it has as many calls as the counter has numbers. -/
theorem le_of_idents?_eq_none : ∀ {calls : List (String × String)} {names : Names} {k : Nat},
    names.Tallied k → names.idents? calls = none → Scope.maxNumber ≤ k + calls.length
  | [], _, _, _, hrun => by cases hrun
  | (package, long) :: calls, names, k, h, hrun => by
    rw [List.length_cons]
    cases hcall : names.ident? package long with
    | none =>
      have hscope := Option.map_eq_none_iff.mp hcall
      have hle := (h.getD _).le_of_exhausted (Scope.ident?_eq_none_iff.mp hscope)
      omega
    | some r =>
      have hcalls : r.2.idents? calls = none := by
        cases hr : r.2.idents? calls with
        | none => rfl
        | some _ => simp [idents?, hcall, hr] at hrun
      have hle := le_of_idents?_eq_none (h.ident? hcall) hcalls
      omega

theorem legal_of_given {k : Nat} (h : names.Tallied k)
    (hgiven : names.given package long = some name) : Scope.Legal name := by
  obtain ⟨scope, hs, hg⟩ := Option.bind_eq_some_iff.mp hgiven
  exact (h _ _ hs).legal _ (Assoc.mem_of_get? hg)

/-- Two calls for one package get the same identifier just when they ask for one long name. -/
theorem Served.eq_iff (h : Served [] calls given after) {e e' : (String × String) × String}
    (he : e ∈ calls.zip given) (he' : e' ∈ calls.zip given)
    (hpackage : upper e.1.1 = upper e'.1.1) : e.2 = e'.2 ↔ e.1.2 = e'.1.2 := by
  have hgiven := h.given e he
  have hgiven' : after.given e.1.1 e'.1.2 = some e'.2 := by
    have hg := h.given e' he'
    unfold Names.given at hg ⊢
    rwa [hpackage]
  constructor
  · intro heq
    rw [← heq] at hgiven'
    exact (h.reached .start).given_inj hgiven hgiven'
  · intro heq
    rw [← heq, hgiven] at hgiven'
    exact Option.some.inj hgiven'

/-- **Identifiers are legal, stable and unique.** The search for a free number goes up one by one
and ends at the first that is free, and a call fails only when every number of the counter is taken;
so a sequence of less than two billion calls gets an identifier for each. Blocks are made with the
same identifiers. In every sequence they are legal, and two calls for one package, in capitals or
not, get the same just when they ask for the same long name. -/
theorem idents_spec (calls : List (String × String)) :
    (∀ used base name, Scope.free? used base = some name →
      ¬ (base.length ≤ maxIdent ∧ String.ofList base ∉ used) →
        Search used (Scope.withNumber base) 2 name) ∧
    (∀ (s : Scope) long, s.ident? long = none ↔ s.Exhausted long) ∧
    (∀ (names : Names) package long r, names.ident? package long = some r →
      names.ident package long = r) ∧
    (calls.length < Scope.maxNumber → ∃ given after, idents? [] calls = some (given, after)) ∧
    ∀ given after, idents? [] calls = some (given, after) →
      given.length = calls.length ∧ (∀ name ∈ given, Scope.Legal name) ∧
      ∀ e ∈ calls.zip given, ∀ e' ∈ calls.zip given,
        upper e.1.1 = upper e'.1.1 → (e.2 = e'.2 ↔ e.1.2 = e'.1.2) := by
  refine ⟨fun used base name hfree hshort => ?_, fun s long => Scope.ident?_eq_none_iff,
    fun _ _ _ _ => ident_of_ident?, fun hlen => ?_, fun given after hrun => ?_⟩
  · rcases Scope.free?_cases hfree with ⟨hlen, hnew, -⟩ | ⟨n, -, -, hsearch⟩
    · exact absurd ⟨hlen, hnew⟩ hshort
    · exact hsearch
  · cases hrun : idents? [] calls with
    | none =>
      have hle := le_of_idents?_eq_none tallied_nil hrun
      omega
    | some r => exact ⟨r.1, r.2, rfl⟩
  · have hserved := served_of_idents? hrun
    have htallied := tallied_of_idents? tallied_nil hrun
    refine ⟨hserved.length, fun name hname => ?_, fun e he e' he' => hserved.eq_iff he he'⟩
    have hzip : (calls.zip given).map Prod.snd = given := List.map_snd_zip hserved.length.le
    rw [← hzip] at hname
    obtain ⟨e, he, rfl⟩ := List.mem_map.mp hname
    exact legal_of_given htallied (hserved.given e he)

/-- Calls for one package whose long names run into each other, the first of them twice. -/
def merged : List (String × String) :=
  [("orders", "a-b"), ("ORDERS", "a_b"), ("Orders", "a_b_2"), ("orders", "a-b"),
    ("orders", "x_p_order_line_items_delivery_address_city")]

/-- The second name gets the natural form of the third, and the last is cut. -/
theorem merged_idents_spec :
    (∃ after, idents? [] merged =
      some (["a_b", "a_b_2", "a_b_2_2", "a_b", "x_p_order_line_items_deliver_2"], after)) ∧
    Scope.Legal "x_p_order_line_items_deliver_2" ∧
    ("a_b_2_2" = "a_b_2" ↔ "a_b_2" = "a_b") ∧
    Search ["a_b_2", "a_b"] (Scope.withNumber "a_b_2".toList) 2 "a_b_2_2" := by
  have hvalue : (idents? [] merged).map Prod.fst =
      some ["a_b", "a_b_2", "a_b_2_2", "a_b", "x_p_order_line_items_deliver_2"] := by
    decide +kernel
  obtain ⟨hsearch, -, -, hruns, hspec⟩ := idents_spec merged
  obtain ⟨given, after, hrun⟩ := hruns (by decide +kernel)
  obtain ⟨-, hlegal, hiff⟩ := hspec given after hrun
  have hgiven : given = ["a_b", "a_b_2", "a_b_2_2", "a_b", "x_p_order_line_items_deliver_2"] := by
    rw [hrun] at hvalue
    exact Option.some.inj hvalue
  subst hgiven
  refine ⟨⟨after, hrun⟩, hlegal _ (by simp), ?_, ?_⟩
  · exact hiff (("Orders", "a_b_2"), "a_b_2_2") (by simp [merged]) (("ORDERS", "a_b"), "a_b_2")
      (by simp [merged]) (by decide +kernel)
  · exact hsearch _ _ _ (by decide +kernel) (by decide +kernel)

end Names

end StoredCall
