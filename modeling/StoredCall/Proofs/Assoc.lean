import StoredCall.Assoc
import Mathlib

/-!
# Tables

What is found in a table after a value was put in or taken out, and that each key stays there once.

* `get?_put_self` and its like say what is found under a key after an operation.
* `Keyed`: each key of a table is there once, so `mem_iff_get?` finds every entry.
* `group_of_key`: values of one key are one group; `keyed_group`: each key has one group.
* `get?_group`: the group of a key is what has the key, in order.
-/

namespace StoredCall.Assoc

variable {α β : Type} [DecidableEq α]

theorem get?_put_self (key : α) (value : β) : ∀ t : List (α × β),
    get? key (put key value t) = some value
  | [] => by simp [put, get?]
  | (k, v) :: rest => by
    unfold put
    split
    · rename_i hk
      simp [get?, hk]
    · rename_i hk
      simp only [get?, if_neg hk]
      exact get?_put_self key value rest

theorem get?_put_of_ne {key other : α} (h : other ≠ key) (value : β) : ∀ t : List (α × β),
    get? other (put key value t) = get? other t
  | [] => by simp [put, get?, h.symm]
  | (k, v) :: rest => by
    unfold put
    split
    · rename_i hk
      simp only [get?, hk, if_neg h.symm]
    · simp only [get?]
      rw [get?_put_of_ne h value rest]

theorem get?_drop_self (key : α) (t : List (α × β)) : get? key (drop key t) = none := by
  unfold drop
  induction t with
  | nil => rfl
  | cons e rest ih =>
    by_cases hk : e.1 = key
    · simpa [List.filter_cons, hk] using ih
    · simpa [List.filter_cons, hk, get?] using ih

theorem get?_drop_of_ne {key other : α} (h : other ≠ key) (t : List (α × β)) :
    get? other (drop key t) = get? other t := by
  unfold drop
  induction t with
  | nil => rfl
  | cons e rest ih =>
    by_cases hk : e.1 = key
    · simpa [List.filter_cons, hk, get?, h.symm] using ih
    · by_cases ho : e.1 = other
      · simp [get?, ho, h]
      · simpa [List.filter_cons, hk, get?, ho] using ih

theorem get?_append (key : α) (s t : List (α × β)) :
    get? key (s ++ t) = (get? key s).or (get? key t) := by
  induction s with
  | nil => rfl
  | cons e rest ih =>
    by_cases hk : e.1 = key
    · simp [get?, hk]
    · simpa [get?, hk] using ih

theorem get?_eq_none_iff {key : α} {t : List (α × β)} :
    get? key t = none ↔ ∀ e ∈ t, e.1 ≠ key := by
  induction t with
  | nil => simp [get?]
  | cons e rest ih =>
    by_cases hk : e.1 = key
    · simp [get?, hk]
    · simpa [get?, hk] using ih

/-- A key that is there keeps its value; a new one has the value that was put in. -/
theorem get?_putNew (key other : α) (value : β) (t : List (α × β)) :
    get? other (putNew key value t) =
      (get? other t).or (if key = other then some value else none) := by
  unfold putNew
  by_cases hany : t.any (fun e => e.1 = key) = true
  · rw [if_pos hany]
    by_cases hk : key = other
    · have hsome : get? other t ≠ none := by
        intro hnone
        obtain ⟨e, he, hkey⟩ := List.any_eq_true.mp hany
        exact get?_eq_none_iff.mp hnone e he ((of_decide_eq_true hkey).trans hk)
      obtain ⟨v, hv⟩ := Option.ne_none_iff_exists'.mp hsome
      simp [hv]
    · simp [hk]
  · rw [if_neg hany, get?_append]
    rfl

/-! ## Keys that are there once -/

/-- No key of a table is there twice. -/
def Keyed (t : List (α × β)) : Prop := (t.map Prod.fst).Nodup

theorem keyed_put {key : α} {t : List (α × β)} (h : Keyed t) (value : β) :
    Keyed (put key value t) := by
  have hkeys : ∀ (t : List (α × β)) (k : α), k ∈ (put key value t).map Prod.fst →
      k = key ∨ k ∈ t.map Prod.fst := by
    intro t k hk
    induction t with
    | nil => exact .inl (by simpa [put] using hk)
    | cons e rest ih =>
      by_cases he : e.1 = key
      · exact .inr (by simpa [put, he] using hk)
      · rcases (by simpa [put, he] using hk : k = e.1 ∨ ∃ v, (k, v) ∈ put key value rest) with
          rfl | ⟨v, hv⟩
        · exact .inr List.mem_cons_self
        · rcases ih (List.mem_map_of_mem (f := Prod.fst) hv) with hk | hk
          · exact .inl hk
          · exact .inr (List.mem_cons_of_mem _ hk)
  induction t with
  | nil => simp [Keyed, put]
  | cons e rest ih =>
    obtain ⟨hfirst, hrest⟩ := List.nodup_cons.mp h
    by_cases he : e.1 = key
    · simpa [Keyed, put, he] using h
    · have hput : put key value (e :: rest) = e :: put key value rest := by simp [put, he]
      rw [hput]
      refine List.nodup_cons.mpr ⟨fun hmem => ?_, ih hrest⟩
      rcases hkeys rest e.1 hmem with hk | hk
      · exact he hk
      · exact hfirst hk

theorem keyed_drop {t : List (α × β)} (h : Keyed t) (key : α) : Keyed (drop key t) :=
  h.sublist (List.filter_sublist.map Prod.fst)

theorem keyed_putNew {t : List (α × β)} (h : Keyed t) (key : α) (value : β) :
    Keyed (putNew key value t) := by
  unfold putNew
  by_cases hany : t.any (fun e => e.1 = key) = true
  · rwa [if_pos hany]
  · rw [if_neg hany, Keyed, List.map_append, List.nodup_append]
    refine ⟨h, by simp, fun k hk l hl hkl => hany ?_⟩
    obtain ⟨e, he, rfl⟩ := List.mem_map.mp hk
    exact List.any_eq_true.mpr ⟨e, he, by simpa [hkl] using hl⟩

theorem mem_iff_get? {t : List (α × β)} (h : Keyed t) {key : α} {value : β} :
    (key, value) ∈ t ↔ get? key t = some value := by
  refine ⟨fun hmem => ?_, mem_of_get?⟩
  induction t with
  | nil => cases hmem
  | cons e rest ih =>
    obtain ⟨hfirst, hrest⟩ := List.nodup_cons.mp h
    rcases List.mem_cons.mp hmem with rfl | hmem
    · simp [get?]
    · have hne : e.1 ≠ key := fun he => hfirst (he ▸ List.mem_map_of_mem (f := Prod.fst) hmem)
      simpa [get?, hne] using ih hrest hmem

theorem put_append_of_notMem {key : α} {s : List (α × β)} (h : key ∉ s.map Prod.fst) (value : β)
    (t : List (α × β)) : put key value (s ++ t) = s ++ put key value t := by
  induction s with
  | nil => rfl
  | cons e rest ih =>
    rw [List.map_cons, List.mem_cons, not_or] at h
    rw [List.cons_append, put, if_neg (Ne.symm h.1), ih h.2, List.cons_append]

theorem put_of_notMem {key : α} {t : List (α × β)} (h : key ∉ t.map Prod.fst) (value : β) :
    put key value t = t ++ [(key, value)] := by
  have happend := put_append_of_notMem h value []
  rwa [List.append_nil] at happend

/-- Putting entries with different keys into an empty table gives the entries in their order. -/
theorem foldl_put_of_keyed {entries : List (α × β)} (h : Keyed entries) :
    entries.foldl (fun t e => put e.1 e.2 t) [] = entries := by
  have hfold : ∀ before : List (α × β), Keyed (before ++ entries) →
      entries.foldl (fun t e => put e.1 e.2 t) before = before ++ entries := by
    induction entries with
    | nil => simp
    | cons e rest ih =>
      intro before hkeyed
      have hnew : e.1 ∉ before.map Prod.fst := by
        rw [Keyed, List.map_append, List.nodup_append] at hkeyed
        exact fun hmem => hkeyed.2.2 _ hmem _ List.mem_cons_self rfl
      have hrest : Keyed rest := (List.nodup_cons.mp h).2
      rw [List.foldl_cons, put_of_notMem hnew, ih hrest _ (by simpa using hkeyed)]
      simp
  exact hfold [] h

theorem foldl_add_of_key {key : β → α} {k : α} {values : List β} (h : ∀ v ∈ values, key v = k)
    (before : List β) :
    values.foldl (fun t v => add (key v) v t) [(k, before)] = [(k, before ++ values)] := by
  induction values generalizing before with
  | nil => rw [List.foldl_nil, List.append_nil]
  | cons v rest ih =>
    rw [List.forall_mem_cons] at h
    rw [List.foldl_cons, h.1, add, if_pos rfl, ih h.2, List.append_assoc, List.singleton_append]

/-- Values of one key are one group. -/
theorem group_of_key {key : β → α} {k : α} {values : List β} (hne : values ≠ [])
    (h : ∀ v ∈ values, key v = k) : group key values = [(k, values)] := by
  cases values with
  | nil => exact absurd rfl hne
  | cons v rest =>
    rw [List.forall_mem_cons] at h
    rw [group, List.foldl_cons, h.1]
    exact foldl_add_of_key h.2 [v]

/-- A key is added unless it is there. -/
theorem mem_keys_add {key k : α} {value : β} {t : List (α × List β)} :
    k ∈ (add key value t).map Prod.fst ↔ k = key ∨ k ∈ t.map Prod.fst := by
  induction t with
  | nil => simp [add]
  | cons e rest ih =>
    rw [add]
    split
    · next he => simp [he]
    · rw [List.map_cons, List.mem_cons, ih, List.map_cons, List.mem_cons, or_left_comm]

theorem keyed_add {t : List (α × List β)} (h : Keyed t) (key : α) (value : β) :
    Keyed (add key value t) := by
  induction t with
  | nil => exact List.nodup_singleton key
  | cons e rest ih =>
    obtain ⟨hfirst, hrest⟩ := List.nodup_cons.mp h
    rw [add]
    split
    · exact h
    · next he =>
      refine List.nodup_cons.mpr ⟨fun hmem => ?_, ih hrest⟩
      rcases mem_keys_add.mp hmem with hk | hk
      · exact he hk
      · exact hfirst hk

/-- Each key has one group. -/
theorem keyed_group (key : β → α) (values : List β) : Keyed (group key values) := by
  have hfold : ∀ t : List (α × List β), Keyed t →
      Keyed (values.foldl (fun t v => add (key v) v t) t) := by
    induction values with
    | nil => exact fun t ht => ht
    | cons v rest ih => exact fun t ht => ih _ (keyed_add ht (key v) v)
  exact hfold [] List.nodup_nil

theorem get?_add (key k : α) (value : β) (t : List (α × List β)) :
    get? k (add key value t) =
      if key = k then some ((get? k t).getD [] ++ [value]) else get? k t := by
  induction t with
  | nil =>
    by_cases hk : key = k
    · simp [add, get?, hk]
    · simp [add, get?, hk]
  | cons e rest ih =>
    by_cases he : e.1 = key
    · by_cases hk : key = k
      · simp [add, get?, he, hk]
      · simp [add, get?, he, hk]
    · by_cases hk : e.1 = k
      · subst hk
        simp [add, get?, he, Ne.symm he]
      · simpa [add, get?, he, hk] using ih

/-- **The group of a key** is what has the key, in order; a key that nothing has is not there. -/
theorem get?_group (key : β → α) (k : α) (values : List β) :
    get? k (group key values) =
      (some (values.filter fun v => key v = k)).filter fun vs => !vs.isEmpty := by
  induction values using List.reverseRecOn with
  | nil => rfl
  | append_singleton values v ih =>
    have hgroup : group key (values ++ [v]) = add (key v) v (group key values) := by
      rw [group, List.foldl_append]
      rfl
    rw [hgroup, get?_add, ih, List.filter_append]
    by_cases hk : key v = k
    · cases values.filter fun v => key v = k <;> simp [hk, Option.filter]
    · simp [hk]

end StoredCall.Assoc
