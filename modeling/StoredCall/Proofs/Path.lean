import Mathlib
import StoredCall.Path

/-!
# Paths that part

Two paths part when the first step at which they differ is a field in both. Such paths lead to
different places of every value, whatever they do afterwards: neither is on the way to the other,
and no value has to be an object for one and a list for the other.

* `Path.Apart` is the relation; `Path.Apart.not_prefix` and `Path.apart_append_left` are its uses.
  `Path.Apart.apart_or_apart`: a third path is on the way to both, or parts from one of them.
* `Path.splitEach_eq_some_iff`: a path through a table is the path of the table, every element, and
  a path inside an element. `Path.apart_of_columns`: paths to columns that part are of different
  tables, or part inside the elements of one.
-/

namespace StoredCall.Path

/-- Two paths go on with different fields at some point and are the same before it. -/
def Apart : Path → Path → Prop
  | .field a :: p, .field b :: q => a ≠ b ∨ Apart p q
  | .each :: p, .each :: q => Apart p q
  | _, _ => False

theorem Apart.symm : ∀ {p q : Path}, Apart p q → Apart q p
  | [], _, h => by simp [Apart] at h
  | .field _ :: _, [], h => by simp [Apart] at h
  | .each :: _, [], h => by simp [Apart] at h
  | .field _ :: _, .each :: _, h => by simp [Apart] at h
  | .each :: _, .field _ :: _, h => by simp [Apart] at h
  | .field a :: p, .field b :: q, h => by
    rcases h with h | h
    · exact Or.inl h.symm
    · exact Or.inr (Apart.symm h)
  | .each :: p, .each :: q, h => by
    have h : Apart p q := h
    exact h.symm

/-- **Of two paths that part, neither is on the way to the other.** -/
theorem Apart.not_prefix : ∀ {p q : Path}, Apart p q → ¬ p <+: q
  | [], _, h, _ => by simp [Apart] at h
  | .field _ :: _, [], h, _ => by simp [Apart] at h
  | .each :: _, [], h, _ => by simp [Apart] at h
  | .field _ :: _, .each :: _, h, _ => by simp [Apart] at h
  | .each :: _, .field _ :: _, h, _ => by simp [Apart] at h
  | .field a :: p, .field b :: q, h, hpre => by
    rw [List.cons_prefix_cons] at hpre
    rcases h with h | h
    · exact h (Step.field.inj hpre.1)
    · exact Apart.not_prefix h hpre.2
  | .each :: p, .each :: q, h, hpre => by
    rw [List.cons_prefix_cons] at hpre
    have h : Apart p q := h
    exact h.not_prefix hpre.2

theorem Apart.ne {p q : Path} (h : Apart p q) : p ≠ q := by
  rintro rfl
  exact h.not_prefix (List.prefix_refl p)

theorem apart_append_left : ∀ {r p q : Path}, Apart (r ++ p) (r ++ q) ↔ Apart p q
  | [], _, _ => Iff.rfl
  | .field a :: r, p, q => by
    show a ≠ a ∨ Apart (r ++ p) (r ++ q) ↔ Apart p q
    rw [apart_append_left]
    simp
  | .each :: r, p, q => by
    show Apart (r ++ p) (r ++ q) ↔ Apart p q
    rw [apart_append_left]

/-- Paths through different fields of one place part. -/
theorem apart_of_field_ne {a b : String} (h : a ≠ b) (r p q : Path) :
    Apart (r ++ .field a :: p) (r ++ .field b :: q) :=
  apart_append_left.mpr (Or.inl h)

/-- Paths of fields part when neither is on the way to the other. -/
theorem apart_of_fields : ∀ {p q : Path}, .each ∉ p → .each ∉ q → ¬ p <+: q → ¬ q <+: p → Apart p q
  | [], _, _, _, hpq, _ => absurd List.nil_prefix hpq
  | _ :: _, [], _, _, _, hqp => absurd List.nil_prefix hqp
  | .each :: _, _ :: _, hp, _, _, _ => absurd List.mem_cons_self hp
  | .field _ :: _, .each :: _, _, hq, _, _ => absurd List.mem_cons_self hq
  | .field a :: p, .field b :: q, hp, hq, hpq, hqp => by
    rw [List.mem_cons, not_or] at hp hq
    by_cases hab : a = b
    · subst hab
      rw [List.cons_prefix_cons] at hpq hqp
      exact .inr (apart_of_fields hp.2 hq.2 (fun h => hpq ⟨rfl, h⟩) (fun h => hqp ⟨rfl, h⟩))
    · exact .inl hab

/-- A path that parts from another does so however it goes on. -/
theorem Apart.append : ∀ {p q : Path}, Apart p q → ∀ s : Path, Apart (p ++ s) q
  | [], _, h, _ => by simp [Apart] at h
  | .field _ :: _, [], h, _ => by simp [Apart] at h
  | .each :: _, [], h, _ => by simp [Apart] at h
  | .field _ :: _, .each :: _, h, _ => by simp [Apart] at h
  | .each :: _, .field _ :: _, h, _ => by simp [Apart] at h
  | .field _ :: _, .field _ :: _, h, s => Or.imp_right (fun h => h.append s) h
  | .each :: p, .each :: q, h, s => by
    have h : Apart p q := h
    exact h.append s

/-- A path that is not on the way to both of two paths that part, parts from one of them. -/
theorem Apart.apart_or_apart {p q r : Path} (h : Apart p q) (hp : .each ∉ p) (hq : .each ∉ q)
    (hr : .each ∉ r) (hboth : ¬ (r <+: p ∧ r <+: q)) : Apart p r ∨ Apart q r := by
  by_cases hrp : r <+: p
  · refine .inr (apart_of_fields hq hr (fun hqr => ?_) fun hrq => hboth ⟨hrp, hrq⟩)
    exact h.symm.not_prefix (hqr.trans hrp)
  · by_cases hpr : p <+: r
    · obtain ⟨s, rfl⟩ := hpr
      exact .inr (h.append s).symm
    · exact .inl (apart_of_fields hp hr hpr hrp)

/-! ## Paths through tables -/

/-- The path of the table that a path goes through: the steps before every element. -/
def table (p : Path) : Path := p.takeWhile (· ≠ .each)

theorem splitEach_eq_none_iff : ∀ {p : Path}, p.splitEach = none ↔ .each ∉ p
  | [] => by simp [splitEach]
  | .each :: _ => by simp [splitEach]
  | .field a :: p => by simp [splitEach, splitEach_eq_none_iff (p := p)]

theorem splitEach_eq_some_iff : ∀ {p t i : Path},
    p.splitEach = some (t, i) ↔ p = t ++ .each :: i ∧ .each ∉ t
  | [], t, i => by simp [splitEach]
  | .each :: p, t, i => by
    cases t with
    | nil => simp [splitEach]
    | cons step t =>
      simp only [splitEach, Option.some.injEq, Prod.mk.injEq, List.nil_eq, reduceCtorEq, false_and,
        List.cons_append, List.cons.injEq, List.mem_cons, not_or, false_iff]
      rintro ⟨⟨rfl, -⟩, h, -⟩
      exact h rfl
  | .field a :: p, t, i => by
    simp only [splitEach, Option.map_eq_some_iff, Prod.exists, Prod.mk.injEq]
    constructor
    · rintro ⟨t', i', h, rfl, rfl⟩
      obtain ⟨rfl, ht⟩ := splitEach_eq_some_iff.mp h
      exact ⟨rfl, by simp [ht]⟩
    · rintro ⟨h, ht⟩
      cases t with
      | nil => simp at h
      | cons step t =>
        rw [List.cons_append, List.cons.injEq] at h
        obtain ⟨rfl, rfl⟩ := h
        rw [List.mem_cons, not_or] at ht
        exact ⟨t, i, splitEach_eq_some_iff.mpr ⟨rfl, ht.2⟩, rfl, rfl⟩

theorem table_append {t : Path} (ht : .each ∉ t) (i : Path) : table (t ++ .each :: i) = t := by
  unfold table
  rw [List.takeWhile_append_of_pos fun step hs => ?_]
  · simp
  · simp only [ne_eq, decide_not, Bool.not_eq_eq_eq_not, Bool.not_true, decide_eq_false_iff_not]
    rintro rfl
    exact ht hs

/-- A path through fields only parts from the table before it parts from a column. -/
theorem apart_table : ∀ {t i q : Path}, .each ∉ q → Apart (t ++ .each :: i) q → Apart t q
  | [], _, [], _, h => by simp [Apart] at h
  | [], _, .field _ :: _, _, h => by simp [Apart] at h
  | [], _, .each :: _, hq, _ => absurd List.mem_cons_self hq
  | .field _ :: _, _, [], _, h => by simp [Apart] at h
  | .field a :: t, i, .field b :: q, hq, h => by
    rw [List.mem_cons, not_or] at hq
    exact Or.imp_right (apart_table hq.2) h
  | .field _ :: _, _, .each :: _, hq, _ => absurd List.mem_cons_self hq
  | .each :: _, _, [], _, h => by simp [Apart] at h
  | .each :: _, _, .field _ :: _, _, h => by simp [Apart] at h
  | .each :: _, _, .each :: _, hq, _ => absurd List.mem_cons_self hq

/-- **Columns that part are columns of tables that part, or part inside the elements of one
table.** -/
theorem apart_of_columns : ∀ {t t' i i' : Path}, .each ∉ t → .each ∉ t' →
    Apart (t ++ .each :: i) (t' ++ .each :: i') → Apart t t' ∨ t = t' ∧ Apart i i'
  | [], [], _, _, _, _, h => Or.inr ⟨rfl, h⟩
  | [], .field _ :: _, _, _, _, _, h => by simp [Apart] at h
  | .field _ :: _, [], _, _, _, _, h => by simp [Apart] at h
  | .field a :: t, .field b :: t', i, i', ht, ht', h => by
    rw [List.mem_cons, not_or] at ht ht'
    by_cases hab : a = b
    · subst hab
      have h : Apart (t ++ .each :: i) (t' ++ .each :: i') := by
        rcases h with h | h
        · exact absurd rfl h
        · exact h
      rcases apart_of_columns ht.2 ht'.2 h with htable | ⟨hsame, hinner⟩
      · exact Or.inl (Or.inr htable)
      · exact Or.inr ⟨congrArg _ hsame, hinner⟩
    · exact Or.inl (Or.inl hab)
  | .each :: _, _, _, _, ht, _, _ => absurd List.mem_cons_self ht
  | _, .each :: _, _, _, _, ht', _ => absurd List.mem_cons_self ht'

end StoredCall.Path
