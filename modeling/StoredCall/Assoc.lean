/-!
# Ordered tables

A table is a list of keys and values in the order in which the keys came in. Putting a value under
a key that is there keeps the key's place; dropping a key keeps the order of the others.
-/

namespace StoredCall.Assoc

variable {α β : Type} [DecidableEq α]

/-- Puts a value under a key. -/
def put (key : α) (value : β) : List (α × β) → List (α × β)
  | [] => [(key, value)]
  | (k, v) :: rest => if k = key then (k, value) :: rest else (k, v) :: put key value rest

/-- Puts a value under a key that is not there yet. -/
def putNew (key : α) (value : β) (t : List (α × β)) : List (α × β) :=
  if t.any (fun e => e.1 = key) then t else t ++ [(key, value)]

/-- Drops a key. -/
def drop (key : α) (t : List (α × β)) : List (α × β) :=
  t.filter fun e => e.1 ≠ key

/-- The value under a key. -/
def get? (key : α) : List (α × β) → Option β
  | [] => none
  | (k, v) :: rest => if k = key then some v else get? key rest

/-- Adds a value to the list under a key. -/
def add (key : α) (value : β) : List (α × List β) → List (α × List β)
  | [] => [(key, [value])]
  | (k, vs) :: rest => if k = key then (k, vs ++ [value]) :: rest else (k, vs) :: add key value rest

/-- The values of a list under their keys, keys and values in the order they come. -/
def group (key : β → α) (values : List β) : List (α × List β) :=
  values.foldl (fun t v => add (key v) v t) []

theorem mem_of_get? {key : α} {value : β} {t : List (α × β)}
    (h : get? key t = some value) : (key, value) ∈ t := by
  induction t with
  | nil => simp [get?] at h
  | cons e rest ih =>
    obtain ⟨k, v⟩ := e
    by_cases hk : k = key
    · simp [get?, hk] at h
      simp [hk, h]
    · simp [get?, hk] at h
      exact List.mem_cons_of_mem _ (ih h)

end StoredCall.Assoc
