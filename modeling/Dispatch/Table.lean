/-!
# Tables in insertion order

A finite map that keeps its keys in the order in which they first came in.  It is
a list of pairs with distinct keys, so what it holds can be read off it, and every
operation is described by what it does to `get?`.

## Main definitions

* `Table` — the map; `Table.get?`, `Table.insert`, `Table.insertNew`.

## Main results

* `Table.get?_insert`, `Table.get?_insertNew` — look-up after an insertion.
* `Table.entries_insert_of_none` — a new key goes to the end.
* `idxOf?_concat` — positions after one more element at the end.
-/

namespace Dispatch

/-- A finite map from `κ` to `υ`, in the order of first insertion. -/
structure Table (κ υ : Type) where
  entries : List (κ × υ) := []
  deriving Repr, Inhabited

namespace Table

variable {κ υ : Type} [DecidableEq κ]

/-- The value at `k` in a list of pairs. -/
def lookup (k : κ) : List (κ × υ) → Option υ
  | [] => none
  | (k', v) :: rest => if k' = k then some v else lookup k rest

/-- Replace the value at `k`, or add the pair at the end. -/
def put (k : κ) (v : υ) : List (κ × υ) → List (κ × υ)
  | [] => [(k, v)]
  | (k', v') :: rest => if k' = k then (k, v) :: rest else (k', v') :: put k v rest

/-- The value at a key. -/
def get? (t : Table κ υ) (k : κ) : Option υ := lookup k t.entries

/-- Set the value at a key; a new key goes to the end. -/
def insert (t : Table κ υ) (k : κ) (v : υ) : Table κ υ := ⟨put k v t.entries⟩

/-- Set the value at a key that has none; the first value stays. -/
def insertNew (t : Table κ υ) (k : κ) (v : υ) : Table κ υ :=
  match t.get? k with
  | some _ => t
  | none => t.insert k v

/-- The number of keys. -/
def size (t : Table κ υ) : Nat := t.entries.length

/-- The values, in the order of their keys. -/
def values (t : Table κ υ) : List υ := t.entries.map (·.2)

theorem lookup_put (k k' : κ) (v : υ) (l : List (κ × υ)) :
    lookup k' (put k v l) = if k = k' then some v else lookup k' l := by
  induction l with
  | nil => rfl
  | cons p rest ih =>
    obtain ⟨k₀, v₀⟩ := p
    by_cases h₀ : k₀ = k
    · subst h₀
      by_cases h : k₀ = k' <;> simp [put, lookup, h]
    · by_cases h : k = k'
      · subst h
        simp [put, lookup, h₀, ih]
      · simp [put, lookup, h₀, ih, h]

/-- After an insertion the key has the new value and every other key its old one. -/
@[simp]
theorem get?_insert (t : Table κ υ) (k k' : κ) (v : υ) :
    (t.insert k v).get? k' = if k = k' then some v else t.get? k' :=
  lookup_put k k' v t.entries

/-- `insertNew` changes the answer only at a key that had none. -/
theorem get?_insertNew (t : Table κ υ) (k k' : κ) (v : υ) :
    (t.insertNew k v).get? k' =
      if k = k' then some ((t.get? k).getD v) else t.get? k' := by
  unfold insertNew
  cases h : t.get? k with
  | none => simp
  | some w =>
    by_cases hk : k = k'
    · subst hk
      simp [h]
    · simp [hk]

/-- A new key goes to the end. -/
theorem entries_insert_of_none {t : Table κ υ} {k : κ} {v : υ} (h : t.get? k = none) :
    (t.insert k v).entries = t.entries ++ [(k, v)] := by
  have key : ∀ l : List (κ × υ), lookup k l = none → put k v l = l ++ [(k, v)] := by
    intro l
    induction l with
    | nil => intro _; rfl
    | cons p rest ih =>
      intro h
      rw [lookup] at h
      split at h
      · cases h
      · next hk => rw [put, if_neg hk, ih h, List.cons_append]
  exact key _ h

end Table

/-- An element at the end is found there unless it is found before. -/
theorem idxOf?_concat {α : Type} [DecidableEq α] (l : List α) (a b : α) :
    (l ++ [a]).idxOf? b = (l.idxOf? b).or (if a = b then some l.length else none) := by
  have happend : (l ++ [a]).idxOf? b = (l.idxOf? b).or (([a].idxOf? b).map (· + l.length)) :=
    List.findIdx?_append
  rw [happend, List.idxOf?_cons]
  by_cases hab : a = b <;> simp [hab]

end Dispatch
