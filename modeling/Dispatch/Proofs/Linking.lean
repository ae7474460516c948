import Dispatch.Proofs.Carried

/-!
# Symbols and their addresses

A symbol gets a region of one word when its address is first asked for, and keeps it.
Different symbols have different regions, so an address leads back to its symbol.

## Main statements

* `Table.get?_of_mem` — tables as lists of pairs.
* `World.Linked` — every symbol has a region of its own.
* `World.Extends` — a world with perhaps more symbols, and memory that changed in given
  places only.
* `World.ends_addressOf` — the address of a symbol.
-/

namespace Dispatch

/-! ### Tables -/

namespace Table

variable {κ υ : Type} [DecidableEq κ] {t : Table κ υ} {k k' : κ} {v : υ}

/-- The keys of a table. -/
def keys (t : Table κ υ) : List κ := t.entries.map (·.1)

theorem get?_of_entries_nil (h : t.entries = []) (k : κ) : t.get? k = none := by
  rw [get?, h]
  rfl

theorem mem_of_get? (h : t.get? k = some v) : (k, v) ∈ t.entries := by
  have key : ∀ l : List (κ × υ), lookup k l = some v → (k, v) ∈ l := by
    intro l
    induction l with
    | nil => intro h; cases h
    | cons p rest ih =>
      intro h
      rw [lookup] at h
      split at h
      · next hk =>
        cases h
        rw [← hk]
        exact List.mem_cons_self
      · exact List.mem_cons_of_mem _ (ih h)
  exact key _ h

theorem get?_of_mem (hk : t.keys.Nodup) (h : (k, v) ∈ t.entries) : t.get? k = some v := by
  have key : ∀ l : List (κ × υ), (l.map (·.1)).Nodup → (k, v) ∈ l → lookup k l = some v := by
    intro l
    induction l with
    | nil => intro _ h; cases h
    | cons p rest ih =>
      intro hk h
      rw [List.map_cons, List.nodup_cons] at hk
      rw [lookup]
      rcases List.mem_cons.mp h with rfl | h
      · rw [if_pos rfl]
      · rw [if_neg, ih hk.2 h]
        intro heq
        exact hk.1 (heq ▸ List.mem_map.mpr ⟨_, h, rfl⟩)
  exact key _ hk h

/-- A key that is already there keeps its place. -/
theorem keys_insert_of_some (h : t.get? k = some v) {v' : υ} : (t.insert k v').keys = t.keys := by
  have key : ∀ l : List (κ × υ), lookup k l = some v →
      (put k v' l).map (·.1) = l.map (·.1) := by
    intro l
    induction l with
    | nil => intro h; cases h
    | cons p rest ih =>
      intro h
      rw [lookup] at h
      split at h
      · next hk => rw [put, if_pos hk, List.map_cons, List.map_cons, hk]
      · next hk => rw [put, if_neg hk, List.map_cons, List.map_cons, ih h]
  exact key _ h

theorem nodup_keys_insert (hk : t.keys.Nodup) : (t.insert k v).keys.Nodup := by
  cases hv : t.get? k with
  | some v' => rwa [keys_insert_of_some hv]
  | none =>
    rw [keys, entries_insert_of_none hv, List.map_append, List.nodup_append]
    refine ⟨hk, by simp, ?_⟩
    rintro a ha b hb rfl
    rw [List.map_singleton, List.mem_singleton] at hb
    subst hb
    obtain ⟨p, hp, rfl⟩ := List.mem_map.mp ha
    have := get?_of_mem hk (k := p.1) (v := p.2) hp
    rw [hv] at this
    cases this

end Table

/-! ### Symbols -/

namespace World

variable {w w' w'' : World} {symbol : String} {a : Word} {changed changed' : Nat → Prop}

/-- The address of a symbol that has one. -/
def link? (w : World) (symbol : String) : Option Word := w.machine.symbols.get? symbol

/-- Each symbol has a region of its own. -/
structure Linked (w : World) : Prop where
  sound : w.memory.Sound
  keys : w.machine.symbols.keys.Nodup
  owns : ∀ symbol a, w.link? symbol = some a → w.memory.Owns a 8
  apart : ∀ symbol symbol' a, w.link? symbol = some a → w.link? symbol' = some a →
    symbol = symbol'

/-- The address of a symbol leads back to it. -/
theorem Linked.nameAt? (hw : w.Linked) (h : w.link? symbol = some a) :
    w.nameAt? a = some symbol := by
  have hmem := Table.mem_of_get? h
  cases hf : w.machine.symbols.entries.find? fun e => e.2 == a with
  | none => exact absurd (by simp) (List.find?_eq_none.mp hf _ hmem)
  | some e =>
    obtain ⟨symbol', a'⟩ := e
    have heq : a' = a := by simpa using List.find?_some hf
    subst heq
    have h' : w.link? symbol' = some a' :=
      Table.get?_of_mem hw.keys (List.mem_of_find?_eq_some hf)
    rw [World.nameAt?, hf, hw.apart _ _ _ h h']
    rfl

/-- The world `w'` is `w` with perhaps more symbols, and with memory in which only the
given addresses have changed. -/
structure Extends (changed : Nat → Prop) (w w' : World) : Prop where
  rest : w' = { w with machine := { w.machine with
    memory := w'.machine.memory, symbols := w'.machine.symbols } }
  links : ∀ symbol a, w.link? symbol = some a → w'.link? symbol = some a
  evolves : w.memory.Evolves changed w'.memory

theorem Extends.refl (w : World) (changed : Nat → Prop) : Extends changed w w :=
  ⟨rfl, fun _ _ h => h, .refl _ _⟩

theorem Extends.then (h : Extends changed w w') (h' : Extends changed' w' w'')
    (hc : ∀ n, n < w.memory.next.toNat → changed' n → changed n) : Extends changed w w'' where
  rest := by rw [h'.rest, h.rest]
  links symbol a ha := h'.links symbol a (h.links symbol a ha)
  evolves := h.evolves.then h'.evolves hc

theorem Extends.mono (h : Extends changed w w')
    (hc : ∀ n, n < w.memory.next.toNat → changed n → changed' n) : Extends changed' w w' :=
  ⟨h.rest, h.links, h.evolves.mono hc⟩

theorem Extends.module_eq (h : Extends changed w w') : w'.module = w.module := by
  rw [h.rest]

theorem Extends.classes_eq (h : Extends changed w w') :
    w'.machine.classes = w.machine.classes := by
  rw [h.rest]

theorem Extends.witnessTables_eq (h : Extends changed w w') :
    w'.machine.witnessTables = w.machine.witnessTables := by
  rw [h.rest]

theorem extends_setMemory {m : Memory} (h : w.memory.Evolves changed m) :
    Extends changed w (w.setMemory m) :=
  ⟨rfl, fun _ _ h => h, h⟩

/-- A world whose memory grew is linked as before. -/
theorem Linked.evolves (hw : w.Linked) (hs : w'.machine.symbols = w.machine.symbols)
    (h : w.memory.Evolves changed w'.memory) : w'.Linked where
  sound := h.sound hw.sound
  keys := by rw [hs]; exact hw.keys
  owns symbol a ha := h.owns (hw.owns symbol a (by rw [link?, ← hs]; exact ha))
  apart symbol symbol' a ha ha' := hw.apart symbol symbol' a (by rw [link?, ← hs]; exact ha)
    (by rw [link?, ← hs]; exact ha')

/-- Asking for an address gives a symbol a region if it has none, and changes nothing
else. -/
theorem ends_addressOf (hw : w.Linked) (symbol : String) :
    Step.Ends (addressOf symbol) w
      (fun a w' => w'.link? symbol = some a ∧ w'.Linked ∧ Extends (fun _ => False) w w')
      fun _ w' => Exhausted w' := by
  rw [addressOf, Step.ends_bind, Step.ends_get]
  cases hs : w.machine.symbols.get? symbol with
  | some a => exact ⟨hs, hw, .refl w _⟩
  | none =>
    simp only [Step.ends_bind]
    refine ends_allocWords (by decide) fun hroom => ?_
    rw [Step.ends_modify]
    have hev : w.memory.Evolves (fun _ => False) (w.memory.allocated (1 * 8)) :=
      Memory.evolves_allocated hroom
    -- an address that was there before is below the new one
    have hold : ∀ symbol' a, w.link? symbol' = some a → a ≠ w.memory.next := by
      rintro symbol' _ h rfl
      have := (hw.owns symbol' _ h).lt_next hw.sound
      omega
    have hlink : ∀ symbol' a,
        (w.machine.symbols.insert symbol w.memory.next).get? symbol' = some a →
          (symbol' = symbol ∧ a = w.memory.next) ∨ w.link? symbol' = some a := by
      intro symbol' a h
      rw [Table.get?_insert] at h
      split at h
      · next heq =>
        cases h
        exact Or.inl ⟨heq.symm, rfl⟩
      · exact Or.inr h
    refine ⟨(Table.get?_insert _ _ _ _).trans (if_pos rfl), ⟨hev.sound hw.sound,
      Table.nodup_keys_insert hw.keys, ?_, ?_⟩, rfl, ?_, hev⟩
    · intro symbol' a h
      rcases hlink symbol' a h with ⟨-, rfl⟩ | h
      · exact Memory.owns_allocated _ _
      · exact hev.owns (hw.owns symbol' a h)
    · intro symbol₁ symbol₂ a h₁ h₂
      rcases hlink symbol₁ a h₁ with ⟨hs₁, ha₁⟩ | hl₁ <;>
        rcases hlink symbol₂ a h₂ with ⟨hs₂, ha₂⟩ | hl₂
      · exact hs₁.trans hs₂.symm
      · exact absurd ha₁ (hold symbol₂ a hl₂)
      · exact absurd ha₂ (hold symbol₁ a hl₁)
      · exact hw.apart _ _ _ hl₁ hl₂
    · intro symbol' a h
      refine (Table.get?_insert _ _ _ _).trans ?_
      rw [if_neg]
      · exact h
      · rintro rfl
        rw [link?, hs] at h
        cases h

end World

end Dispatch
