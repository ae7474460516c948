import Dispatch.Thunk.Registry
import Dispatch.Proofs.Linking

/-!
# What a registry holds

The cells of a registry belong to its keys in the order of declaration.  So a registry can
be read as one table of entries, and what the operations do to the cells and to the two
tables that lead to them is an insertion into this table.

## Main definitions

* `Registry.view` — the entries by key.

## Main results

* `Registry.get?_eq`, `Registry.bySymbol?_eq`, `Registry.bodies_eq` — what the view says.
* `Registry.view_add`, `Registry.view_fill` — what the operations do to the view.
-/

namespace Dispatch

namespace Table

variable {κ υ : Type} [DecidableEq κ] {k : κ} {i n : Nat}

omit [DecidableEq κ] in
/-- Places in a row: the first is the first of the cells, the others belong to the rest. -/
theorem tiles_cons {p : κ × Nat} {places : List (κ × Nat)} {cells : List υ}
    (h : (p :: places).map (·.2) = List.range' n cells.length) :
    ∃ cell rest, cells = cell :: rest ∧ p.2 = n ∧
      places.map (·.2) = List.range' (n + 1) rest.length := by
  cases cells with
  | nil => cases h
  | cons cell rest =>
    rw [List.map_cons, List.length_cons, List.range'_succ, List.cons.injEq] at h
    exact ⟨cell, rest, rfl, h.1, h.2⟩

/-- A place that a key leads to is not before the first one. -/
theorem le_of_lookup {places : List (κ × Nat)} {length : Nat}
    (h : places.map (·.2) = List.range' n length) (hk : lookup k places = some i) : n ≤ i := by
  have hmem : (k, i) ∈ places := mem_of_get? (t := ⟨places⟩) hk
  have hi : i ∈ List.range' n length := h ▸ List.mem_map.mpr ⟨_, hmem, rfl⟩
  exact (List.mem_range'_1.mp hi).1

/-- Following the place of a key is finding it in a list of keys and cells. -/
theorem lookup_zip (places : List (κ × Nat)) (cells : List υ)
    (h : places.map (·.2) = List.range' n cells.length) :
    lookup k ((places.map (·.1)).zip cells) = (lookup k places).bind fun i => cells[i - n]? := by
  induction places generalizing cells n with
  | nil => rfl
  | cons p places ih =>
    obtain ⟨cell, rest, rfl, hp, hrest⟩ := tiles_cons h
    rw [List.map_cons, List.zip_cons_cons, lookup, lookup, hp]
    split
    · rw [Option.bind_some, Nat.sub_self, List.getElem?_cons_zero]
    · rw [ih rest hrest]
      cases hk : lookup k places with
      | none => rfl
      | some i =>
        have hle := le_of_lookup hrest hk
        rw [Option.bind_some, Option.bind_some, show i - n = i - (n + 1) + 1 by omega,
          List.getElem?_cons_succ]

/-- Changing the cell that a key leads to is putting the new value at the key. -/
theorem zip_modify (places : List (κ × Nat)) (cells : List υ) (g : υ → υ) {x : υ}
    (h : places.map (·.2) = List.range' n cells.length) (hk : lookup k places = some i)
    (hx : cells[i - n]? = some x) :
    (places.map (·.1)).zip (cells.modify (i - n) g) =
      put k (g x) ((places.map (·.1)).zip cells) := by
  induction places generalizing cells n with
  | nil => cases hk
  | cons p places ih =>
    obtain ⟨cell, rest, rfl, hp, hrest⟩ := tiles_cons h
    rw [List.map_cons, List.zip_cons_cons, put]
    rw [lookup] at hk
    split at hk
    · next hkey =>
      obtain rfl : p.2 = i := Option.some.inj hk
      rw [hp, Nat.sub_self] at hx ⊢
      cases hx
      rw [if_pos hkey, List.modify_zero_cons, List.zip_cons_cons, hkey]
    · next hkey =>
      have hle := le_of_lookup hrest hk
      have hi : i - n = i - (n + 1) + 1 := by omega
      rw [hi, List.getElem?_cons_succ] at hx
      rw [if_neg hkey, hi, List.modify_succ_cons, List.zip_cons_cons, ih rest hrest hk hx]

end Table

namespace Registry

variable {κ δ ε : Type} [DecidableEq κ] {r : Registry κ δ} {key : κ} {entry : Entry δ}
  {f : Function}

omit [DecidableEq κ] in
theorem tiles (r : Registry κ δ) :
    r.places.entries.map (·.2) = List.range' 0 r.cells.length := by
  rw [← List.range_eq_range']
  exact r.own

/-- The entries by key, in the order of declaration. -/
def view (r : Registry κ δ) : Table κ (Entry δ) := ⟨r.places.keys.zip r.cells⟩

omit [DecidableEq κ] in
theorem length_keys (r : Registry κ δ) : r.places.keys.length = r.cells.length := by
  rw [Table.keys, List.length_map, ← List.length_map (f := (·.2)), tiles, List.length_range']

omit [DecidableEq κ] in
@[simp]
theorem view_values (r : Registry κ δ) : r.view.values = r.cells :=
  List.map_snd_zip (Nat.le_of_eq r.length_keys.symm)

omit [DecidableEq κ] in
@[simp]
theorem view_start (r : Registry κ δ) : r.start.view = r.view := rfl

omit [DecidableEq κ] in
theorem view_of_cells_nil (h : r.cells = []) : r.view = {} := by
  rw [view, h, List.zip_nil_right]

/-! ### Reading -/

theorem get?_of_cells_nil (h : r.cells = []) (key : κ) : r.get? key = none := by
  rw [get?, h]
  simp

theorem get?_eq (r : Registry κ δ) (key : κ) : r.get? key = r.view.get? key :=
  (Table.lookup_zip _ _ r.tiles).symm

theorem mem_view (h : r.get? key = some entry) : (key, entry) ∈ r.view.entries :=
  Table.mem_of_get? (r.get?_eq key ▸ h)

theorem get?_of_mem_view (hkeys : r.view.keys.Nodup) (h : (key, entry) ∈ r.view.entries) :
    r.get? key = some entry := by
  rw [get?_eq, Table.get?_of_mem hkeys h]

omit [DecidableEq κ] in
theorem bySymbol?_eq (r : Registry κ δ) (symbol : String) :
    r.bySymbol? symbol = r.view.values.find? (·.symbol == symbol) := by
  rw [bySymbol?, r.agree, view_values, List.find?_eq_bind_findIdx?_getElem?, List.idxOf?,
    List.findIdx?_map]
  rfl

/-- The entry that a symbol leads to has the symbol, and there is a key for it. -/
theorem exists_of_bySymbol? (hkeys : r.view.keys.Nodup) {symbol : String}
    (h : r.bySymbol? symbol = some entry) :
    ∃ key, r.get? key = some entry ∧ entry.symbol = symbol := by
  rw [bySymbol?_eq] at h
  obtain ⟨⟨key, entry'⟩, hmem, rfl⟩ := List.mem_map.mp (List.mem_of_find?_eq_some h)
  exact ⟨key, get?_of_mem_view hkeys hmem, by simpa using List.find?_some h⟩

/-- A symbol that no entry has leads nowhere. -/
theorem bySymbol?_eq_none (hkeys : r.view.keys.Nodup) {symbol : String}
    (h : ∀ key entry, r.get? key = some entry → entry.symbol ≠ symbol) :
    r.bySymbol? symbol = none := by
  cases hentry : r.bySymbol? symbol with
  | none => rfl
  | some entry =>
    obtain ⟨key, hkey, hsymbol⟩ := exists_of_bySymbol? hkeys hentry
    exact absurd hsymbol (h key entry hkey)

omit [DecidableEq κ] in
theorem size_eq (r : Registry κ δ) : r.size = r.view.size := by
  rw [size, Table.size, Table.size, view, List.length_zip, ← r.length_keys, Nat.min_self,
    Table.keys, List.length_map]

omit [DecidableEq κ] in
theorem bodies_eq (r : Registry κ δ) : r.bodies = r.view.values.filterMap Entry.body := by
  have hcells : r.places.values.map (fun i => r.cells[i]?) = r.cells.map some := by
    rw [r.own]
    apply List.ext_getElem
    · simp
    · intro i hi hi'
      simp
  rw [view_values]
  calc r.bodies
      = (r.places.values.map fun i => r.cells[i]?).filterMap (·.bind Entry.body) := by
        rw [List.filterMap_map]
        rfl
    _ = r.cells.filterMap Entry.body := by
        rw [hcells, List.filterMap_map]
        rfl

/-- A key has an entry if it has a place. -/
theorem get?_eq_none_iff : r.get? key = none ↔ r.places.get? key = none := by
  rw [get?]
  cases hkey : r.places.get? key with
  | none => simp
  | some i =>
    have hi : i ∈ r.places.values := List.mem_map.mpr ⟨_, Table.mem_of_get? hkey, rfl⟩
    rw [r.own, List.mem_range] at hi
    simp [hi]

/-! ### Writing -/

theorem view_add (h : r.get? key = none) (entry : Entry δ) :
    (r.add key entry).view = r.view.insert key entry := by
  have hplace := get?_eq_none_iff.mp h
  have hentries : (r.add key entry).view.entries = r.view.entries ++ [(key, entry)] := by
    rw [add, dif_pos hplace]
    show ((r.places.insert key r.cells.length).entries.map (·.1)).zip (r.cells ++ [entry]) = _
    rw [Table.entries_insert_of_none hplace, List.map_append, ← Table.keys,
      List.zip_append r.length_keys]
    rfl
  rw [get?_eq] at h
  rw [← Table.entries_insert_of_none h] at hentries
  exact congrArg Table.mk hentries

theorem view_fill (h : r.get? key = some entry) (f : Function) :
    (r.fill key f).view = r.view.insert key { entry with body := some f } := by
  obtain ⟨i, hplace, hcell⟩ := Option.bind_eq_some_iff.mp h
  rw [fill, hplace]
  exact congrArg Table.mk (Table.zip_modify _ _ _ r.tiles hplace hcell)

/-- What is found after one more insertion. -/
theorem get?_of_view {r' : Registry κ δ} (h : r'.view = r.view.insert key entry) (key' : κ) :
    r'.get? key' = if key = key' then some entry else r.get? key' := by
  rw [get?_eq, h, Table.get?_insert, ← get?_eq]

theorem get?_cases {r' : Registry κ δ} {key' : κ} {entry' : Entry δ}
    (h : r'.view = r.view.insert key entry) (h' : r'.get? key' = some entry') :
    key' = key ∧ entry' = entry ∨ r.get? key' = some entry' := by
  rw [get?_of_view h] at h'
  split at h'
  · next heq => exact Or.inl ⟨heq.symm, (Option.some.inj h').symm⟩
  · exact Or.inr h'

theorem get?_add (h : r.get? key = none) (entry : Entry δ) :
    (r.add key entry).get? key = some entry := by
  rw [get?_of_view (view_add h entry), if_pos rfl]

/-- A body that is started and finished. -/
theorem view_start_fill (h : r.get? key = some entry) (f : Function) :
    (r.start.fill key f).view = r.view.insert key { entry with body := some f } :=
  view_fill (r := r.start) h f

theorem get?_start_fill (h : r.get? key = some entry) (f : Function) :
    (r.start.fill key f).get? key = some { entry with body := some f } := by
  rw [get?_of_view (view_start_fill h f), if_pos rfl]

@[simp]
theorem emitted_add (r : Registry κ δ) (key : κ) (entry : Entry δ) :
    (r.add key entry).emitted = r.emitted := by
  rw [add]
  split <;> rfl

omit [DecidableEq κ] in
@[simp]
theorem emitted_start (r : Registry κ δ) : r.start.emitted = r.emitted + 1 := rfl

@[simp]
theorem emitted_fill (r : Registry κ δ) (key : κ) (f : Function) :
    (r.fill key f).emitted = r.emitted := by
  rw [fill]
  split <;> rfl

/-! ### The two operations -/

theorem declare_of_some (hkey : r.get? key = some entry) (make : Except ε (String × δ)) :
    r.declare key make = .ok (entry, r) := by
  rw [declare, hkey]

theorem declare_of_none (hkey : r.get? key = none) (symbol : String) (declaration : δ) :
    r.declare key (.ok (symbol, declaration) : Except ε _) =
      .ok ({ symbol, declaration }, r.add key { symbol, declaration }) := by
  rw [declare, hkey]
  rfl

theorem declare_error_of_none (hkey : r.get? key = none) (e : ε) :
    r.declare key (.error e) = .error e := by
  rw [declare, hkey]
  rfl

/-- The entry that is declared is in the registry from then on. -/
theorem get?_declare {make : Except ε (String × δ)} {r' : Registry κ δ}
    (h : r.declare key make = .ok (entry, r')) : r'.get? key = some entry := by
  cases hkey : r.get? key with
  | some old =>
    rw [declare_of_some hkey] at h
    cases h
    exact hkey
  | none =>
    cases make with
    | error e =>
      rw [declare_error_of_none hkey] at h
      cases h
    | ok made =>
      rw [declare_of_none hkey] at h
      cases h
      exact get?_add hkey _

theorem define_of_body (hkey : r.get? key = some entry) (hbody : entry.body = some f)
    (emit : Except ε Function) : r.define key emit = (.ok f, r) := by
  simp only [define, hkey, hbody]

theorem define_ok (hkey : r.get? key = some entry) (hbody : entry.body = none) (f : Function) :
    r.define key (.ok f : Except ε _) = (.ok f, r.start.fill key f) := by
  simp only [define, hkey, hbody]

theorem define_error (hkey : r.get? key = some entry) (hbody : entry.body = none) (e : ε) :
    r.define key (.error e) = (.error e, r.start) := by
  simp only [define, hkey, hbody]

end Registry

end Dispatch
