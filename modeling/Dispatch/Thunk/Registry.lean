import Dispatch.Table
import Dispatch.Code.Basic

/-!
# The registry of entry points

A registry maps a key, a method or a class, to an entry point.  Declaring a key
fixes its symbol and declaration once and for all; defining it gives it a body at
most once.  An attempt to declare that fails leaves no trace.  An attempt to define
that fails leaves the entry without a body, and is counted.

The entries are cells, and two tables lead to them, one from keys and one from symbols.
So an entry that gets its body has it whichever way it is reached.  Several keys may
share a symbol; it leads to the cell of the first of them.

## Main definitions

* `Entry`, `Registry` — entry points.
* `Registry.declare`, `Registry.define` — the two operations.
* `Registry.get?`, `Registry.bySymbol?`, `Registry.bodies` — the views.
-/

namespace Dispatch

/-- A declared entry point and, once it is defined, its body. -/
structure Entry (δ : Type) where
  symbol : String
  declaration : δ
  body : Option Function := none
  deriving Repr, Inhabited

/-- Entry points in the order of their declaration, with tables that lead to their
places. -/
structure Registry (κ δ : Type) where
  cells : List (Entry δ)
  places : Table κ Nat
  symbols : Table String Nat
  /-- How many bodies were started, whether or not they were finished. -/
  emitted : Nat
  /-- Each cell belongs to one key. -/
  own : places.values = List.range cells.length
  /-- A symbol leads to the first cell that has it. -/
  agree : ∀ symbol, symbols.get? symbol = (cells.map Entry.symbol).idxOf? symbol

namespace Registry

variable {κ δ ε : Type} [DecidableEq κ]

/-- The registry without entries. -/
def empty : Registry κ δ := ⟨[], {}, {}, 0, rfl, fun _ => rfl⟩

instance : EmptyCollection (Registry κ δ) := ⟨empty⟩

instance : Inhabited (Registry κ δ) := ⟨empty⟩

/-- The entry of a key. -/
def get? (r : Registry κ δ) (key : κ) : Option (Entry δ) :=
  (r.places.get? key).bind fun i => r.cells[i]?

/-- The entry that a symbol leads to. -/
def bySymbol? (r : Registry κ δ) (symbol : String) : Option (Entry δ) :=
  (r.symbols.get? symbol).bind fun i => r.cells[i]?

/-- The number of keys. -/
def size (r : Registry κ δ) : Nat := r.places.size

/-- Put an entry in a new cell, unless its key has a cell by now.  Its symbol leads to the
cell unless it leads to another one already. -/
def add (r : Registry κ δ) (key : κ) (entry : Entry δ) : Registry κ δ :=
  if h : r.places.get? key = none then
    { r with
      cells := r.cells ++ [entry]
      places := r.places.insert key r.cells.length
      symbols := r.symbols.insertNew entry.symbol r.cells.length
      own := by
        rw [Table.values, Table.entries_insert_of_none h, List.map_append, ← Table.values, r.own,
          List.length_append, List.length_singleton, List.range_succ, List.map_singleton]
      agree := fun symbol => by
        rw [Table.get?_insertNew, List.map_append, List.map_singleton, idxOf?_concat, r.agree,
          r.agree, List.length_map]
        split
        · next hsymbol =>
          rw [← hsymbol]
          cases (r.cells.map Entry.symbol).idxOf? entry.symbol <;> rfl
        · rw [Option.or_none] }
  else r

/-- The entry of a key; `make` says what to declare if there is none. -/
def declare (r : Registry κ δ) (key : κ) (make : Except ε (String × δ)) :
    Except ε (Entry δ × Registry κ δ) :=
  match r.get? key with
  | some entry => .ok (entry, r)
  | none => do
    let (symbol, declaration) ← make
    let entry : Entry δ := { symbol, declaration }
    return (entry, r.add key entry)

/-- Count a body that is started. -/
def start (r : Registry κ δ) : Registry κ δ := { r with emitted := r.emitted + 1 }

/-- A body changes no symbol. -/
theorem map_symbol_modify (cells : List (Entry δ)) (i : Nat) (body : Function) :
    (cells.modify i fun entry => { entry with body := some body }).map Entry.symbol =
      cells.map Entry.symbol := by
  apply List.ext_getElem?
  intro j
  rw [List.getElem?_map, List.getElem?_modify, List.getElem?_map]
  cases cells[j]? with
  | none => rfl
  | some entry => by_cases hij : i = j <;> simp [hij]

/-- Set the body in the cell of a key. -/
def fill (r : Registry κ δ) (key : κ) (body : Function) : Registry κ δ :=
  match r.places.get? key with
  | none => r
  | some i =>
    { r with
      cells := r.cells.modify i fun entry => { entry with body := some body }
      own := by rw [List.length_modify, r.own]
      agree := fun symbol => by rw [map_symbol_modify, r.agree] }

/-- The body of a declared key; `emit` makes it if there is none.  A key that was
never declared has no entry to define. -/
def define (r : Registry κ δ) (key : κ) (emit : Except ε Function) :
    Except ε Function × Registry κ δ :=
  match r.get? key with
  | none => (emit, r)
  | some entry =>
    match entry.body, emit with
    | some body, _ => (.ok body, r)
    | none, .error e => (.error e, r.start)
    | none, .ok body => (.ok body, r.start.fill key body)

/-- Every body, in the order of declaration. -/
def bodies (r : Registry κ δ) : List Function :=
  r.places.values.filterMap fun i => r.cells[i]?.bind Entry.body

end Registry

end Dispatch
