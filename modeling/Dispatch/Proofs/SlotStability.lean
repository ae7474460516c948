import Dispatch.Proofs.Coherence.Check
import Dispatch.Proofs.Reachability

/-!
# Slots down the hierarchy

The entry of a method has one place in the tables of the class that introduced it and of
all classes below.  So the slot that is computed from the table of the introducing class
leads, in the metadata of any class below, to the entry of the method, whether the place
is fixed or starts from bounds that are read at run time.

## Main results

* `World.tableSlot_stable` — the entries of an ancestor stand first, and slots lead to
  them in every world that requests lead to.
* `Crossed.slot_moved` — not so after a call for a receiver of another type.
-/

namespace Dispatch

namespace Hierarchy

/-- The methods of the table of every class of the ancestry stand first, in their order. -/
theorem prefix_of_ancestry {h : Hierarchy} {name : String} {t : VTable}
    (ht : h.vtable name = .ok t) :
    ∃ ancestry, h.ancestry name = .ok ancestry ∧
      ∀ c ∈ ancestry, ∃ t', h.vtable c.name = .ok t' ∧ t'.methods <+: t.methods := by
  obtain ⟨ancestry, hancestry, -⟩ := Attempt.bind_eq_ok.mp ht
  refine ⟨ancestry, hancestry, fun c hc => ?_⟩
  obtain ⟨n, hn⟩ := descends_of_mem_ancestry hancestry hc
  exact hn.prefix_methods ht

end Hierarchy

namespace World

/-- Slots are stable.  In any hierarchy, the methods of the table of an ancestor are the
first ones of the table of a class.  In a module that fits together, and in every world
that requests lead to, the slot of a method leads to the word of its entry, inside the
metadata of every class below the one that introduced it; the index of the entry is never
less than where the introducing class's own entries start. -/
theorem tableSlot_stable :
    (∀ (h : Hierarchy) (name : String) (t : VTable), h.vtable name = .ok t →
      ∃ ancestry, h.ancestry name = .ok ancestry ∧
        ∀ c ∈ ancestry, ∃ t', h.vtable c.name = .ok t' ∧ t'.methods <+: t.methods) ∧
    ∀ (u : Module) (refs : List Method) (w : World) (m base : Method) (owner dynamic : String)
      (n : Nat) (metadata : Word), u.Coherent refs → Reached u refs w →
      u.hierarchy.introducing m = .ok base → base.owner = .ofClass owner →
      u.hierarchy.Descends owner n dynamic → w.machine.classes.get? dynamic = some metadata →
      ∃ slot above t k, u.hierarchy.slot m = .ok slot ∧ u.hierarchy.vtable owner = .ok above ∧
        u.hierarchy.vtable dynamic = .ok t ∧ t.entries.findIdx? (·.method == base) = some k ∧
        tableSlot metadata slot w = .ok (metadata.plus (8 * (2 + k))) w ∧
        above.ownStart ≤ 2 + k ∧ 2 + k < t.words ∧
        w.memory.regionSize? metadata = some (8 * t.words) := by
  refine ⟨fun h name t ht => Hierarchy.prefix_of_ancestry ht, ?_⟩
  intro u refs w m base owner dynamic n metadata hu hw hbase howner hd hclass
  have htabled := (hw.ready hu).1.tabled
  obtain ⟨t, hat⟩ := htabled.classes dynamic metadata hclass
  obtain ⟨slot, above, k, e, hslot, habove, hstart, hek, hindex, -, haddress⟩ :=
    htabled.slot hu.hierarchy hbase howner hd hat
  have hlt : k < t.entries.length := (List.getElem?_eq_some_iff.mp hek).1
  refine ⟨slot, above, t, k, hslot, habove, hat.table, hindex, haddress, ?_, ?_,
    hat.owns.regionSize htabled.linked.sound⟩
  · rw [Nat.add_comm]
    exact hstart
  · exact Nat.add_lt_add_left hlt 2

/-- The slot of `area`, whose place depends on bounds, in the metadata of squares. -/
theorem tableSlot_stable_area :
    ∃ slot k, Shapes.unit.hierarchy.slot Shapes.squareArea = .ok slot ∧
      tableSlot 4240 slot Shapes.unit.start
        = .ok ((4240 : Word).plus (8 * (2 + k))) Shapes.unit.start := by
  have hstart : Shapes.unit.boot.isOk = true ∧ ¬ Exhausted Shapes.unit.start ∧
      Shapes.unit.hierarchy.introducing Shapes.squareArea = .ok Shapes.area ∧
      Shapes.unit.hierarchy.steps? "Shape" "Square" = some 1 ∧
      Shapes.unit.start.machine.classes.get? "Square" = some 4240 := by decide +kernel
  obtain ⟨hboot, hroom, hbase, hsteps, hclass⟩ := hstart
  obtain ⟨slot, -, -, k, hslot, -, -, -, haddress, -⟩ := tableSlot_stable.2 Shapes.unit
    Shapes.methods Shapes.unit.start Shapes.squareArea Shapes.area "Shape" "Square" 1 4240
    Shapes.coherent_unit (reached_start hboot hroom) hbase rfl
    (Hierarchy.descends_of_steps? hsteps) hclass
  exact ⟨slot, k, hslot, haddress⟩

end World

namespace Crossed

open World

/-- After a call of `set` for the metadata of `Wide`, with the address of its bounds. -/
def widened : World :=
  (Request.callThunk set { receiver := 0x1100, args := [.value [0x1178]] }).run.final
    ((Request.implement "all" fun _ _ => .ok [24, 0, 0, 0, 0]).run.final unit.start)

/-- A call for a receiver that the method does not have can overwrite the bounds of a
class; then the slot of a method leads to another entry. -/
theorem slot_moved :
    unit.Coherent methods ∧ unit.hierarchy.introducing all = .ok all ∧
      (unit.hierarchy.vtable "Wide").toOption.map (·.entries.findIdx? (·.method == all))
        = some (some 0) ∧
      widened.machine.classes.get? "Wide" = some 0x1100 ∧
      unit.hierarchy.slot all = .ok (.resilient "_relay_crossed$Wide$Mo" 0) ∧
      (tableSlot 0x1100 (.resilient "_relay_crossed$Wide$Mo" 0)).value? widened
        = some (0x1100 + 8 * 3) := by
  refine ⟨coherent_unit, ?_⟩
  decide +kernel

end Crossed

end Dispatch
