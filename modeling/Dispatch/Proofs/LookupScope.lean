import Dispatch.Proofs.Ancestry

/-!
# Whom the run-time system answers

The run-time system looks a method up in the metadata of any class that descends from the
class on whose behalf it is asked, and refuses all others.  It does not ask whether the
class has the method.  If the class does, the answer is the entry that its table holds for
the method; if not, the slot of the method may still be one of the table, and then the
answer is the entry of a method that has nothing to do with the one that was asked for.

## Main definitions

* `Siblings.unit` — two classes with one superclass, each of which adds a method.

## Main results

* `World.lookupClassMethod_eq` — what a question comes to.
* `World.lookupClassMethod_outsider`, `World.lookupClassMethod_stray` — the answers for
  classes that do not descend from the one that asks, and from the one that introduced the
  method.
* `World.lookupClassMethod_answers` — who gets which answer.
* `Siblings.answered_for_sibling` — a dog is asked for the method of a cat, and answers.
-/

namespace Dispatch

open Attempt

namespace World

variable {u : Module} {refs : List Method} {w w' : World} {m : Method}
  {className dynamic owner : String} {metadata descriptor typeDescriptor entry : Word}
  {n : Nat} {ancestry : List ClassDecl}

/-- A question about a method comes to a walk up the superclasses, and then to reading what
stands at the slot of the method. -/
theorem lookupClassMethod_eq (hw : Ready u refs w) (hdescriptor : DescriptorAt u m w descriptor) :
    lookupClassMethod metadata descriptor typeDescriptor w = (do
      if ← inMemory fun memory => descendsFrom memory metadata typeDescriptor then
        let slot ← (u.hierarchy.slot m).onMachine
        read (← tableSlot metadata slot)
      else fail (.badDescriptor descriptor) : Run Word) w := by
  obtain ⟨symbol, -, hlink, hglobal⟩ := hdescriptor
  have hmethod : (w.nameAt? descriptor).bind w.module.globals.get?
      = some (.methodDescriptor m) := by
    rw [hw.tabled.linked.nameAt? hlink]
    exact hglobal
  rw [lookupClassMethod, Step.bind_of_ok Step.run_get]
  simp only [hmethod, hw.generated.hierarchy]

/-- No class gets an answer that does not descend from the one that asks, if its chain of
superclasses has at most 63 steps. -/
theorem lookupClassMethod_outsider (hw : Ready u refs w)
    (hdescriptor : DescriptorAt u m w descriptor) (htype : TypeAt u className w typeDescriptor)
    (ha : u.hierarchy.ancestry dynamic = .ok ancestry) (hlength : ancestry.length ≤ 64)
    (hclass : w.machine.classes.get? dynamic = some metadata)
    (hno : ∀ n, ¬ u.hierarchy.Descends className n dynamic) :
    ∃ cause, lookupClassMethod metadata descriptor typeDescriptor w
      = .error (.machine cause) w := by
  rw [lookupClassMethod_eq hw hdescriptor]
  obtain hlt | heq := Nat.lt_or_eq_of_le hlength
  · have hwalk := descendsTo_false hw.tabled htype ha hclass hno hlt
    rw [Step.bind_of_ok (inMemory_ok hwalk)]
    exact ⟨_, rfl⟩
  · -- the walk gives up just when it has come to the root
    have hwalk := descendsTo_above hw.tabled htype ha hclass hno
    rw [heq] at hwalk
    refine ⟨.unmapped 0, Step.bind_of_error ?_⟩
    rw [inMemory, Step.bind_of_ok Step.run_get]
    change (liftM (descendsFrom w.memory metadata typeDescriptor) : Run Bool) w = _
    rw [descendsFrom, maxAncestry, hwalk]
    rfl

/-- A class that descends from the one that asks, but not from the one that introduced the
method, gets the entry of another method, if its table is long enough. -/
theorem lookupClassMethod_stray (hw : Ready u refs w) (hwf : u.hierarchy.WellFormed)
    (hself : u.hierarchy.introducing m = .ok m) (howner : m.owner = .ofClass owner)
    (hdescriptor : DescriptorAt u m w descriptor) (htype : TypeAt u className w typeDescriptor)
    (hclass : w.machine.classes.get? dynamic = some metadata)
    (hd : u.hierarchy.Descends className n dynamic) (hn : n < maxAncestry)
    (hno : ∀ k, ¬ u.hierarchy.Descends owner k dynamic) :
    ∃ above t k, u.hierarchy.vtable owner = .ok above ∧ u.hierarchy.vtable dynamic = .ok t ∧
      above.entries.findIdx? (·.method == m) = some k ∧
      ∀ e, t.entries[k]? = some e → e.method ≠ m ∧ ∃ entry, EntryWord u e entry w ∧
        lookupClassMethod metadata descriptor typeDescriptor w = .ok entry w := by
  obtain ⟨owner', above, k, resilient, howner', habove, hindex, hstart, hslot⟩ := hwf.slot hself
  rw [howner] at howner'
  cases howner'
  obtain ⟨t, hat⟩ := hw.tabled.classes dynamic metadata hclass
  refine ⟨above, t, k, habove, hat.table, hindex, fun e he => ⟨?_, ?_⟩⟩
  · -- every method of a table was introduced above
    intro hmethod
    obtain ⟨ancestor, j, hancestor, hj⟩ := hwf.owner_of_mem hat.table
      (List.mem_map.mpr ⟨e, List.mem_of_getElem? he, hmethod⟩)
    rw [howner] at hancestor
    cases hancestor
    exact hno j hj
  · obtain ⟨_, _, _, _, hfilled⟩ := hat.filled
    obtain ⟨entry, hentry, hread⟩ := hfilled.entries k e he
    obtain ⟨_, _, hdecl, -, -⟩ := Hierarchy.vtable_cases habove
    obtain ⟨t₀, metadata₀, -, hat₀⟩ := hw.tabled.classAt hdecl
    have habove₀ := hat₀.table
    rw [habove] at habove₀
    cases habove₀
    have hwalk := descendsTo_ok hw.tabled hd htype hclass hn
    refine ⟨entry, hentry, ?_⟩
    rw [lookupClassMethod_eq hw hdescriptor, Step.bind_of_ok (inMemory_ok hwalk), if_pos rfl, hslot]
    change (tableSlot metadata _ >>= World.read) w = .ok entry w
    rw [Step.bind_of_ok (tableSlot_ok hw.tabled hat habove (List.getElem?_eq_some_iff.mp he).1
      hstart ⟨_, hat₀⟩)]
    exact read_ok hread

/-- Who gets which answer.  In a module whose chains of superclasses have at most 63 steps,
and in every world whose tables nobody has overwritten, the run-time system is asked for a
method that introduced an entry.  Whoever gets an answer descends from the class that asks,
and if it descends from the class that introduced the method too, the answer is the entry
that its table holds for the method; every class that descends from both gets it.  A class
that does not descend from the one that asks gets a fault.  The one that is left descends
from the class that asks and does not have the method: it gets whatever entry its table has
at the place of the method. -/
theorem lookupClassMethod_answers (hu : u.Coherent refs) (hw : Undisturbed u refs w)
    (hshallow : ∀ decl ∈ u.hierarchy.classes, ∀ ancestry,
      u.hierarchy.ancestry decl.name = .ok ancestry → ancestry.length ≤ 64)
    (hintro : u.hierarchy.introduces m = .ok true) (howner : m.owner = .ofClass owner)
    (hclass : w.machine.classes.get? dynamic = some metadata)
    (htype : TypeAt u className w typeDescriptor) (hdescriptor : DescriptorAt u m w descriptor) :
    (∀ entry w', lookupClassMethod metadata descriptor typeDescriptor w = .ok entry w' →
      (∃ n, u.hierarchy.Descends className n dynamic) ∧
        ((∃ k, u.hierarchy.Descends owner k dynamic) → EntryOf u w dynamic m entry)) ∧
    ((∃ n, u.hierarchy.Descends className n dynamic) →
      (∃ k, u.hierarchy.Descends owner k dynamic) → ∃ entry, EntryOf u w dynamic m entry ∧
        lookupClassMethod metadata descriptor typeDescriptor w = .ok entry w) ∧
    ((∀ n, ¬ u.hierarchy.Descends className n dynamic) →
      ∃ cause, lookupClassMethod metadata descriptor typeDescriptor w
        = .error (.machine cause) w) ∧
    ((∃ n, u.hierarchy.Descends className n dynamic) →
      (∀ k, ¬ u.hierarchy.Descends owner k dynamic) →
      ∃ above t k, u.hierarchy.vtable owner = .ok above ∧ u.hierarchy.vtable dynamic = .ok t ∧
        above.entries.findIdx? (·.method == m) = some k ∧
        ∀ e, t.entries[k]? = some e → e.method ≠ m ∧ ∃ entry, EntryWord u e entry w ∧
          lookupClassMethod metadata descriptor typeDescriptor w = .ok entry w) := by
  obtain ⟨hready, -⟩ := hw.ready hu
  have hself := Module.introducing_of_introduces hintro
  -- the chain above the class is short enough for the walk
  obtain ⟨t, hat⟩ := hready.tabled.classes dynamic metadata hclass
  obtain ⟨decl, -, hdecl, -, -⟩ := hat.filled
  obtain ⟨ancestry, ha⟩ := hu.hierarchy.ancestry hdecl
  have hlength : ancestry.length ≤ 64 := by
    obtain ⟨hmem, rfl⟩ := Hierarchy.mem_of_classNamed hdecl
    exact hshallow decl hmem ancestry ha
  have hreach : ∀ {n}, u.hierarchy.Descends className n dynamic → n < maxAncestry := fun hd =>
    Nat.lt_of_lt_of_le (hd.lt_length ha) hlength
  have hfound : ∀ {n k}, u.hierarchy.Descends className n dynamic →
      u.hierarchy.Descends owner k dynamic → ∃ entry, EntryOf u w dynamic m entry ∧
        lookupClassMethod metadata descriptor typeDescriptor w = .ok entry w := by
    intro n k hd habove
    obtain ⟨entry, hentry⟩ :=
      exists_entryOf hready.tabled hu.hierarchy hself howner habove hclass
    exact ⟨entry, hentry, hentry.lookupClassMethod hready hu.hierarchy hself hclass hd
      (hreach hd) hdescriptor htype⟩
  have hrefused := lookupClassMethod_outsider hready hdescriptor htype ha hlength hclass
  refine ⟨?_, ?_, hrefused, ?_⟩
  · intro entry w' hrun
    have hd : ∃ n, u.hierarchy.Descends className n dynamic := by
      by_contra hno
      obtain ⟨cause, hfault⟩ := hrefused (not_exists.mp hno)
      rw [hrun] at hfault
      cases hfault
    obtain ⟨n, hn⟩ := hd
    refine ⟨⟨n, hn⟩, ?_⟩
    rintro ⟨k, hk⟩
    obtain ⟨entry', hentry, hrun'⟩ := hfound hn hk
    rw [hrun] at hrun'
    cases hrun'
    exact hentry
  · rintro ⟨n, hn⟩ ⟨k, hk⟩
    exact hfound hn hk
  · rintro ⟨n, hn⟩ hno
    exact lookupClassMethod_stray hready hu.hierarchy hself howner hdescriptor htype hclass hn
      (hreach hn) hno

end World

/-! ### A dog that answers for a cat -/

namespace Siblings

/-- A method of a class, on instances. -/
def method (owner selector : String) (self : TypeId) : Method where
  module := "zoo"
  owner := .ofClass owner
  selector := selector
  kind := .onInstance
  signature := {
    convention := .ordinary, generics := {}, selfType := self, params := [], result := 0,
    error := none }

/-- All animals speak. -/
def speak : Method := method "Animal" "speak" 8

/-- Dogs fetch. -/
def fetch : Method := method "Dog" "fetch" 9

/-- Cats purr. -/
def purr : Method := method "Cat" "purr" 10

/-- The methods that the module declares. -/
def methods : List Method := [speak, fetch, purr]

/-- Two kinds of animals. -/
def unit : Module where
  pool := Pool.new.extend [.object "Animal", .object "Dog", .object "Cat"]
  hierarchy := {
    module := "zoo"
    classes := [
      { name := "Animal", superclass := none, resilient := false,
        methods := [⟨speak, "speak", .isPublic, none⟩] },
      { name := "Dog", superclass := some "Animal", resilient := false,
        methods := [⟨fetch, "fetch", .isPublic, none⟩] },
      { name := "Cat", superclass := some "Animal", resilient := false,
        methods := [⟨purr, "purr", .isPublic, none⟩] }] }

theorem coherent_unit : unit.Coherent methods := Module.coherent_of_fits (by decide +kernel)

/-- The symbol of the descriptor of `purr`. -/
def purrDescriptor : String := "_relay_zoo$Cat$purr$cio_v$Tq"

/-- The descriptor of `purr` is declared, but has no address yet. -/
def declared : World := (Operation.query (.declareDescriptor purr)).run.final unit.start

/-- Its address was asked for. -/
def asked : World := (Operation.addressOf purrDescriptor).run.final declared

open World

theorem undisturbed_asked : Undisturbed unit methods asked := by
  have hstart : unit.boot.isOk = true ∧ ¬ Exhausted unit.start ∧ ¬ Exhausted declared ∧
      ¬ Exhausted asked ∧ purr ∈ methods := by decide +kernel
  obtain ⟨hboot, hroom, hdeclared, hasked, hpurr⟩ := hstart
  have hquery : (Operation.query (.declareDescriptor purr)).Gentle unit methods unit.start := by
    intro m hm
    rw [List.mem_singleton.mp hm]
    exact hpurr
  exact .operate (.operate (reached_start hboot hroom).undisturbed _ hquery hdeclared) _ trivial
    hasked

theorem descriptorAt_asked : DescriptorAt unit purr asked 4448 := by
  refine ⟨purrDescriptor, ?_⟩
  decide +kernel

/-- A cat is asked for its own method on behalf of all animals. -/
theorem lookupClassMethod_answers_purr :
    ∃ entry, EntryOf unit asked "Cat" purr entry ∧
      lookupClassMethod 4328 4448 4136 asked = .ok entry asked := by
  have hasked : unit.hierarchy.introduces purr = .ok true ∧
      asked.machine.classes.get? "Cat" = some 4328 ∧
      TypeAt unit "Animal" asked 4136 ∧
      unit.hierarchy.steps? "Animal" "Cat" = some 1 ∧
      unit.hierarchy.steps? "Cat" "Cat" = some 0 ∧
      ∀ decl ∈ unit.hierarchy.classes,
        (unit.hierarchy.ancestry decl.name).toOption.all (·.length ≤ 64) = true := by
    unfold TypeAt
    decide +kernel
  obtain ⟨hintro, hclass, htype, hanimal, hcat, hshort⟩ := hasked
  obtain ⟨-, hfinds, -, -⟩ := lookupClassMethod_answers coherent_unit
    undisturbed_asked (fun decl hdecl ancestry ha => by
      have hall := hshort decl hdecl
      rw [ha] at hall
      exact of_decide_eq_true hall)
    hintro rfl hclass htype descriptorAt_asked
  exact hfinds ⟨1, Hierarchy.descends_of_steps? hanimal⟩ ⟨0, Hierarchy.descends_of_steps? hcat⟩

/-- A dog is asked for the method of a cat, on behalf of all animals, and answers with the
method that it has at the same place. -/
theorem answered_for_sibling :
    unit.Coherent methods ∧ Undisturbed unit methods asked ∧
      DescriptorAt unit purr asked 4448 ∧ TypeAt unit "Animal" asked 4136 ∧
      asked.machine.classes.get? "Dog" = some 4208 ∧
      unit.hierarchy.introduces purr = .ok true ∧ purr.owner = .ofClass "Cat" ∧
      (unit.hierarchy.ancestry "Dog").toOption.map (·.map ClassDecl.name)
        = some ["Animal", "Dog"] ∧
      (lookupClassMethod 4208 4448 4136).value? asked = some 4280 ∧
      asked.link? "fetch" = some 4280 := by
  refine ⟨coherent_unit, undisturbed_asked, descriptorAt_asked, ?_⟩
  unfold TypeAt
  decide +kernel

end Siblings

end Dispatch
