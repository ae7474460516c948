import Mathlib.Algebra.BigOperators.Group.List.Basic
import Mathlib.Algebra.Order.BigOperators.Group.List
import Mathlib.Algebra.Order.Group.Nat
import Dispatch.Proofs.Reachability

/-!
# What fits into memory boots

Booting lays out the tables of a module.  Declarations that fit together leave one reason
why it could fail: that memory is used up.  What it takes can be told from the declarations:
every table and every symbol that is asked for has a region of its own.  Classes are laid out
when they are first asked for, superclasses first, so it is not a count of steps that tells
how much memory is left.  What carries the argument is a potential: the bytes in use,
together with those that the classes without metadata are still going to take, never grow.

## Main definitions

* `Hierarchy.classBytes`, `Hierarchy.conformanceBytes`, `Hierarchy.bytes` — what tables take.
* `World.Takes` — a step that ends with a value, if there is enough memory.
* `World.potential` — the bytes in use, and those that will be.

## Main results

* `World.takes_layOutClass`, `World.takes_layOutConformance` — laying out one table.
* `World.instantiateTo_potential` — laying out a class with its superclasses.
* `Module.boots` — a module whose tables fit into memory boots.
-/

namespace Dispatch

open Attempt

/-! ### What tables take -/

/-- The bytes that a table of so many words takes, if so many symbols are asked for to fill
it, each of which has a region of one word. -/
def tableBytes (words symbols : Nat) : Nat :=
  wordBytes * words + Region.gapBytes + (wordBytes + Region.gapBytes) * symbols

namespace Hierarchy

variable {h : Hierarchy} {name : String} {c : ClassDecl} {t : VTable}
  {classes : Table String Word} {base : Word}

/-- The bytes that it takes to lay out a class.  Its entries are symbols, and so are its type
descriptor and its bounds. -/
def classBytes (h : Hierarchy) (name : String) : Nat :=
  match h.vtable name with
  | .ok t => tableBytes t.words (t.entries.length + 2)
  | .error _ => 0

/-- The bytes that it takes to lay out a conformance. -/
def conformanceBytes (c : Conformance) : Nat :=
  tableBytes (witnessHeaderWords + c.witnesses.length) (c.witnesses.length + 1)

/-- The bytes that it takes to lay out the classes that have no metadata yet. -/
def pendingBytes (h : Hierarchy) (classes : Table String Word) : Nat :=
  (h.classes.map fun c => if (classes.get? c.name).isSome then 0 else h.classBytes c.name).sum

/-- The bytes that it takes to lay out everything. -/
def bytes (h : Hierarchy) : Nat :=
  h.pendingBytes {} + (h.conformances.map conformanceBytes).sum

/-- There is an implementation for everything that is declared, and a method as which it is
called. -/
theorem exists_implementations (hwf : h.WellFormed)
    (hprotocols : ∀ c ∈ h.conformances, ∃ p, h.protocolNamed c.protocol = .ok p) :
    ∃ implementations, h.implementations = .ok implementations := by
  rw [implementations]
  obtain ⟨ofClasses, hclasses⟩ : ∃ ofClasses, (h.classes.flatMap (·.methods)).mapM
      (fun d => do return (d.implementation, ← h.introducing d.method)) = .ok ofClasses := by
    apply exists_mapM_ok
    intro d hd
    obtain ⟨c, hc, hd⟩ := List.mem_flatMap.mp hd
    obtain ⟨base, -, -, hbase, -⟩ := hwf.introducing hc hd
    exact ⟨(d.implementation, base), by rw [hbase]; rfl⟩
  obtain ⟨ofConformances, hconformances⟩ : ∃ ofConformances, h.conformances.mapM
      (fun c => do return c.witnesses.zip (← h.protocolNamed c.protocol).requirements)
        = .ok ofConformances := by
    apply exists_mapM_ok
    intro c hc
    obtain ⟨p, hp⟩ := hprotocols c hc
    exact ⟨c.witnesses.zip p.requirements, by rw [hp]; rfl⟩
  exact ⟨_, by rw [hclasses, ok_bind, hconformances, ok_bind]; rfl⟩

theorem classBytes_eq (ht : h.vtable name = .ok t) :
    h.classBytes name = tableBytes t.words (t.entries.length + 2) := by
  rw [classBytes, ht]

/-- A class that has got its metadata is not pending any more. -/
theorem pendingBytes_insert (hc : c ∈ h.classes) (hnew : classes.get? c.name = none) :
    h.pendingBytes (classes.insert c.name base) + h.classBytes c.name ≤ h.pendingBytes classes := by
  rw [pendingBytes, pendingBytes, ← List.sum_map_erase _ hc, ← List.sum_map_erase _ hc]
  have hle : ∀ c' ∈ h.classes.erase c,
      (if ((classes.insert c.name base).get? c'.name).isSome then 0 else h.classBytes c'.name) ≤
        if (classes.get? c'.name).isSome then 0 else h.classBytes c'.name := by
    intro c' _
    rw [Table.get?_insert]
    by_cases heq : c.name = c'.name
    · simp [heq]
    · rw [if_neg heq]
  have hrest := List.sum_le_sum hle
  simp only [Table.get?_insert, hnew, if_true, Option.isSome_some, Option.isSome_none,
    Bool.false_eq_true, if_false]
  simp only [Table.get?_insert] at hrest
  omega

end Hierarchy

namespace World

variable {α β : Type} {u : Module} {refs : List Method} {w w' : World} {x : Run α} {a b : Nat}
  {name : String} {base : Word} {words : Nat}

/-! ### Steps that take memory -/

/-- If there is so much memory left below `Size.limit`, the step ends with a value, and has
taken no more. -/
def Takes (bytes : Nat) (x : Run α) (w : World) : Prop :=
  w.memory.next.toNat + bytes ≤ Size.limit →
    Step.Ends x w (fun _ w' => w'.memory.next.toNat ≤ w.memory.next.toNat + bytes) fun _ _ => False

theorem Takes.mono (h : Takes a x w) (hle : a ≤ b) : Takes b x w := by
  intro hroom
  refine (h (by omega)).imp (fun _ w' hw' => ?_) fun _ _ hfail => hfail
  omega

/-- One step after the other. -/
theorem Takes.bind {f : α → Run β} (hx : Takes a x w)
    (hf : ∀ v w', x w = .ok v w' → Takes b (f v) w') : Takes (a + b) (x >>= f) w := by
  intro hroom
  rw [Step.ends_bind]
  refine (hx (by omega)).imp_run (fun v w' hrun hw' => ?_) fun _ _ _ hfail => hfail
  refine (hf v w' hrun (by omega)).imp (fun _ w'' hw'' => ?_) fun _ _ hfail => hfail
  omega

/-- What has been asked for already takes nothing. -/
theorem Takes.bind_ok {f : α → Run β} {v : α} (hx : x w = .ok v w) (hf : Takes b (f v) w) :
    Takes b (x >>= f) w := by
  intro hroom
  rw [Step.ends_bind, Step.Ends, hx]
  exact hf hroom

theorem takes_of_ok {v : α} (hx : x w = .ok v w') (hw' : w'.memory.next = w.memory.next) :
    Takes 0 x w := by
  intro _
  apply Step.ends_of_ok hx
  rw [hw']
  exact Nat.le_add_right _ _

theorem takes_allocWords (hwords : 0 < words) :
    Takes (wordBytes * words + Region.gapBytes) (withMemory (Memory.allocWords words)) w := by
  intro hroom
  have hlimit : Size.limit = 2 ^ 32 := rfl
  simp only [wordBytes, Region.gapBytes] at hroom ⊢
  have hextent : Region.extent (words * 8) = 8 * words := by
    simp only [Region.extent, wordBytes]
    omega
  have hfits : w.memory.next.toNat + Region.extent (words * 8) + Region.gapBytes < 2 ^ 64 := by
    rw [hextent, Region.gapBytes]
    omega
  rw [Memory.allocWords_eq (by omega), ends_withMemory]
  apply Step.ends_of_ok (Memory.alloc_ok hfits)
  rw [memory_setMemory, Memory.next_allocated hfits, hextent, Region.gapBytes]
  omega

theorem takes_addressOf (symbol : String) :
    Takes (wordBytes + Region.gapBytes) (addressOf symbol) w := by
  rw [addressOf]
  apply Takes.bind_ok Step.run_get
  cases hlink : w.machine.symbols.get? symbol with
  | some a => exact (takes_of_ok (Step.run_pure a) rfl).mono (Nat.zero_le _)
  | none =>
    apply Takes.bind (b := 0) (takes_allocWords Nat.one_pos)
    intro a w' _
    exact takes_of_ok rfl rfl

theorem takes_write {address v : Word} (hmapped : w.memory.isMapped address = true) :
    Takes 0 (write address v) w :=
  takes_of_ok (withMemory_ok (Memory.write_ok hmapped v)) rfl

theorem takes_write_index {index : Nat} {v : Word} (hw : w.memory.Sound)
    (ho : w.memory.Owns base (8 * words)) (hindex : index < words) :
    Takes 0 (do write (← Memory.wordAddress base index) v : Run Unit) w := by
  have hend := ho.end_le hw
  have hlt := w.memory.next.toNat_lt
  rw [Memory.wordAddress_eq (by omega)]
  exact takes_write (ho.isMapped hw (by omega))

theorem takes_tableWord (hu : w.module = u) {e : VTableEntry} {signing : Option Signing}
    (hsigning : (u.options.signingKey.mapM fun key => u.hierarchy.signing u.pool key e.method)
      = .ok signing) :
    Takes (wordBytes + Region.gapBytes) (tableWord e) w := by
  rw [tableWord, ← Nat.add_zero (wordBytes + Region.gapBytes)]
  apply Takes.bind (takes_addressOf _)
  intro a w' hrun
  have hmodule : w'.module = u := (keepsModule_addressOf _).ok hrun ▸ hu
  apply Takes.bind_ok Step.run_get
  rw [hmodule]
  cases hkey : u.options.signingKey with
  | none =>
    simp only [hkey]
    exact takes_of_ok (Step.run_pure a) rfl
  | some key =>
    rw [hkey, Option.mapM_some, map_eq_ok] at hsigning
    obtain ⟨s, hs, -⟩ := hsigning
    simp only [hkey, hs]
    exact takes_of_ok rfl rfl

/-- Words that are computed one by one and written to a region that has room for them take
what computing them takes. -/
theorem takes_writeEach {f : α → Run Word} {cost : Nat} (xs : List α)
    (hf : ∀ x ∈ xs, ∀ w : World, w.module = u → Takes cost (f x) w)
    (hkeeps : ∀ x w, w.Linked → w.module = u → Step.Ends (f x) w
      (fun _ w' => w'.Linked ∧ Extends (fun _ => False) w w') fun _ _ => True) :
    ∀ {start : Nat} {w : World}, w.Linked → w.module = u → w.memory.Owns base (8 * words) →
      start + xs.length ≤ words → Takes (cost * xs.length) (writeEach f base start xs) w := by
  induction xs with
  | nil => exact fun _ _ _ _ => takes_of_ok rfl rfl
  | cons x rest ih =>
    intro start w hw hu ho hroom
    rw [List.length_cons] at hroom ⊢
    rw [writeEach, Nat.mul_succ, Nat.add_comm]
    apply Takes.bind (hf x List.mem_cons_self w hu)
    intro v w₁ hrun
    obtain ⟨hw₁, hext₁⟩ := (hkeeps x w hw hu).ok hrun
    have ho₁ := hext₁.evolves.owns ho
    rw [← bind_assoc, ← Nat.zero_add (cost * rest.length)]
    apply Takes.bind (takes_write_index hw₁.sound ho₁ (show start < words by omega))
    intro _ w₂ hrun₂
    obtain ⟨-, hext₂, hsymbols, -⟩ :=
      (ends_write_index hw₁.sound ho₁ (show start ≤ max words 1 by omega)).ok hrun₂
    refine ih (fun x' hx' => hf x' (List.mem_cons_of_mem _ hx'))
      (hw₁.evolves hsymbols hext₂.evolves) ?_ (hext₂.evolves.owns ho₁) (by omega)
    rw [hext₂.module_eq, hext₁.module_eq, hu]

/-! ### One table -/

/-- The entries of a table can be signed. -/
theorem exists_entrySigning (hu : u.Coherent refs) {t : VTable}
    (ht : u.hierarchy.vtable name = .ok t) : ∀ e ∈ t.entries, ∃ signing,
      (u.options.signingKey.mapM fun key => u.hierarchy.signing u.pool key e.method)
        = .ok signing := by
  refine hu.hierarchy.forall_entries (P := fun e => ∃ signing,
    (u.options.signingKey.mapM fun key => u.hierarchy.signing u.pool key e.method) = .ok signing)
    ?_ ht
  intro c _ d _ m hintro
  exact Module.exists_signing hu.references (Hierarchy.introducing_introducing hintro)

theorem takes_fillClass (hu : u.Coherent refs) {t : VTable} (ht : u.hierarchy.vtable name = .ok t)
    {parent : Word} {descriptor : String} (hw : w.Linked) (hmodule : w.module = u)
    (ho : w.memory.Owns base (8 * t.words)) :
    Takes ((wordBytes + Region.gapBytes) * (t.entries.length + 1))
      (fillClass base parent descriptor t.entries) w := by
  have hwords : t.words = 2 + t.entries.length := rfl
  rw [fillClass, Nat.mul_succ, Nat.add_comm]
  apply Takes.bind (takes_addressOf _)
  intro a w₁ hrun₁
  obtain ⟨-, hw₁, hext₁⟩ := (ends_addressOf hw descriptor).ok hrun₁
  have ho₁ := hext₁.evolves.owns ho
  -- the two words of the header
  rw [show write base a = (do write (← Memory.wordAddress base 0) a) by
    rw [wordAddress_zero]; rfl, ← Nat.zero_add (_ * t.entries.length)]
  apply Takes.bind (takes_write_index hw₁.sound ho₁ (by omega))
  intro _ w₂ hrun₂
  obtain ⟨-, hext₂, hsymbols₂, -⟩ := (ends_write_index hw₁.sound ho₁ (by omega)).ok hrun₂
  have hw₂ : w₂.Linked := hw₁.evolves hsymbols₂ hext₂.evolves
  have ho₂ := hext₂.evolves.owns ho₁
  rw [← bind_assoc, ← Nat.zero_add (_ * t.entries.length)]
  apply Takes.bind (takes_write_index hw₂.sound ho₂ (by omega))
  intro _ w₃ hrun₃
  obtain ⟨-, hext₃, hsymbols₃, -⟩ := (ends_write_index hw₂.sound ho₂ (by omega)).ok hrun₃
  have hw₃ : w₃.Linked := hw₂.evolves hsymbols₃ hext₃.evolves
  -- and then the entries
  rw [writeEntries_eq]
  refine takes_writeEach (u := u) t.entries (fun e he w hw => ?_) (fun e w hw hmodule => ?_) hw₃ ?_
    (hext₃.evolves.owns ho₂) (Nat.le_of_eq hwords.symm)
  · obtain ⟨signing, hsigning⟩ := exists_entrySigning hu ht e he
    exact takes_tableWord hw hsigning
  · exact (ends_tableWord hw hmodule e).imp (fun _ _ h => ⟨h.1, h.2.1⟩) fun _ _ _ => trivial
  · rw [hext₃.module_eq, hext₂.module_eq, hext₁.module_eq, hmodule]

variable {w₀ : World}

/-- A region is made for a table, which is then filled. -/
theorem Takes.table {f : Word → Run β} (hw : w.Linked) (hwords : 0 < words)
    (hf : ∀ base w', w'.Linked → w'.module = w.module → w'.memory.Owns base (8 * words) →
      Takes b (f base) w') :
    Takes (wordBytes * words + Region.gapBytes + b)
      (withMemory (Memory.allocWords words) >>= f) w := by
  by_cases hfits : 8 * words < Size.limit
  · apply Takes.bind (takes_allocWords hwords)
    intro base w' hrun
    obtain ⟨hw', hmodule, ho⟩ : w'.Linked ∧ w'.module = w.module ∧
        w'.memory.Owns base (8 * words) := by
      refine (ends_allocWords (Q := fun base w' => w'.Linked ∧ w'.module = w.module ∧
        w'.memory.Owns base (8 * words)) hfits fun hroom => ?_).ok hrun
      have hev : w.memory.Evolves (fun _ => False) _ := Memory.evolves_allocated hroom
      refine ⟨hw.evolves rfl hev, rfl, ?_⟩
      rw [Nat.mul_comm 8]
      exact Memory.owns_allocated _ _
    exact hf base w' hw' hmodule ho
  · -- such a region does not fit
    intro hroom
    simp only [wordBytes, Region.gapBytes] at hroom
    omega

theorem takes_layOutClass (hu : w₀.module.Coherent refs) (hw : Booting w₀ w) {decl : ClassDecl}
    (hdecl : w₀.module.hierarchy.classNamed name = .ok decl) (parent : Word) :
    Takes (w₀.module.hierarchy.classBytes name) (layOutClass name parent) w := by
  obtain ⟨t, ht⟩ := hu.hierarchy.vtable hdecl
  have hdescriptor : w₀.module.hierarchy.typeDescriptor name
      = .ok (classSymbol w₀.module.hierarchy.module name .typeDescriptor) := by
    rw [Hierarchy.typeDescriptor, hdecl]
    rfl
  rw [Hierarchy.classBytes_eq ht, tableBytes, layOutClass_eq]
  apply Takes.bind_ok Step.run_get
  simp only [hw.module_eq, ht, hdescriptor]
  apply Takes.bind_ok rfl
  apply Takes.table hw.linked (Nat.lt_of_lt_of_le Nat.two_pos (two_le_words t))
  intro base w₁ hw₁ hmodule₁ ho₁
  rw [hw.module_eq] at hmodule₁
  apply Takes.bind_ok rfl
  rw [show t.entries.length + 2 = t.entries.length + 1 + 1 from rfl, Nat.mul_succ]
  apply Takes.bind (takes_fillClass hu ht hw₁ hmodule₁ ho₁)
  intro _ w₂ hrun₂
  obtain ⟨hw₂, -⟩ := (ends_fillClass hw₁ hmodule₁ ho₁).ok hrun₂
  rw [← Nat.add_zero (wordBytes + Region.gapBytes)]
  apply Takes.bind (takes_addressOf _)
  intro bounds w₃ hrun₃
  obtain ⟨hlink, hw₃, -⟩ := (ends_addressOf hw₂ _).ok hrun₃
  have hmapped : w₃.memory.isMapped bounds = true := by
    have h := (hw₃.owns _ _ hlink).isMapped hw₃.sound (show 0 < max 8 1 by decide)
    rwa [Word.plus_zero] at h
  apply Takes.bind (a := 0) (b := 0) (takes_write hmapped)
  intro _ w₄ _
  exact takes_of_ok rfl rfl

theorem takes_layOutConformance (hw : w.Linked) (c : Conformance) :
    Takes (Hierarchy.conformanceBytes c) (layOutConformance c) w := by
  rw [Hierarchy.conformanceBytes, tableBytes, layOutConformance_eq]
  apply Takes.table hw (Nat.lt_of_lt_of_le Nat.one_pos (Nat.le_add_right _ _))
  intro base w₁ hw₁ _ ho₁
  rw [← Nat.add_zero ((wordBytes + Region.gapBytes) * _)]
  refine Takes.bind (takes_writeEach (_ :: c.witnesses) (fun symbol _ _ _ => takes_addressOf symbol)
    (fun symbol w hw _ => ?_) hw₁ rfl ho₁ ?_) fun _ _ _ => takes_of_ok rfl rfl
  · exact (ends_addressOf hw symbol).imp (fun _ _ h => h.2) fun _ _ _ => trivial
  · rw [List.length_cons, Nat.zero_add, Nat.add_comm]

/-! ### All tables -/

/-- The bytes in use, with those that the classes without metadata are going to take. -/
def potential (w : World) : Nat :=
  w.memory.next.toNat + w.module.hierarchy.pendingBytes w.machine.classes

/-- Laying out a class takes what was set aside for it. -/
theorem layOutClass_potential (hu : w₀.module.Coherent refs) (hw : Booting w₀ w) {decl : ClassDecl}
    (hdecl : w₀.module.hierarchy.classNamed name = .ok decl)
    (hnew : w.machine.classes.get? name = none) {parent : Word} (hparent : w.ParentWord decl parent)
    (hroom : w.potential ≤ Size.limit) :
    Step.Ends (layOutClass name parent) w (fun _ w' => w'.potential ≤ w.potential)
      fun _ _ => False := by
  obtain ⟨hmem, rfl⟩ := Hierarchy.mem_of_classNamed hdecl
  have hpending : ∀ base, w₀.module.hierarchy.pendingBytes
        (w.machine.classes.insert decl.name base) + w₀.module.hierarchy.classBytes decl.name ≤
      w₀.module.hierarchy.pendingBytes w.machine.classes :=
    fun base => Hierarchy.pendingBytes_insert hmem hnew
  rw [potential, hw.module_eq] at hroom
  have htakes := takes_layOutClass hu hw hdecl parent (by have := hpending 0; omega)
  have hends : Step.Ends (layOutClass decl.name parent) w _ _ :=
    ends_layOutClass hw hnew fun decl' hdecl' => by
      rw [hdecl] at hdecl'
      cases hdecl'
      exact hparent
  refine (htakes.and hends).imp (fun base w' h => ?_) fun _ _ hfail => hfail.1
  obtain ⟨hle, hw', hclasses, -⟩ := h
  rw [potential, potential, hw'.module_eq, hw.module_eq, hclasses]
  have := hpending base
  omega

/-- Laying out a class with its superclasses takes what was set aside for them. -/
theorem instantiateTo_potential (hu : w₀.module.Coherent refs) (steps : Nat) :
    ∀ {name : String} {w : World} {lineage : List ClassDecl}, Booting w₀ w →
      w₀.module.hierarchy.lineageTo steps name = .ok lineage → w.potential ≤ Size.limit →
      Step.Ends (instantiateTo steps name) w (fun _ w' => w'.potential ≤ w.potential)
        fun _ _ => False := by
  induction steps with
  | zero =>
    intro name w lineage _ hlineage
    cases hlineage
  | succ steps ih =>
    intro name w lineage hw hlineage hroom
    rw [instantiateTo, Step.ends_bind, Step.ends_get]
    cases hget : w.machine.classes.get? name with
    | some base => exact Nat.le_refl _
    | none =>
      rw [Hierarchy.lineageTo] at hlineage
      obtain ⟨decl, hdecl, hlineage⟩ := bind_eq_ok.mp hlineage
      have hnamed : (w.module.hierarchy.classNamed name).onMachine = .ok decl := by
        rw [hw.module_eq]
        exact onMachine_eq_ok.mpr hdecl
      simp only [hnamed, Step.ends_bind, Step.ends_liftM_ok]
      cases hsuper : decl.superclass with
      | none =>
        apply layOutClass_potential hu hw hdecl hget _ hroom
        rw [ParentWord, hsuper]
      | some parent =>
        simp only [hsuper] at hlineage
        simp only [Step.ends_bind]
        obtain ⟨above, habove, -⟩ := bind_eq_ok.mp hlineage
        -- the superclass comes first, and leaves what was set aside for the class
        refine (ih hw habove hroom).imp_run (fun a w₁ hrun hle => ?_) fun _ _ _ hfail => hfail
        obtain ⟨h₁, ha⟩ := (ends_instantiateTo hu.hierarchy steps hw).ok hrun
        have hnew := h₁.get?_eq_none hu.hierarchy hdecl hsuper hget
        refine (layOutClass_potential hu h₁.booting hdecl hnew ?_ (Nat.le_trans hle hroom)).imp
          (fun _ w₂ hle₂ => Nat.le_trans hle₂ hle) fun _ _ hfail => hfail
        rw [ParentWord, hsuper]
        exact ha

/-- The classes of a module, in any order. -/
theorem layOutClasses_potential (hu : w₀.module.Coherent refs) (cs : List ClassDecl)
    (hcs : ∀ c ∈ cs, c ∈ w₀.module.hierarchy.classes) :
    ∀ {w : World}, Booting w₀ w → w.potential ≤ Size.limit →
      Step.Ends (cs.forM fun c => do let _ ← instantiate c.name) w
        (fun _ w' => w'.potential ≤ w.potential) fun _ _ => False := by
  induction cs with
  | nil => exact fun _ _ => Nat.le_refl _
  | cons c rest ih =>
    intro w hw hroom
    obtain ⟨ancestry, ha⟩ := hu.hierarchy.ancestries c (hcs c List.mem_cons_self)
    obtain ⟨lineage, hlineage, -⟩ := bind_eq_ok.mp ha
    rw [List.forM, bind_assoc, Step.ends_bind, instantiate, Step.ends_bind, Step.ends_get,
      hw.module_eq]
    refine (instantiateTo_potential hu _ hw hlineage hroom).imp_run (fun a w₁ hrun hle => ?_)
      fun _ _ _ hfail => hfail
    obtain ⟨h₁, -⟩ := (ends_instantiateTo hu.hierarchy _ hw).ok hrun
    rw [pure_bind]
    refine (ih (fun c' hc' => hcs c' (List.mem_cons_of_mem _ hc')) h₁.booting
      (Nat.le_trans hle hroom)).imp (fun _ w₂ hle₂ => Nat.le_trans hle₂ hle) fun _ _ hfail => hfail

theorem takes_layOutConformances (cs : List Conformance) :
    ∀ {done : List Conformance} {w : World}, Conforming w₀ done w →
      Takes (cs.map Hierarchy.conformanceBytes).sum (cs.forM layOutConformance) w := by
  induction cs with
  | nil => exact fun _ => takes_of_ok rfl rfl
  | cons c rest ih =>
    intro done w hw
    rw [List.map_cons, List.sum_cons, List.forM]
    apply Takes.bind (takes_layOutConformance hw.booting.linked c)
    intro _ w₁ hrun
    exact ih ((ends_layOutConformance hw).ok hrun).1

/-- Everything can be laid out, if it fits into memory. -/
theorem layOut_succeeds (hu : w₀.module.Coherent refs) (hblank : w₀.IsBlank)
    (hroom : 4096 + w₀.module.hierarchy.bytes ≤ Size.limit) :
    Step.Ends layOut w₀ (fun _ w => w.memory.next.toNat ≤ Size.limit) fun _ _ => False := by
  have hpotential : w₀.potential = 4096 + w₀.module.hierarchy.pendingBytes {} := by
    rw [hblank]
    rfl
  rw [Hierarchy.bytes] at hroom
  have hbooting := booting_of_isBlank hblank
  rw [layOut, Step.ends_bind, Step.ends_get, Step.ends_bind]
  refine (layOutClasses_potential hu _ (fun _ hc => hc) hbooting (by omega)).imp_run
    (fun _ w₁ hrun hle => ?_) fun _ _ _ hfail => hfail
  obtain ⟨hw₁, -⟩ := (ends_layOutClasses hu.hierarchy _ hbooting).ok hrun
  have hused : w₁.memory.next.toNat ≤ w₁.potential := Nat.le_add_right _ _
  refine (takes_layOutConformances _ hw₁.conforming (by omega)).imp (fun _ w₂ hle₂ => ?_)
    fun _ _ hfail => hfail
  omega

end World

/-- A module that fits together, and whose tables fit into memory, boots: its tables are laid
out, and there is memory left. -/
theorem Module.boots {u : Module} {refs : List Method} (hu : u.Coherent refs)
    (hprotocols : ∀ c ∈ u.hierarchy.conformances, ∃ p, u.hierarchy.protocolNamed c.protocol = .ok p)
    (hroom : 4096 + u.hierarchy.bytes ≤ Size.limit) :
    u.boot.isOk = true ∧ ¬ World.Exhausted u.start := by
  obtain ⟨implementations, himpl⟩ := Hierarchy.exists_implementations hu.hierarchy hprotocols
  have hboot : ∃ machine, u.boot = .ok machine ∧ machine.memory.next.toNat ≤ Size.limit := by
    rw [Module.boot, onMachine_eq_ok.mpr himpl, ok_bind]
    simp only
    generalize implementations.foldl _ _ = signatures
    have hends : Step.Ends World.layOut (⟨u, { signatures }⟩ : World) _ _ :=
      World.layOut_succeeds hu rfl hroom
    obtain ⟨_, w, hrun, hle⟩ := hends.exists_ok
    rw [hrun]
    exact ⟨w.machine, rfl, hle⟩
  obtain ⟨machine, hok, hle⟩ := hboot
  have hstart : u.start = ⟨u, machine⟩ := by rw [start, hok]
  rw [hok, hstart]
  refine ⟨rfl, fun hexhausted => ?_⟩
  have hfull : 2 ^ 48 < machine.memory.next.toNat := hexhausted
  have hlimit : Size.limit = 2 ^ 32 := rfl
  omega

end Dispatch
