import Dispatch.Proofs.Frames
import Dispatch.Proofs.Linking
import Dispatch.Proofs.Thunk.Flat

/-!
# What steps leave alone

Tables, objects and symbols lie in memory that was made before a call.  To know that they
stay, it is enough to know where the call stores: a store or a move never reaches below
the address that it starts from, so a step all of whose addresses lie above a floor spares
what lies below it, however the step ends.

## Main definitions

* `World.Spares` — a world later, in which nothing below a floor has changed.
* `World.Spared` — however a step ends, it spares what lies below the floor.
* `Function.onlyReads` — code that neither stores nor calls.
* `World.Tame` — a step that changes memory and adds symbols, nothing else.

## Main results

* `World.Spared.bind` and its companions — one rule for each way to build a step.
* `World.spared_run` — code that only reads spares everything, and any code is tame.
-/

namespace Dispatch

open Attempt

namespace World

variable {α β : Type} {floor : Nat} {w w' w'' : World} {Q : α → World → Prop}
  {R : β → World → Prop}

/-! ### Worlds in which nothing below a floor has changed -/

/-- The world `w'` comes after `w`: module, implementations and tables are the same,
symbols keep their addresses, and no word below `floor` has changed. -/
structure Spares (floor : Nat) (w w' : World) : Prop where
  module : w'.module = w.module
  signatures : w'.machine.signatures = w.machine.signatures
  implementations : w'.machine.implementations = w.machine.implementations
  classes : w'.machine.classes = w.machine.classes
  witnessTables : w'.machine.witnessTables = w.machine.witnessTables
  links : ∀ symbol a, w.link? symbol = some a → w'.link? symbol = some a
  linked : w.Linked → w'.Linked
  evolves : w.memory.Evolves (fun n => floor ≤ n) w'.memory

theorem Spares.refl (w : World) (floor : Nat) : Spares floor w w :=
  ⟨rfl, rfl, rfl, rfl, rfl, fun _ _ h => h, id, .refl _ _⟩

theorem Spares.trans (h : Spares floor w w') (h' : Spares floor w' w'') : Spares floor w w'' where
  module := h'.module.trans h.module
  signatures := h'.signatures.trans h.signatures
  implementations := h'.implementations.trans h.implementations
  classes := h'.classes.trans h.classes
  witnessTables := h'.witnessTables.trans h.witnessTables
  links symbol a hl := h'.links symbol a (h.links symbol a hl)
  linked hw := h'.linked (h.linked hw)
  evolves := h.evolves.trans h'.evolves

theorem Steady.spares (h : Steady w w')
    (hev : w.memory.Evolves (fun n => floor ≤ n) w'.memory) : Spares floor w w' where
  module := h.module
  signatures := h.signatures
  implementations := h.implementations
  classes := h.classes
  witnessTables := h.witnessTables
  links symbol a hl := by
    unfold link? at hl ⊢
    rw [h.symbols]
    exact hl
  linked hw := hw.evolves h.symbols hev
  evolves := hev

theorem Extends.spares (h : Extends (fun _ => False) w w') (hw : w'.Linked) :
    Spares floor w w' where
  module := h.module_eq
  signatures := by rw [h.rest]
  implementations := by rw [h.rest]
  classes := h.classes_eq
  witnessTables := h.witnessTables_eq
  links := h.links
  linked _ := hw
  evolves := h.evolves.mono fun _ _ hn => hn.elim

/-- A world whose symbols have their regions, all of memory above the floor being free
to be used. -/
structure Firm (floor : Nat) (w : World) : Prop where
  linked : w.Linked
  floor_le : floor ≤ w.memory.next.toNat

theorem Firm.sound (h : Firm floor w) : w.memory.Sound := h.linked.sound

theorem Spares.firm (h : Spares floor w w') (hw : Firm floor w) : Firm floor w' :=
  ⟨h.linked hw.linked, Nat.le_trans hw.floor_le h.evolves.next⟩

/-! ### Steps that spare what lies below a floor -/

/-- However the step ends, it spares what lies below the floor; and its answer is one of
`Q`. -/
def Spared (floor : Nat) (x : Run α) (w : World) (Q : α → World → Prop) : Prop :=
  Step.Ends x w (fun a w' => Spares floor w w' ∧ Q a w') fun _ w' => Spares floor w w'

/-- The step may answer with anything. -/
def Anything : α → World → Prop := fun _ _ => True

theorem Spared.imp {x : Run α} {Q' : α → World → Prop} (h : Spared floor x w Q)
    (hQ : ∀ a w', Spares floor w w' → Q a w' → Q' a w') : Spared floor x w Q' :=
  Step.Ends.imp h (fun a w' ha => ⟨ha.1, hQ a w' ha.1 ha.2⟩) fun _ _ h => h

theorem Spared.final {x : Run α} (h : Spared floor x w Q) : Spares floor w (x.final w) :=
  Step.Ends.final (Step.Ends.imp h (fun _ _ h => h.1) fun _ _ h => h)

/-- A second description of the same run may be used for the answer. -/
theorem Spared.and {x : Run α} {Q' : α → World → Prop} {E : Fault → World → Prop}
    (h : Spared floor x w Q) (h' : Step.Ends x w Q' E) :
    Spared floor x w fun a w' => Q a w' ∧ Q' a w' :=
  Step.Ends.imp (Step.Ends.and h h') (fun _ _ h => ⟨h.1.1, h.1.2, h.2⟩) fun _ _ h => h.1

theorem Spared.bind {x : Run α} {f : α → Run β} (hx : Spared floor x w Q)
    (hf : ∀ a w', Spares floor w w' → Q a w' → Spared floor (f a) w' R) :
    Spared floor (x >>= f) w R := by
  rw [Spared, Step.ends_bind]
  refine Step.Ends.imp hx (fun a w' h => ?_) fun _ _ h => h
  exact Step.Ends.imp (hf a w' h.1 h.2) (fun _ _ h' => ⟨h.1.trans h'.1, h'.2⟩)
    fun _ _ h' => h.1.trans h'

theorem Spared.bind_assoc {γ : Type} {x : Run γ} {y : γ → Run α} {f : α → Run β}
    (hx : Spared floor (x >>= y) w Q)
    (hf : ∀ a w', Spares floor w w' → Q a w' → Spared floor (f a) w' R) :
    Spared floor (x >>= fun c => y c >>= f) w R := by
  have h := hx.bind hf
  rwa [LawfulMonad.bind_assoc] at h

theorem spared_pure {a : α} (h : Q a w) : Spared floor (pure a : Run α) w Q :=
  ⟨.refl _ _, h⟩

theorem Spared.bind_ok {x : Run α} {f : α → Run β} {a : α} (hx : x w = .ok a w)
    (hf : Spared floor (f a) w R) : Spared floor (x >>= f) w R := by
  rw [Spared, Step.Ends, Step.bind_of_ok hx]
  exact hf

theorem spared_fail (cause : MachineError) : Spared floor (fail cause : Run α) w Q :=
  Spares.refl _ _

theorem spared_throw (fault : Fault) : Spared floor (throw fault : Run α) w Q :=
  Spares.refl _ _

theorem spared_liftM {attempt : Attempt α} (h : ∀ a, attempt = .ok a → Q a w) :
    Spared floor (liftM attempt : Run α) w Q := by
  rw [Spared, Step.ends_liftM]
  exact ⟨fun a ha => ⟨.refl _ _, h a ha⟩, fun _ _ => .refl _ _⟩

theorem spared_inMemory {question : Memory → Attempt α}
    (h : ∀ a, question w.memory = .ok a → Q a w) : Spared floor (inMemory question) w Q := by
  rw [Spared, ends_inMemory]
  exact ⟨fun a ha => ⟨.refl _ _, h a ha⟩, fun _ _ => .refl _ _⟩

theorem spared_read {a : Word} {Q : Word → World → Prop}
    (h : ∀ v, w.memory.read a = .ok v → Q v w) : Spared floor (read a) w Q :=
  spared_inMemory h

theorem spared_attempt (attempt : Attempt α) :
    Spared floor (liftM attempt : Run α) w Anything := spared_liftM fun _ _ => trivial

theorem spared_peek (a : Word) : Spared floor (read a) w Anything :=
  spared_read fun _ _ => trivial

theorem spared_withMemory {x : Step Memory α}
    (h : Step.Ends x w.memory
      (fun a m => w.memory.Evolves (fun n => floor ≤ n) m ∧ Q a (w.setMemory m))
      fun _ m => w.memory.Evolves (fun n => floor ≤ n) m) :
    Spared floor (withMemory x) w Q := by
  rw [Spared, ends_withMemory]
  exact h.imp (fun _ m hm => ⟨(steady_setMemory w m).spares hm.1, hm.2⟩)
    fun _ m hm => (steady_setMemory w m).spares hm

theorem spared_ite {c : Prop} [Decidable c] {x y : Run α} (hx : c → Spared floor x w Q)
    (hy : ¬c → Spared floor y w Q) : Spared floor (if c then x else y) w Q := by
  split
  · next h => exact hx h
  · next h => exact hy h

theorem spared_write {a v : Word} (ha : floor ≤ a.toNat) :
    Spared floor (write a v) w Anything :=
  spared_withMemory ((Memory.ends_write v ha).imp (fun _ _ h => ⟨h, trivial⟩) fun _ _ h => h)

theorem spared_writeWords {a : Word} {words : List Word} (ha : floor ≤ a.toNat) :
    Spared floor (withMemory (Memory.writeWords a words)) w Anything :=
  spared_withMemory ((Memory.ends_writeFrom fun _ hn => Nat.le_trans ha hn).imp
    (fun _ _ h => ⟨h, trivial⟩) fun _ _ h => h)

theorem spared_takeWords {a : Word} {count : Nat} (ha : floor ≤ a.toNat) :
    Spared floor (withMemory (Memory.takeWords a count)) w fun words _ => words.length = count :=
  spared_withMemory ((Memory.ends_takeFrom fun _ hn => Nat.le_trans ha hn).imp
    (fun _ _ h => ⟨h.2, h.1⟩) fun _ _ h => h)

theorem spared_alloc {bytes : Nat} (hw : Firm floor w) :
    Spared floor (withMemory (Memory.alloc bytes)) w fun a w' =>
      a = w.memory.next ∧ floor ≤ a.toNat ∧ w' = w.setMemory (w.memory.allocated bytes) ∧
        w.memory.next.toNat + Region.extent bytes + Region.gapBytes < 2 ^ 64 := by
  refine spared_withMemory ?_
  by_cases hroom : w.memory.next.toNat + Region.extent bytes + Region.gapBytes < 2 ^ 64
  · exact Step.ends_of_ok (Memory.alloc_ok hroom)
      ⟨Memory.evolves_allocated hroom, rfl, hw.floor_le, rfl, hroom⟩
  · exact Step.ends_of_error (Memory.alloc_error hroom) (.refl _ _)

theorem spared_allocWords {words : Nat} (hw : Firm floor w) :
    Spared floor (withMemory (Memory.allocWords words)) w fun a _ => floor ≤ a.toNat := by
  have heq : withMemory (Memory.allocWords words)
      = (liftM (Memory.bytesOfWords words) : Run Nat) >>= fun bytes =>
        withMemory (Memory.alloc bytes) := by
    rw [Memory.allocWords, withMemory_bind, withMemory_liftM]
  rw [heq]
  exact (spared_attempt _).bind fun _ _ hs _ =>
    (spared_alloc (hs.firm hw)).imp fun _ _ _ h => h.2.1

theorem spared_checkFrame (frame : Word) (required : Nat) :
    Spared floor (checkFrame frame required) w fun _ w' => w' = w := by
  rw [Spared, checkFrame, Step.ends_bind, Step.ends_get]
  split
  · exact spared_fail _
  · exact spared_ite (fun _ => spared_fail _) fun _ => spared_pure rfl

theorem spared_addressOf (hw : Firm floor w) (symbol : String) :
    Spared floor (addressOf symbol) w fun a w' => w'.link? symbol = some a := by
  refine Step.Ends.imp_run (ends_addressOf hw.linked symbol)
    (fun a w' _ h => ⟨h.2.2.spares h.2.1, h.1⟩) fun f w' hrun _ => ?_
  -- without room the symbol gets no region
  rw [addressOf, Step.bind_of_ok Step.run_get] at hrun
  cases hlink : w.machine.symbols.get? symbol with
  | some a =>
    rw [hlink] at hrun
    cases hrun
  | none =>
    simp only [hlink] at hrun
    cases halloc : withMemory (Memory.allocWords 1) w with
    | ok a w₁ =>
      rw [Step.bind_of_ok halloc] at hrun
      cases hrun
    | error f₁ w₁ =>
      rw [Step.bind_of_error halloc] at hrun
      cases hrun
      exact Step.Ends.error (spared_allocWords hw) halloc

/-! ### Code that only reads -/

theorem spared_tableSlot (hw : Firm floor w) (metadata : Word) (slot : Slot) :
    Spared floor (tableSlot metadata slot) w Anything := by
  cases slot with
  | fixed word => exact spared_attempt _
  | resilient bounds index =>
    refine (spared_addressOf hw bounds).bind fun _ w₁ _ _ => ?_
    refine (spared_peek _).bind fun _ w₂ _ _ => ?_
    refine spared_ite (fun _ => spared_fail _) fun _ => ?_
    exact (spared_attempt _).bind fun _ _ _ _ =>
      spared_attempt _

theorem spared_lookupClassMethod (hw : Firm floor w) (metadata descriptor typeDescriptor : Word) :
    Spared floor (lookupClassMethod metadata descriptor typeDescriptor) w Anything := by
  rw [Spared, lookupClassMethod, Step.ends_bind, Step.ends_get]
  split
  · refine Spared.bind (Q := fun _ w' => Firm floor w') (spared_inMemory fun _ _ => hw)
      fun _ w₁ _ hw₁ => spared_ite (fun _ => ?_) fun _ => spared_fail _
    refine (spared_liftM (Q := fun _ w' => Firm floor w') fun _ _ => hw₁).bind
      fun _ w₂ _ hw₂ => ?_
    exact (spared_tableSlot hw₂ _ _).bind fun _ _ _ _ => spared_peek _
  · exact spared_fail _

end World

/-- The instruction neither stores nor moves words, and calls no function. -/
def Instr.onlyReads : Instr → Bool
  | .store _ _ _ => false
  | .loadTake _ _ => false
  | .stackAlloc _ _ => false
  | .call _ _ _ _ => false
  | _ => true

/-- Every instruction of the function only reads. -/
def Function.onlyReads (f : Function) : Bool := f.instructions.all Instr.onlyReads

namespace World

/-- However it ends, the step leaves everything as it is but memory, the log, and symbols
that had no address. -/
def Tame (x : Run α) : Prop := ∀ w : World, w.Linked → Spared 0 x w Anything

variable {call : Caller}

/-- An instruction that only reads spares everything; any instruction is tame if calls
are. -/
theorem spared_step {i : Instr}
    (hi : i.onlyReads = true ∨ floor = 0 ∧ ∀ callee args, Tame (call callee args))
    (hw : Firm floor w) (r : Registers) : Spared floor (step call r i) w Anything := by
  cases i with
  | store value addr offset =>
    obtain ⟨rfl, -⟩ := hi.resolve_left Bool.false_ne_true
    exact (spared_attempt _).bind fun _ _ _ _ =>
      (spared_write (Nat.zero_le _)).bind fun _ _ _ _ => spared_pure trivial
  | loadTake dsts addr =>
    obtain ⟨rfl, -⟩ := hi.resolve_left Bool.false_ne_true
    exact (spared_takeWords (Nat.zero_le _)).bind fun _ _ _ _ => spared_attempt _
  | stackAlloc dst bytes => exact (spared_alloc hw).bind fun _ _ _ _ => spared_pure trivial
  | call callee convention args results =>
    obtain ⟨rfl, hcall⟩ := hi.resolve_left Bool.false_ne_true
    have hrest : ∀ {w : World}, Firm 0 w → Spared 0 (do
        let words ← call (r.value callee) (r.all args)
        r.setAll results words "call results" : Run Registers) w Anything := fun hw =>
      (hcall _ _ _ hw.linked).bind fun _ _ _ _ => spared_attempt _
    have hsuspend : Spares 0 w { w with machine := { w.machine with
        suspensions := w.machine.suspensions + 1 } } :=
      Steady.spares ⟨rfl, rfl, rfl, rfl, rfl, rfl⟩ (.refl _ _)
    rw [step]
    refine spared_ite (fun _ => ?_) fun _ => hrest hw
    exact Spared.bind (Q := fun _ w' => Firm 0 w') ⟨hsuspend, hsuspend.firm hw⟩
      fun _ _ _ hw' => hrest hw'
  | const | sign | compareEq => exact spared_pure trivial
  | globalAddr => exact (spared_addressOf hw _).bind fun _ _ _ _ => spared_pure trivial
  | load =>
    exact (spared_attempt _).bind fun _ _ _ _ =>
      (spared_peek _).bind fun _ _ _ _ => spared_pure trivial
  | fromNative | toNative =>
    exact Spared.bind (Q := Anything) ⟨.refl _ _, trivial⟩ fun _ _ _ _ =>
      (spared_attempt _).bind fun _ _ _ _ =>
        (spared_attempt _).bind fun _ _ _ _ =>
          spared_attempt _
  | heapMetadata =>
    exact (spared_peek _).bind fun _ _ _ _ => spared_pure trivial
  | witnessMethod =>
    exact (spared_attempt _).bind fun _ _ _ _ =>
      (spared_peek _).bind fun _ _ _ _ => spared_pure trivial
  | tableMethod =>
    exact (spared_tableSlot hw _ _).bind fun _ _ _ _ =>
      (spared_peek _).bind fun _ _ _ _ => spared_pure trivial
  | authenticate =>
    exact (spared_attempt _).bind fun _ _ _ _ => spared_pure trivial
  | asyncEntry context bytes =>
    exact (spared_checkFrame _ _).bind fun _ _ _ _ => spared_pure trivial
  | callLookup dst args =>
    rw [step]
    split
    · exact (spared_lookupClassMethod hw _ _ _).bind fun _ _ _ _ => spared_pure trivial
    · exact spared_fail _

theorem spared_steps (code : List Instr)
    (hcode : (∀ i ∈ code, i.onlyReads = true) ∨
      floor = 0 ∧ ∀ callee args, Tame (call callee args)) :
    ∀ {w : World}, Firm floor w → ∀ r, Spared floor (steps call r code) w Anything := by
  induction code with
  | nil => exact fun _ _ => spared_pure trivial
  | cons i rest ih =>
    intro w hw r
    refine (spared_step (hcode.imp_left fun h => h i List.mem_cons_self) hw r).bind
      fun r' w' hs _ => ?_
    exact ih (hcode.imp_left fun h j hj => h j (List.mem_cons_of_mem _ hj)) (hs.firm hw) r'

theorem spared_runBlocks {f : Function}
    (hf : f.onlyReads = true ∨ floor = 0 ∧ ∀ callee args, Tame (call callee args)) (count : Nat) :
    ∀ {w : World}, Firm floor w → ∀ id r, Spared floor (runBlocks call f count id r) w Anything := by
  induction count with
  | zero => exact fun _ _ _ => spared_throw _
  | succ count ih =>
    intro w hw id r
    unfold runBlocks
    cases hblock : f.blocks[id]? with
    | none => exact spared_fail _
    | some block =>
      have hcode : f.onlyReads = true → ∀ i ∈ block.body, i.onlyReads = true := fun hf i hi =>
        List.all_eq_true.mp hf i
          (List.mem_flatMap.mpr ⟨block, List.mem_of_getElem? hblock, hi⟩)
      refine (spared_steps block.body (hf.imp_left hcode) hw r).bind fun r' w' hs _ => ?_
      cases block.terminator with
      | ret => exact spared_pure trivial
      | asyncExit => exact spared_pure trivial
      | branch => exact ih (hs.firm hw) _ _
      | jump => exact ih (hs.firm hw) _ _
      | unreachable => exact spared_fail _

/-- Code that only reads spares everything; any code is tame if calls are. -/
theorem spared_run {f : Function}
    (hf : f.onlyReads = true ∨ floor = 0 ∧ ∀ callee args, Tame (call callee args))
    (hw : Firm floor w) (args : List Word) : Spared floor (run call f args) w Anything :=
  (spared_liftM (Q := fun _ w' => Firm floor w') fun _ _ => hw).bind fun _ _ _ hw' =>
    spared_runBlocks hf _ hw' _ _

end World

end Dispatch
