import Dispatch.Proofs.Operations

/-!
# Worlds whose tables nobody overwrites

A machine may be asked for anything between requests: for code, for addresses, for memory,
for look-ups, and for calls of pointers with whatever arguments.  As long as no operation
overwrites what was in memory before, all tables stay as booting laid them out, and the
world stays one between requests.  Most operations cannot overwrite anything; a thunk that
is called for a receiver of its method's type does not; a call of a pointer may or may not.

## Main definitions

* `Operation.named` — the methods that an operation names.
* `Operation.Harmless` — what was in memory stays as it was.
* `Operation.Gentle` — operations that leave tables alone.
* `World.Undisturbed` — the worlds that gentle operations lead to.

## Main results

* `Module.Generated.ask` — a request for code leaves a module under generation.
* `World.Ready.operation` — one operation.
* `World.Undisturbed.ready` — all of them.
-/

namespace Dispatch

open Attempt

/-! ### Requests for code -/

namespace Module

variable {u v : Module} {refs : List Method}

/-- The methods that a request for code names. -/
def Query.named : Query → List Method
  | declareThunk m => [m]
  | defineThunk m => [m]
  | emitThunks methods => methods
  | asyncPointer m => [m]
  | declareDescriptor m => [m]
  | intern _ => []
  | declareLookup _ => []
  | defineLookup _ => []

/-- However the step ends, the module is one under generation. -/
def KeepsGenerated {α : Type} (u : Module) (refs : List Method) (x : Generate α) (v : Module) :
    Prop :=
  Step.Ends x v (fun _ v' => Generated u refs v') fun _ v' => Generated u refs v'

theorem Generated.keeps_declareThunk (hv : Generated u refs v) (hu : u.Coherent refs)
    {m : Method} (hm : m ∈ refs) : KeepsGenerated u refs (Module.declareThunk m) v := by
  apply (ends_declareThunk hv hu.references hm).imp
  · intro _ _ h
    exact h.1
  · intro _ _ h
    rw [h.1]
    exact hv

theorem Generated.keeps_defineThunk (hv : Generated u refs v) (hu : u.Coherent refs)
    {m : Method} (hm : m ∈ refs) : KeepsGenerated u refs (Module.defineThunk m) v :=
  (ends_defineThunk hv hu.references hu.frames hm).imp (fun _ _ h => h.1) fun _ _ h => h.1

theorem keeps_emitThunks (hu : u.Coherent refs) (methods : List Method) :
    ∀ {v : Module}, Generated u refs v → (∀ m ∈ methods, m ∈ refs) →
      KeepsGenerated u refs (Module.emitThunks methods) v := by
  unfold Module.emitThunks
  induction methods with
  | nil => exact fun hv _ => hv
  | cons m rest ih =>
    intro v hv hmem
    rw [KeepsGenerated, List.mapM_cons, Step.ends_bind]
    apply Step.Ends.imp (hv.keeps_defineThunk hu (hmem m List.mem_cons_self))
    · intro _ v₁ hv₁
      rw [Step.ends_bind]
      apply Step.Ends.imp (ih hv₁ fun m' hm' => hmem m' (List.mem_cons_of_mem _ hm'))
      · exact fun _ _ h => h
      · exact fun _ _ h => h
    · exact fun _ _ h => h

/-- Whatever is asked about methods that the module may be asked about, and whether or not
it fails, the module stays one under generation. -/
theorem Generated.ask (hv : Generated u refs v) (hu : u.Coherent refs) (query : Query)
    (hnamed : ∀ m ∈ query.named, m ∈ refs) : Generated u refs (query.ask.final v) := by
  refine Step.Ends.final (P := Generated u refs) ?_
  cases query with
  | intern shape =>
    rw [Query.ask, Step.ends_map, withPool, Step.ends_zoom]
    apply (Pool.ends_intern hv.distinct shape).imp
    · intro _ q hq
      exact hv.grows ⟨hq.1, hq.2.1, rfl⟩
    · exact fun _ _ h => h.elim
  | declareThunk m =>
    exact Step.ends_map.mpr (hv.keeps_declareThunk hu (hnamed m List.mem_cons_self))
  | defineThunk m =>
    exact Step.ends_map.mpr (hv.keeps_defineThunk hu (hnamed m List.mem_cons_self))
  | emitThunks methods => exact Step.ends_map.mpr (keeps_emitThunks hu methods hv hnamed)
  | asyncPointer m =>
    rw [Query.ask, Step.ends_map, Module.asyncPointer]
    split
    · rw [Step.ends_bind]
      exact hv.keeps_declareThunk hu (hnamed m List.mem_cons_self)
    · exact hv
  | declareDescriptor m =>
    rw [Query.ask, Step.ends_map]
    apply (ends_declareDescriptor hv hu.references (hnamed m List.mem_cons_self)).imp
    · exact fun _ _ h => h.1
    · intro _ _ h
      rw [h.1]
      exact hv
  | declareLookup className =>
    exact Step.ends_map.mpr ((ends_declareLookup hv).imp (fun _ _ h => h.1) fun _ _ h => h.elim)
  | defineLookup className =>
    exact Step.ends_map.mpr ((ends_defineLookup hv hu.references hu.hierarchy).imp
      (fun _ _ h => h.1) fun _ _ h => h.1)

end Module

/-! ### Operations that leave tables alone -/

/-- The methods that a request names. -/
def Request.named : Request → List Method
  | implement _ _ => []
  | newObject _ => []
  | callThunk m _ => [m]
  | callImplementation _ _ => []
  | callLookup _ _ m => [m]
  | askRuntime _ _ m => [m]

/-- What was in memory is left as it was. -/
def Operation.Harmless (w : World) (op : Operation) : Prop :=
  w.memory.Evolves (fun _ => False) (op.run.final w).memory

/-- Operations that name methods of `refs` and leave tables alone: requests that are
permitted, and all else that leaves what was in memory as it was. -/
def Operation.Gentle (u : Module) (refs : List Method) (w : World) : Operation → Prop
  | request r =>
    r.Permitted u refs w ∨ ((∀ m ∈ r.named, m ∈ refs) ∧ (request r).Harmless w)
  | query q => ∀ m ∈ q.named, m ∈ refs
  | addressOf _ => True
  | call callee args => (call callee args).Harmless w
  | lookup _ _ _ => True
  | alloc _ => True
  | write a value => (write a value).Harmless w
  | writeWords a words => (writeWords a words).Harmless w
  | take a => (take a).Harmless w
  | takeWords a count => (takeWords a count).Harmless w

namespace World

variable {α β : Type} {u : Module} {refs : List Method} {w w₁ w' : World}

theorem Prepares.witnessTables (h : Prepares w w') :
    w'.machine.witnessTables = w.machine.witnessTables := by
  obtain ⟨v, hv⟩ := h
  rw [hv.rest]
  rfl

/-- After a world was made ready for an operation, the operation may change memory that was
not there before. -/
theorem Ready.of_harmless (h : Ready u refs w) (h₁ : Ready u refs w₁) (hp : Prepares w w₁)
    (hs : Spares 0 w₁ w') (hev : w.memory.Evolves (fun _ => False) w'.memory) :
    Ready u refs w' where
  tabled := by
    apply h.tabled.keeps (hs.linked h₁.tabled.linked)
    · intro symbol a ha
      exact hs.links symbol a (hp.link ha)
    · exact hs.classes.trans hp.classes
    · exact hs.witnessTables.trans hp.witnessTables
    · exact hev
  generated := hs.module ▸ h₁.generated
  declared := h.declared
  signatures := hs.signatures ▸ h₁.signatures
  implementations := hs.implementations ▸ h₁.implementations

/-- A step that makes the world ready, and then one that may do anything to memory: if what
was in memory is as it was, the world is between requests. -/
theorem Ready.ends_prepared {prepare : Run β} {act : β → Run α} {Q : β → World → Prop}
    {E : Fault → World → Prop} (h : Ready u refs w)
    (hprepare : Step.Ends prepare w (fun b w₁ => Ready u refs w₁ ∧ Prepares w w₁ ∧ Q b w₁)
      fun f w' => Ready u refs w' ∧ E f w')
    (hact : ∀ b, Tame (act b)) :
    Step.Ends (prepare >>= act) w
      (fun _ w' => w.memory.Evolves (fun _ => False) w'.memory → Ready u refs w')
      fun _ w' => w.memory.Evolves (fun _ => False) w'.memory → Ready u refs w' := by
  rw [Step.ends_bind]
  apply hprepare.imp
  · intro b w₁ h₁
    obtain ⟨hready₁, hprepares, -⟩ := h₁
    apply Step.Ends.imp (hact b w₁ hready₁.tabled.linked)
    · intro _ w' hs hev
      exact h.of_harmless hready₁ hprepares hs.1 hev
    · intro _ w' hs hev
      exact h.of_harmless hready₁ hprepares hs hev
  · intro _ w' h' _
    exact h'.1

/-- However it ends, a tame step that leaves what was in memory as it was leaves a world
between requests. -/
theorem Ready.of_tame {x : Run α} (h : Ready u refs w) (hx : Tame x)
    (hev : w.memory.Evolves (fun _ => False) (x.final w).memory) : Ready u refs (x.final w) :=
  h.of_harmless h (.refl w) (hx w h.tabled.linked).final hev

theorem tame_forget {x : Run α} (hx : Tame x) : Tame (do let _ ← x) :=
  hx.bind fun _ => tame_pure _

theorem tame_runLookup (callee metadata descriptor : Word) :
    Tame (runLookup callee metadata descriptor) := by
  apply (tame_call callee [metadata, descriptor]).bind
  intro results
  split
  · exact tame_pure _
  · exact tame_fail _

/-- What is left after a step whose answer is forgotten. -/
theorem final_forget (x : Run α) (w : World) :
    Step.final (do let _ ← x : Run Unit) w = x.final w := by
  cases hx : x w with
  | ok a w' => rw [Step.final, Step.bind_of_ok hx, Step.final_of_ok hx]; rfl
  | error f w' => rw [Step.final, Step.bind_of_error hx, Step.final_of_error hx]

/-- A request about methods that the module may be asked about leaves a world between
requests, if it leaves what was in memory as it was. -/
theorem Ready.request_harmless (h : Ready u refs w) (hu : u.Coherent refs) (r : Request)
    (hnamed : ∀ m ∈ r.named, m ∈ refs) (hr : (Operation.request r).Harmless w) :
    Ready u refs (r.run.final w) := by
  cases r with
  | implement symbol body => exact Step.Ends.final (keepsReady_implement h hu body)
  | newObject className => exact Step.Ends.final (keepsReady_newObject h).forget
  | callImplementation symbol c =>
    exact Step.Ends.final (keepsReady_callImplementation h hu).forget
  | askRuntime className metadata m =>
    exact Step.Ends.final (keepsReady_askRuntime h hu (hnamed m List.mem_cons_self)).forget
  | callThunk m c =>
    have hm := hnamed m List.mem_cons_self
    rw [Operation.Harmless, Operation.run, Request.run, final_forget] at hr
    rw [Request.run, final_forget]
    apply Step.Ends.final (P := fun w' => w.memory.Evolves (fun _ => False) w'.memory →
      Ready u refs w') _ hr
    rw [callThunk_eq]
    exact h.ends_prepared (ends_prepareThunk h hu hm) fun _ => tame_invoke _ _ _ _
  | callLookup className metadata m =>
    have hm := hnamed m List.mem_cons_self
    rw [Operation.Harmless, Operation.run, Request.run, final_forget] at hr
    rw [Request.run, final_forget]
    apply Step.Ends.final (P := fun w' => w.memory.Evolves (fun _ => False) w'.memory →
      Ready u refs w') _ hr
    rw [callLookup_eq]
    exact h.ends_prepared (ends_prepareLookup h hu hm) fun _ => tame_runLookup _ _ _

/-- A gentle operation leaves a world between requests, whether or not it fails. -/
theorem Ready.operation (h : Ready u refs w) (hu : u.Coherent refs) (hroom : ¬ Exhausted w)
    (op : Operation) (hop : op.Gentle u refs w) : Ready u refs (op.run.final w) := by
  cases op with
  | request r =>
    rcases hop with hp | ⟨hnamed, hr⟩
    · exact h.request hu hroom r hp
    · exact h.request_harmless hu r hnamed hr
  | query q =>
    apply Step.Ends.final
    rw [Operation.run, ends_withModule]
    have hfinal := h.generated.ask hu q hop
    unfold Step.Ends
    split
    · next hrun =>
      rw [Step.final_of_ok hrun] at hfinal
      exact h.setModule hfinal
    · next hrun =>
      rw [Step.final_of_error hrun] at hfinal
      exact h.setModule hfinal
  | addressOf symbol =>
    rw [Operation.run, final_forget]
    exact Step.Ends.final ((h.ends_addressOf symbol).imp (fun _ _ h' => h'.1) fun _ _ h' => h'.1)
  | lookup metadata descriptor typeDescriptor =>
    rw [Operation.run, final_forget]
    exact Step.Ends.final (h.of_spared (spared_lookupClassMethod h.firm _ _ _))
  | alloc bytes =>
    rw [Operation.run, final_forget]
    exact Step.Ends.final (h.of_spared (spared_alloc h.firm))
  | call callee args => exact h.of_tame (tame_forget (tame_call callee args)) hop
  | write a value => exact h.of_tame (tame_write a value) hop
  | writeWords a words => exact h.of_tame (tame_writeWords a words) hop
  | take a => exact h.of_tame (tame_forget (tame_take a)) hop
  | takeWords a count => exact h.of_tame (tame_forget (tame_takeWords a count)) hop

/-! ### Any number of operations -/

/-- The worlds that gentle operations lead to, as long as addresses fit pointers. -/
inductive Undisturbed (u : Module) (refs : List Method) : World → Prop where
  | boot {machine : Machine} (hboot : u.boot = .ok machine)
    (hroom : ¬ Exhausted ⟨u, machine⟩) : Undisturbed u refs ⟨u, machine⟩
  | operate {w : World} (hw : Undisturbed u refs w) (op : Operation)
    (hop : op.Gentle u refs w) (hroom : ¬ Exhausted (op.run.final w)) :
    Undisturbed u refs (op.run.final w)

/-- Every world that gentle operations lead to is one between requests. -/
theorem Undisturbed.ready (h : Undisturbed u refs w) (hu : u.Coherent refs) :
    Ready u refs w ∧ ¬ Exhausted w := by
  induction h with
  | boot hboot hroom => exact ⟨ready_of_boot hu hboot, hroom⟩
  | operate _ op hop hroom ih => exact ⟨ih.1.operation hu ih.2 op hop, hroom⟩

/-- Permitted requests are gentle. -/
theorem Reached.undisturbed (h : Reached u refs w) : Undisturbed u refs w := by
  induction h with
  | boot hboot hroom => exact .boot hboot hroom
  | request _ r hp hroom ih => exact .operate ih (.request r) (.inl hp) hroom

end World

end Dispatch
