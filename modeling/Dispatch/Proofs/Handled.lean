import Dispatch.Proofs.Undisturbed

/-!
# Worlds that any operations lead to

Nothing stops a machine from being asked to overwrite its tables, to move words out of
them, or to call what it likes.  Whatever it is asked, and whether or not it refuses, its
code stays in place: the module is one under generation with well-formed thunks, symbols
keep regions of their own, and implementations are called with the signature they were
installed for.

## Main definitions

* `World.Settled` — a world with its code in place, all of it well formed.
* `World.Settles` — steps that leave such a world.
* `World.Handled` — the worlds that operations about the methods of a module lead to.

## Main results

* `World.settles_run` — one operation.
* `World.Handled.settled` — all of them.
* `World.Undisturbed.handled` — gentle operations are operations.
-/

namespace Dispatch

open Attempt

theorem Step.final_map {σ α β : Type} (f : α → β) (x : Step σ α) (s : σ) :
    (f <$> x).final s = x.final s := by
  simp only [Step.final, Functor.map, EStateM.map]
  cases x s <;> rfl

/-- The methods that an operation names. -/
def Operation.named : Operation → List Method
  | request r => r.named
  | query q => q.named
  | _ => []

namespace World

variable {α β : Type} {u : Module} {refs : List Method} {w : World} {x : Run α} {f : α → Run β}

/-! ### Steps that leave the code in place -/

/-- A world with its code in place, all of it well formed. -/
structure Settled (u : Module) (refs : List Method) (w : World) : Prop where
  grounded : Grounded u refs w
  formed : w.module.Formed

theorem Settled.spares {floor : Nat} {w' : World} (h : Settled u refs w)
    (hs : Spares floor w w') : Settled u refs w' :=
  ⟨h.grounded.spares hs, hs.module ▸ h.formed⟩

/-- However the step ends, the code stays in place. -/
def Settles (u : Module) (refs : List Method) (x : Run α) : Prop :=
  ∀ w, Settled u refs w →
    Step.Ends x w (fun _ w' => Settled u refs w') fun _ w' => Settled u refs w'

theorem Settles.bind (hx : Settles u refs x) (hf : ∀ a, Settles u refs (f a)) :
    Settles u refs (x >>= f) := by
  intro w hw
  rw [Step.ends_bind]
  apply (hx w hw).imp
  · intro a w' hw'
    exact hf a w' hw'
  · exact fun _ _ h => h

/-- What the step goes on with may depend on the world. -/
theorem settles_get {g : World → Run β} (h : ∀ w, Settles u refs (g w)) :
    Settles u refs (get >>= g) := by
  intro w hw
  rw [Step.ends_bind, Step.ends_get]
  exact h w w hw

theorem Settled.of_spared {floor : Nat} {Q : α → World → Prop} (h : Settled u refs w)
    (hx : Spared floor x w Q) :
    Step.Ends x w (fun _ w' => Settled u refs w') fun _ w' => Settled u refs w' :=
  Step.Ends.imp hx (fun _ _ hs => h.spares hs.1) fun _ _ hs => h.spares hs

theorem Tame.settles (hx : Tame x) : Settles u refs x := fun w hw =>
  hw.of_spared (hx w hw.grounded.linked)

/-- A request for code changes the module only, and leaves it one under generation. -/
theorem settles_query (hu : u.Coherent refs) {y : Generate α} (q : Module.Query)
    (hq : q.ask = (fun _ => ()) <$> y) (hnamed : ∀ m ∈ q.named, m ∈ refs) :
    Settles u refs (withModule y) := by
  intro w hw
  have hgenerated := hw.grounded.generated.ask hu q hnamed
  have hformed := hw.formed.ask q
  rw [hq, Step.final_map] at hgenerated hformed
  rw [ends_withModule]
  unfold Step.Ends
  unfold Step.final at hgenerated hformed
  split <;> simp_all only
  · exact ⟨hw.grounded.setModule hgenerated, hformed⟩
  · exact ⟨hw.grounded.setModule hgenerated, hformed⟩

/-! ### Requests -/

theorem settles_implement (hu : u.Coherent refs) (symbol : String) (body : NativeBody) :
    Settles u refs (implement symbol body) := by
  intro w hw
  apply (hw.grounded.ends_implement hu body).imp
  · intro _ w' h'
    obtain ⟨w₁, m, s, hs, hm, hlower, rfl⟩ := h'
    exact ⟨(hw.grounded.spares hs).install hm hlower body, (hw.spares hs).formed⟩
  · exact fun _ _ hs => hw.spares hs

theorem settles_prepareThunk (hu : u.Coherent refs) {m : Method} (hm : m ∈ refs) :
    Settles u refs (prepareThunk m) := by
  have hnamed : ∀ m' ∈ [m], m' ∈ refs := by simp [hm]
  have hpublished : Settles u refs (publishedFrameSize m) := by
    unfold publishedFrameSize
    split
    · apply (settles_query hu (.asyncPointer m) rfl hnamed).bind
      intro symbol
      apply settles_get
      intro w
      split <;> exact (tame_pure _).settles
    · exact (tame_pure _).settles
  apply (settles_query hu (.declareThunk m) rfl hnamed).bind
  intro entry
  apply (settles_query hu (.defineThunk m) rfl hnamed).bind
  intro _
  apply hpublished.bind
  intro frameSize
  exact ((tame_addressOf _).bind fun _ => tame_pure _).settles

theorem settles_callThunk (hu : u.Coherent refs) {m : Method} (hm : m ∈ refs) (c : LogicalCall) :
    Settles u refs (callThunk m c) := by
  rw [callThunk_eq]
  exact (settles_prepareThunk hu hm).bind fun _ => (tame_invoke _ _ _ _).settles

theorem settles_callImplementation (symbol : String) (c : LogicalCall) :
    Settles u refs (callImplementation symbol c) := by
  apply Tame.settles
  apply tame_get
  intro w
  split
  · exact tame_fail _
  · exact (tame_addressOf _).bind fun _ => tame_invoke _ _ _ _

theorem settles_descriptorOf (hu : u.Coherent refs) {m : Method} (hm : m ∈ refs) :
    Settles u refs (descriptorOf m) :=
  (settles_query hu (.declareDescriptor m) rfl (by simp [Module.Query.named, hm])).bind fun _ =>
    (tame_addressOf _).settles

theorem settles_callLookup (hu : u.Coherent refs) {m : Method} (hm : m ∈ refs)
    (className : String) (metadata : Word) :
    Settles u refs (callLookup className metadata m) := by
  have hprepare : Settles u refs (prepareLookup className m) := by
    apply (settles_query hu (.defineLookup className) rfl (by simp [Module.Query.named])).bind
    intro function
    apply (settles_descriptorOf hu hm).bind
    intro descriptor
    exact ((tame_addressOf _).bind fun _ => tame_pure _).settles
  rw [callLookup_eq]
  exact hprepare.bind fun _ => (tame_runLookup _ _ _).settles

theorem settles_askRuntime (hu : u.Coherent refs) {m : Method} (hm : m ∈ refs)
    (className : String) (metadata : Word) :
    Settles u refs (askRuntime className metadata m) := by
  have hprepare : Settles u refs (prepareQuestion className m) := by
    apply settles_get
    intro w
    apply (tame_liftM _).settles.bind
    intro symbol
    apply (tame_addressOf _).settles.bind
    intro typeDescriptor
    exact (settles_descriptorOf hu hm).bind fun _ => (tame_pure _).settles
  rw [askRuntime_eq]
  exact hprepare.bind fun _ => (tame_lookupClassMethod _ _ _).settles

/-! ### Operations -/

theorem Settles.forget (hx : Settles u refs x) : Settles u refs (do let _ ← x) :=
  hx.bind fun _ => (tame_pure _).settles

/-- Every operation about methods of the module leaves its code in place, whether or not it
fails. -/
theorem settles_run (hu : u.Coherent refs) (op : Operation) (hnamed : ∀ m ∈ op.named, m ∈ refs) :
    Settles u refs op.run := by
  cases op with
  | request r =>
    cases r with
    | implement symbol body => exact settles_implement hu symbol body
    | newObject className =>
      exact Settles.forget fun w hw => hw.of_spared (spared_newObject hw.grounded)
    | callThunk m c =>
      exact (settles_callThunk hu (hnamed m List.mem_cons_self) c).forget
    | callImplementation symbol c => exact (settles_callImplementation symbol c).forget
    | callLookup className metadata m =>
      exact (settles_callLookup hu (hnamed m List.mem_cons_self) className metadata).forget
    | askRuntime className metadata m =>
      exact (settles_askRuntime hu (hnamed m List.mem_cons_self) className metadata).forget
  | query q =>
    have hforget : q.ask = (fun _ => ()) <$> q.ask := (id_map q.ask).symm
    exact settles_query hu q hforget hnamed
  | addressOf symbol => exact (tame_addressOf symbol).settles.forget
  | call callee args => exact (tame_call callee args).settles.forget
  | lookup metadata descriptor typeDescriptor =>
    exact (tame_lookupClassMethod _ _ _).settles.forget
  | alloc bytes => exact (tame_alloc bytes).settles.forget
  | write a value => exact (tame_write a value).settles
  | writeWords a words => exact (tame_writeWords a words).settles
  | take a => exact (tame_take a).settles.forget
  | takeWords a count => exact (tame_takeWords a count).settles.forget

/-- The worlds that operations about methods of the module lead to, as long as addresses fit
pointers. -/
inductive Handled (u : Module) (refs : List Method) : World → Prop where
  | boot {machine : Machine} (hboot : u.boot = .ok machine)
    (hroom : ¬ Exhausted ⟨u, machine⟩) : Handled u refs ⟨u, machine⟩
  | operate {w : World} (hw : Handled u refs w) (op : Operation)
    (hnamed : ∀ m ∈ op.named, m ∈ refs) (hroom : ¬ Exhausted (op.run.final w)) :
    Handled u refs (op.run.final w)

/-- Whatever a machine is asked, its code stays in place. -/
theorem Handled.settled (h : Handled u refs w) (hu : u.Coherent refs) :
    Settled u refs w ∧ ¬ Exhausted w := by
  induction h with
  | boot hboot hroom =>
    have hfresh : u.Fresh := ⟨hu.frames, hu.pool, hu.thunks⟩
    exact ⟨⟨(ready_of_boot hu hboot).grounded, hfresh.formed_after []⟩, hroom⟩
  | operate _ op hnamed hroom ih =>
    exact ⟨Step.Ends.final (settles_run hu op hnamed _ ih.1), hroom⟩

/-- Gentle operations are about methods of the module. -/
theorem named_of_gentle {op : Operation} (h : op.Gentle u refs w) :
    ∀ m ∈ op.named, m ∈ refs := by
  cases op with
  | request r =>
    rcases h with hp | ⟨hnamed, -⟩
    · cases r with
      | callThunk m c => simpa [Operation.named, Request.named] using hp.1
      | callLookup className metadata m => simpa [Operation.named, Request.named] using hp.1
      | askRuntime className metadata m =>
        have hm : m ∈ refs := hp
        simpa [Operation.named, Request.named] using hm
      | implement | newObject | callImplementation => simp [Operation.named, Request.named]
    · exact hnamed
  | query q => exact h
  | addressOf | call | lookup | alloc | write | writeWords | take | takeWords =>
    simp [Operation.named]

theorem Undisturbed.handled (h : Undisturbed u refs w) : Handled u refs w := by
  induction h with
  | boot hboot hroom => exact .boot hboot hroom
  | operate _ op hop hroom ih => exact .operate ih op (named_of_gentle hop) hroom

end World

end Dispatch
