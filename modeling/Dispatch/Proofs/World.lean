import Dispatch.Machine.Call
import Dispatch.Proofs.Memory.Words

/-!
# Steps of the machine

Running code reads and writes memory, keeps a log, and leaves everything else of the
machine as it is: symbols, tables and implementations.

## Main definitions

* `World.setMemory` — the world with another memory.
* `World.Steady w w'` — the worlds differ at most in memory, log and suspensions.
* `World.Quiet x` — however it ends, the step keeps the world steady.

## Main results

* `World.ends_withMemory`, `World.ends_inMemory` — steps on memory.
* `World.quiet_invokeNative` — calling an implementation is quiet.
* `World.keepsModule_callTo` — running code never changes the module.
-/

namespace Dispatch

namespace World

/-- The world with another memory. -/
def setMemory (w : World) (memory : Memory) : World :=
  { w with machine := { w.machine with memory } }

/-- The memory of the world. -/
def memory (w : World) : Memory := w.machine.memory

@[simp] theorem memory_setMemory (w : World) (m : Memory) : (w.setMemory m).memory = m := rfl

@[simp] theorem setMemory_memory (w : World) : w.setMemory w.memory = w := rfl

@[simp] theorem setMemory_setMemory (w : World) (m m' : Memory) :
    (w.setMemory m).setMemory m' = w.setMemory m' := rfl

@[simp] theorem module_setMemory (w : World) (m : Memory) : (w.setMemory m).module = w.module := rfl

variable {α β : Type} {w w' w'' : World} {Q : α → World → Prop} {E : Fault → World → Prop}

/-! ### Steps on memory -/

@[simp] theorem ends_withMemory {x : Step Memory α} :
    Step.Ends (withMemory x) w Q E ↔
      Step.Ends x w.memory (fun a m => Q a (w.setMemory m)) fun f m => E f (w.setMemory m) := by
  rw [withMemory, Step.ends_zoom]
  rfl

theorem withMemory_ok {x : Step Memory α} {a : α} {m : Memory} (h : x w.memory = .ok a m) :
    withMemory x w = .ok a (w.setMemory m) := by
  have h' : x w.machine.memory = .ok a m := h
  simp only [withMemory, Step.zoom, h']
  rfl

@[simp] theorem ends_inMemory {question : Memory → Attempt α} :
    Step.Ends (inMemory question) w Q E ↔
      (∀ a, question w.memory = .ok a → Q a w) ∧ ∀ f, question w.memory = .error f → E f w := by
  rw [inMemory, Step.ends_bind, Step.ends_get, Step.ends_liftM]
  rfl

theorem inMemory_ok {question : Memory → Attempt α} {a : α} (h : question w.memory = .ok a) :
    inMemory question w = .ok a w := by
  have h' : question w.machine.memory = .ok a := h
  rw [inMemory, Step.bind_of_ok Step.run_get, h']
  rfl

theorem read_ok {a v : Word} (h : w.memory.read a = .ok v) : read a w = .ok v w :=
  inMemory_ok h

theorem read_eq_ok {a v : Word} : read a w = .ok v w' ↔ w.memory.read a = .ok v ∧ w' = w := by
  rw [read, inMemory, Step.bind_of_ok Step.run_get]
  exact Step.liftM_eq_ok

/-! ### Worlds that differ in memory only -/

/-- The two worlds differ at most in memory, in the log and in the suspensions. -/
structure Steady (w w' : World) : Prop where
  module : w'.module = w.module
  symbols : w'.machine.symbols = w.machine.symbols
  signatures : w'.machine.signatures = w.machine.signatures
  implementations : w'.machine.implementations = w.machine.implementations
  classes : w'.machine.classes = w.machine.classes
  witnessTables : w'.machine.witnessTables = w.machine.witnessTables

theorem Steady.refl (w : World) : Steady w w := ⟨rfl, rfl, rfl, rfl, rfl, rfl⟩

theorem Steady.trans (h : Steady w w') (h' : Steady w' w'') : Steady w w'' :=
  ⟨h'.module.trans h.module, h'.symbols.trans h.symbols, h'.signatures.trans h.signatures,
    h'.implementations.trans h.implementations, h'.classes.trans h.classes,
    h'.witnessTables.trans h.witnessTables⟩

theorem steady_setMemory (w : World) (m : Memory) : Steady w (w.setMemory m) :=
  ⟨rfl, rfl, rfl, rfl, rfl, rfl⟩

/-- However it ends, the step keeps the world steady. -/
def Quiet (x : Run α) : Prop :=
  ∀ w, Step.Ends x w (fun _ w' => Steady w w') fun _ w' => Steady w w'

theorem Quiet.ok {x : Run α} (h : Quiet x) {a : α} (hx : x w = .ok a w') : Steady w w' :=
  (h w).ok hx

theorem quiet_pure (a : α) : Quiet (pure a : Run α) := fun w => .refl w

theorem quiet_fail (cause : MachineError) : Quiet (fail cause : Run α) := fun w => Steady.refl w

theorem quiet_throw (fault : Fault) : Quiet (throw fault : Run α) := fun w => Steady.refl w

theorem quiet_liftM (attempt : Attempt α) : Quiet (liftM attempt : Run α) := fun w => by
  rw [Step.ends_liftM]
  exact ⟨fun _ _ => .refl w, fun _ _ => .refl w⟩

theorem quiet_withMemory (x : Step Memory α) : Quiet (withMemory x) := fun w => by
  rw [ends_withMemory]
  unfold Step.Ends
  split
  · exact steady_setMemory w _
  · exact steady_setMemory w _

theorem quiet_inMemory (question : Memory → Attempt α) : Quiet (inMemory question) := fun w => by
  rw [ends_inMemory]
  exact ⟨fun _ _ => .refl w, fun _ _ => .refl w⟩

theorem quiet_read (a : Word) : Quiet (read a) := quiet_inMemory _

theorem quiet_write (a v : Word) : Quiet (write a v) := quiet_withMemory _

theorem Quiet.bind {x : Run α} {f : α → Run β} (hx : Quiet x) (hf : ∀ a, Quiet (f a)) :
    Quiet (x >>= f) := fun w =>
  (hx w).bind_rel (fun a w' _ => hf a w') fun _ _ h h' => h.trans h'

theorem quiet_ite {c : Prop} [Decidable c] {x y : Run α} (hx : Quiet x) (hy : Quiet y) :
    Quiet (if c then x else y) := by
  split
  · exact hx
  · exact hy

/-! ### Steps that are quiet -/

theorem quiet_spill (words : List Word) : Quiet (spill words) :=
  (quiet_withMemory _).bind fun _ => (quiet_withMemory _).bind fun _ =>
    (quiet_liftM _).bind fun _ => quiet_pure _

theorem quiet_flatArg (index : Nat) (arg : ArgValue) (passing : Passing) :
    Quiet (flatArg index arg passing) := by
  unfold flatArg
  cases passing with
  | direct schema =>
    refine quiet_ite (quiet_pure _) ?_
    cases arg with
    | value words => exact (quiet_liftM _).bind fun _ => quiet_pure _
    | address word => exact quiet_fail _
  | indirect schema =>
    cases arg with
    | value words => exact (quiet_spill words).bind fun _ => quiet_pure _
    | address word => exact quiet_fail _
  | address =>
    cases arg with
    | value words => exact quiet_fail _
    | address word => exact quiet_pure _

theorem quiet_flatArgs (args : List (Carrier × ArgValue)) (index : Nat) :
    Quiet (flatArgs index args) := by
  induction args generalizing index with
  | nil => exact quiet_pure _
  | cons a rest ih =>
    exact (quiet_flatArg _ _ _).bind fun _ => (ih _).bind fun _ => quiet_pure _

theorem steady_log (w : World) (log : List (String × Invocation)) :
    Steady w { w with machine := { w.machine with log } } := ⟨rfl, rfl, rfl, rfl, rfl, rfl⟩

theorem quiet_decodeParams (carriers : List Carrier) (index : Nat) (native : List Word) :
    Quiet (decodeParams index native carriers) := by
  induction carriers generalizing index native with
  | nil => exact quiet_pure _
  | cons c cs ih =>
    refine Quiet.bind ?_ fun _ => (ih _ _).bind fun _ => quiet_pure _
    unfold decodeParam
    cases c.passing with
    | direct schema => exact (quiet_liftM _).bind fun _ => quiet_pure _
    | indirect schema => exact (quiet_withMemory _).bind fun _ => quiet_pure _
    | address => exact quiet_pure _

theorem quiet_decodeFlat (s : Lowered) (native : List Word) : Quiet (decodeFlat s native) :=
  (quiet_decodeParams _ _ _).bind fun _ => quiet_pure _

theorem quiet_readField (frame : Word) (offset : Option Nat) : Quiet (readField frame offset) := by
  cases offset with
  | none => exact quiet_pure _
  | some o => exact (quiet_liftM _).bind fun _ => (quiet_read _).bind fun _ => quiet_pure _

theorem quiet_readWitness (f : Frame) (frame : Word) : Quiet (readWitness f frame) := by
  unfold readWitness
  split
  · exact (quiet_liftM _).bind fun _ => (quiet_read _).bind fun _ =>
      (quiet_liftM _).bind fun _ => (quiet_read _).bind fun _ => quiet_pure _
  · exact quiet_pure _

theorem quiet_decodeField (frame : Word) (index : Nat) (field : FrameField) (passing : Passing) :
    Quiet (decodeField frame index field passing) := by
  unfold decodeField
  split
  · exact (quiet_liftM _).bind fun _ => (quiet_inMemory _).bind fun _ => quiet_pure _
  · exact (quiet_liftM _).bind fun _ => (quiet_read _).bind fun _ =>
      (quiet_withMemory _).bind fun _ => quiet_pure _
  · exact (quiet_liftM _).bind fun _ => (quiet_read _).bind fun _ => quiet_pure _
  · exact quiet_fail _

theorem quiet_decodeFields (frame : Word) (fields : List (FrameField × Carrier)) (index : Nat) :
    Quiet (decodeFields frame index fields) := by
  induction fields generalizing index with
  | nil => exact quiet_pure _
  | cons f rest ih =>
    exact (quiet_decodeField _ _ _ _).bind fun _ => (ih _).bind fun _ => quiet_pure _

theorem quiet_checkFrame (frame : Word) (required : Nat) : Quiet (checkFrame frame required) := by
  intro w
  rw [checkFrame, Step.ends_bind, Step.ends_get]
  split
  · exact quiet_fail _ w
  · exact quiet_ite (quiet_fail _) (quiet_pure _) w

theorem quiet_decodeFrame (s : Lowered) (f : Frame) (frame : Word) :
    Quiet (decodeFrame s f frame) :=
  (quiet_checkFrame _ _).bind fun _ => (quiet_readWitness _ _).bind fun _ =>
    (quiet_liftM _).bind fun _ => (quiet_read _).bind fun _ => (quiet_liftM _).bind fun _ =>
      (quiet_inMemory _).bind fun _ => (quiet_readField _ _).bind fun _ =>
        (quiet_readField _ _).bind fun _ => (quiet_decodeFields _ _ _).bind fun _ => quiet_pure _

theorem quiet_runBody (i : Implementation) (incoming : Incoming) : Quiet (runBody i incoming) := by
  refine Quiet.bind (fun w => steady_log w _) fun _ => ?_
  intro w
  rw [Step.ends_bind, Step.ends_get]
  split
  · cases incoming.indirectReturn with
    | none => exact quiet_pure _ w
    | some destination => exact (quiet_withMemory _).bind (fun _ => quiet_pure _) w
  · cases incoming.errorSlot with
    | none => exact quiet_fail _ w
    | some slot => exact (quiet_write _ _).bind (fun _ => quiet_pure _) w

theorem quiet_invokeNative (i : Implementation) (native : List Word) :
    Quiet (invokeNative i native) := by
  unfold invokeNative
  refine quiet_ite ?_ (quiet_fail _)
  cases i.signature.frame with
  | none =>
    exact (quiet_decodeFlat _ _).bind fun _ => (quiet_runBody _ _).bind fun _ =>
      (quiet_liftM _).bind fun _ => quiet_ite (quiet_pure _) (quiet_fail _)
  | some f =>
    refine (quiet_decodeFrame _ _ _).bind fun _ => (quiet_runBody _ _).bind fun answer => ?_
    split
    · exact quiet_ite ((quiet_liftM _).bind fun _ => (quiet_withMemory _).bind fun _ => quiet_pure _)
        (quiet_fail _)
    · exact quiet_pure _

/-! ### Code never changes the module -/

/-- However it ends, the step keeps the module. -/
def KeepsModule (x : Run α) : Prop :=
  ∀ w, Step.Ends x w (fun _ w' => w'.module = w.module) fun _ w' => w'.module = w.module

theorem Quiet.keepsModule {x : Run α} (h : Quiet x) : KeepsModule x := fun w =>
  (h w).imp (fun _ _ h => h.module) fun _ _ h => h.module

theorem KeepsModule.ok {x : Run α} (h : KeepsModule x) {a : α} (hx : x w = .ok a w') :
    w'.module = w.module := (h w).ok hx

theorem KeepsModule.bind {x : Run α} {f : α → Run β} (hx : KeepsModule x)
    (hf : ∀ a, KeepsModule (f a)) : KeepsModule (x >>= f) := fun w =>
  (hx w).bind_rel (fun a w' _ => hf a w') fun _ _ h h' => h'.trans h

theorem keepsModule_pure (a : α) : KeepsModule (pure a : Run α) := (quiet_pure a).keepsModule

theorem keepsModule_liftM (attempt : Attempt α) : KeepsModule (liftM attempt : Run α) :=
  (quiet_liftM attempt).keepsModule

theorem keepsModule_addressOf (symbol : String) : KeepsModule (addressOf symbol) := by
  intro w
  rw [addressOf, Step.ends_bind, Step.ends_get]
  split
  · exact rfl
  · refine ((quiet_withMemory _).keepsModule.bind fun _ => ?_) w
    intro w
    exact rfl

theorem keepsModule_tableSlot (metadata : Word) (slot : Slot) :
    KeepsModule (tableSlot metadata slot) := by
  cases slot with
  | fixed word => exact keepsModule_liftM _
  | resilient bounds index =>
    refine (keepsModule_addressOf _).bind fun _ => (quiet_read _).keepsModule.bind fun _ => ?_
    split
    · exact (quiet_fail _).keepsModule
    · exact (keepsModule_liftM _).bind fun _ => keepsModule_liftM _

theorem keepsModule_lookupClassMethod (metadata descriptor typeDescriptor : Word) :
    KeepsModule (lookupClassMethod metadata descriptor typeDescriptor) := by
  intro w
  rw [lookupClassMethod, Step.ends_bind, Step.ends_get]
  split
  · refine (quiet_inMemory _).keepsModule.bind (fun ok => ?_) w
    split
    · exact (keepsModule_liftM _).bind fun _ => (keepsModule_tableSlot _ _).bind fun _ =>
        (quiet_read _).keepsModule
    · exact (quiet_fail _).keepsModule
  · exact (quiet_fail _).keepsModule w

theorem keepsModule_step {call : Caller} (hcall : ∀ f args, KeepsModule (call f args))
    (r : Registers) (i : Instr) : KeepsModule (step call r i) := by
  cases i with
  | const | sign | compareEq => exact keepsModule_pure _
  | globalAddr => exact (keepsModule_addressOf _).bind fun _ => keepsModule_pure _
  | load =>
    exact (keepsModule_liftM _).bind fun _ => (quiet_read _).keepsModule.bind fun _ =>
      keepsModule_pure _
  | store =>
    exact (keepsModule_liftM _).bind fun _ => (quiet_write _ _).keepsModule.bind fun _ =>
      keepsModule_pure _
  | loadTake => exact (quiet_withMemory _).keepsModule.bind fun _ => keepsModule_liftM _
  | stackAlloc => exact (quiet_withMemory _).keepsModule.bind fun _ => keepsModule_pure _
  | fromNative | toNative =>
    intro w
    rw [step, Step.ends_bind, Step.ends_get]
    exact ((keepsModule_liftM _).bind fun _ => (keepsModule_liftM _).bind fun _ =>
      keepsModule_liftM _) w
  | heapMetadata => exact (quiet_read _).keepsModule.bind fun _ => keepsModule_pure _
  | witnessMethod =>
    exact (keepsModule_liftM _).bind fun _ => (quiet_read _).keepsModule.bind fun _ =>
      keepsModule_pure _
  | tableMethod =>
    exact (keepsModule_tableSlot _ _).bind fun _ => (quiet_read _).keepsModule.bind fun _ =>
      keepsModule_pure _
  | authenticate => exact (keepsModule_liftM _).bind fun _ => keepsModule_pure _
  | asyncEntry => exact (quiet_checkFrame _ _).keepsModule.bind fun _ => keepsModule_pure _
  | call callee convention args results =>
    rw [step]
    have hrest : KeepsModule (do
        let words ← call (r.value callee) (r.all args)
        r.setAll results words "call results" : Run Registers) :=
      (hcall _ _).bind fun _ => keepsModule_liftM _
    split
    · exact KeepsModule.bind (fun w => rfl) fun _ => hrest
    · exact hrest
  | callLookup dst args =>
    rw [step]
    split
    · exact (keepsModule_lookupClassMethod _ _ _).bind fun _ => keepsModule_pure _
    · exact (quiet_fail _).keepsModule

theorem keepsModule_steps {call : Caller} (hcall : ∀ f args, KeepsModule (call f args))
    (code : List Instr) (r : Registers) : KeepsModule (steps call r code) := by
  induction code generalizing r with
  | nil => exact keepsModule_pure _
  | cons i rest ih => exact (keepsModule_step hcall r i).bind fun r' => ih r'

theorem keepsModule_runBlocks {call : Caller} (hcall : ∀ f args, KeepsModule (call f args))
    (f : Function) (count : Nat) (id : BlockId) (r : Registers) :
    KeepsModule (runBlocks call f count id r) := by
  induction count generalizing id r with
  | zero => exact (quiet_throw _).keepsModule
  | succ count ih =>
    rw [runBlocks]
    split
    · exact (quiet_fail _).keepsModule
    · refine (keepsModule_steps hcall _ _).bind fun r' => ?_
      split
      · exact keepsModule_pure _
      · exact keepsModule_pure _
      · exact ih _ _
      · exact ih _ _
      · exact (quiet_fail _).keepsModule

/-- Running code never changes the module. -/
theorem keepsModule_callTo (depth : Nat) : ∀ callee args, KeepsModule (callTo depth callee args) := by
  induction depth with
  | zero => exact fun _ _ => (quiet_throw _).keepsModule
  | succ depth ih =>
    intro callee args
    rw [callTo]
    split
    · exact (quiet_fail _).keepsModule
    · intro w
      rw [Step.ends_bind, Step.ends_get]
      split
      · exact (quiet_fail _).keepsModule w
      · split
        · exact (quiet_invokeNative _ _).keepsModule w
        · split
          · exact ((keepsModule_liftM _).bind fun _ => keepsModule_runBlocks ih _ _ _ _) w
          · exact (quiet_fail _).keepsModule w

end World

end Dispatch
