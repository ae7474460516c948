import Dispatch.Proofs.Footprint.Calls

/-!
# Tame steps

A call of any pointer with any arguments may read, write and move words anywhere in
memory, and may fail at any point.  It still leaves the module, the tables and the
implementations as they are, and memory stays sound.

## Main results

* `World.Tame.bind` and its companions — one rule for each way to build a step.
* `World.tame_invokeNative` — implementations, whatever they are called with.
* `World.tame_call` — calls of any pointer.
* `World.tame_invoke` — calls from outside with any signature.
-/

namespace Dispatch

namespace World

variable {α β : Type} {x : Run α} {f : α → Run β}

/-! ### Tame steps -/

theorem Tame.bind (hx : Tame x) (hf : ∀ a, Tame (f a)) : Tame (x >>= f) := fun w hw =>
  (hx w hw).bind fun a w' hs _ => hf a w' (hs.linked hw)

theorem Tame.map (g : α → β) (hx : Tame x) : Tame (g <$> x) := fun w hw => by
  rw [Spared, Step.ends_map]
  exact Step.Ends.imp (hx w hw) (fun _ _ h => ⟨h.1, trivial⟩) fun _ _ h => h

/-- What a tame step goes on with may depend on the world. -/
theorem tame_get {g : World → Run β} (h : ∀ w, Tame (g w)) : Tame (get >>= g) := fun w hw =>
  .bind_ok Step.run_get (h w w hw)

theorem tame_pure (a : α) : Tame (pure a : Run α) := fun _ _ => spared_pure trivial

theorem tame_fail (cause : MachineError) : Tame (fail cause : Run α) := fun _ _ => spared_fail _

theorem tame_throw (fault : Fault) : Tame (throw fault : Run α) := fun _ _ => spared_throw _

theorem tame_liftM (attempt : Attempt α) : Tame (liftM attempt : Run α) := fun _ _ =>
  spared_attempt _

theorem tame_ite {c : Prop} [Decidable c] {x y : Run α} (hx : Tame x) (hy : Tame y) :
    Tame (if c then x else y) := fun w hw => spared_ite (fun _ => hx w hw) fun _ => hy w hw

theorem tame_inMemory (question : Memory → Attempt α) : Tame (inMemory question) := fun _ _ =>
  spared_inMemory fun _ _ => trivial

theorem tame_read (a : Word) : Tame (read a) := tame_inMemory _

theorem tame_write (a v : Word) : Tame (write a v) := fun _ _ => spared_write (Nat.zero_le _)

theorem tame_writeWords (a : Word) (words : List Word) :
    Tame (withMemory (Memory.writeWords a words)) := fun _ _ => spared_writeWords (Nat.zero_le _)

theorem tame_takeWords (a : Word) (count : Nat) :
    Tame (withMemory (Memory.takeWords a count)) := fun _ _ =>
  (spared_takeWords (Nat.zero_le _)).imp fun _ _ _ _ => trivial

theorem tame_take (a : Word) : Tame (withMemory (Memory.take a)) := fun _ _ =>
  spared_withMemory ((Memory.ends_take (Nat.zero_le _)).imp (fun _ _ h => ⟨h, trivial⟩)
    fun _ _ h => h)

theorem tame_alloc (bytes : Nat) : Tame (withMemory (Memory.alloc bytes)) := fun _ hw =>
  (spared_alloc ⟨hw, Nat.zero_le _⟩).imp fun _ _ _ _ => trivial

theorem tame_allocWords (words : Nat) : Tame (withMemory (Memory.allocWords words)) := fun _ hw =>
  (spared_allocWords ⟨hw, Nat.zero_le _⟩).imp fun _ _ _ _ => trivial

theorem tame_addressOf (symbol : String) : Tame (addressOf symbol) := fun _ hw =>
  (spared_addressOf ⟨hw, Nat.zero_le _⟩ symbol).imp fun _ _ _ _ => trivial

theorem tame_lookupClassMethod (metadata descriptor typeDescriptor : Word) :
    Tame (lookupClassMethod metadata descriptor typeDescriptor) := fun _ hw =>
  spared_lookupClassMethod ⟨hw, Nat.zero_le _⟩ _ _ _

/-! ### Calls of implementations -/

theorem tame_decodeParams (carriers : List Carrier) (index : Nat) (native : List Word) :
    Tame (decodeParams index native carriers) := by
  induction carriers generalizing index native with
  | nil => exact tame_pure _
  | cons c cs ih =>
    refine Tame.bind ?_ fun _ => (ih _ _).bind fun _ => tame_pure _
    unfold decodeParam
    cases c.passing with
    | direct schema => exact (tame_liftM _).bind fun _ => tame_pure _
    | indirect schema => exact (tame_takeWords _ _).bind fun _ => tame_pure _
    | address => exact tame_pure _

theorem tame_readField (frame : Word) (offset : Option Nat) : Tame (readField frame offset) := by
  cases offset with
  | none => exact tame_pure _
  | some o => exact (tame_liftM _).bind fun _ => (tame_read _).bind fun _ => tame_pure _

theorem tame_readWitness (f : Frame) (frame : Word) : Tame (readWitness f frame) := by
  unfold readWitness
  split
  · exact (tame_liftM _).bind fun _ => (tame_read _).bind fun _ =>
      (tame_liftM _).bind fun _ => (tame_read _).bind fun _ => tame_pure _
  · exact tame_pure _

theorem tame_decodeField (frame : Word) (index : Nat) (field : FrameField) (passing : Passing) :
    Tame (decodeField frame index field passing) := by
  unfold decodeField
  split
  · exact (tame_liftM _).bind fun _ => (tame_inMemory _).bind fun _ => tame_pure _
  · exact (tame_liftM _).bind fun _ => (tame_read _).bind fun _ =>
      (tame_takeWords _ _).bind fun _ => tame_pure _
  · exact (tame_liftM _).bind fun _ => (tame_read _).bind fun _ => tame_pure _
  · exact tame_fail _

theorem tame_decodeFields (frame : Word) (fields : List (FrameField × Carrier)) (index : Nat) :
    Tame (decodeFields frame index fields) := by
  induction fields generalizing index with
  | nil => exact tame_pure _
  | cons field rest ih =>
    exact (tame_decodeField _ _ _ _).bind fun _ => (ih _).bind fun _ => tame_pure _

theorem tame_decodeFrame (s : Lowered) (f : Frame) (frame : Word) :
    Tame (decodeFrame s f frame) := by
  have hcheck : Tame (checkFrame frame f.size) := fun _ _ =>
    (spared_checkFrame _ _).imp fun _ _ _ _ => trivial
  exact hcheck.bind fun _ => (tame_readWitness _ _).bind fun _ => (tame_liftM _).bind fun _ =>
    (tame_read _).bind fun _ => (tame_liftM _).bind fun _ => (tame_inMemory _).bind fun _ =>
      (tame_readField _ _).bind fun _ => (tame_readField _ _).bind fun _ =>
        (tame_decodeFields _ _ _).bind fun _ => tame_pure _

theorem tame_runBody (i : Implementation) (incoming : Incoming) : Tame (runBody i incoming) :=
  fun _ _ => spared_runBody _ _ (fun _ _ => Nat.zero_le _) fun _ _ => Nat.zero_le _

theorem tame_invokeNative (i : Implementation) (native : List Word) :
    Tame (invokeNative i native) := by
  unfold invokeNative
  refine tame_ite ?_ (tame_fail _)
  cases i.signature.frame with
  | none =>
    have hdecode : Tame (decodeFlat i.signature native) :=
      (tame_decodeParams _ _ _).bind fun _ => tame_pure _
    exact hdecode.bind fun _ => (tame_runBody _ _).bind fun _ => (tame_liftM _).bind fun _ =>
      tame_ite (tame_pure _) (tame_fail _)
  | some f =>
    refine (tame_decodeFrame _ _ _).bind fun _ => (tame_runBody _ _).bind fun answer => ?_
    exact fun _ _ => spared_storeResult (Nat.zero_le _) f answer

/-- Calls of any pointer with any arguments. -/
theorem tame_callTo (depth : Nat) : ∀ callee args, Tame (callTo depth callee args) := by
  induction depth with
  | zero => exact fun _ _ => tame_throw _
  | succ depth ih =>
    intro callee args
    rw [callTo]
    refine tame_ite (tame_fail _) (tame_get fun w => ?_)
    split
    · exact tame_fail _
    · split
      · exact tame_invokeNative _ _
      · split
        · exact fun _ hw => spared_run (.inr ⟨rfl, ih⟩) ⟨hw, Nat.zero_le _⟩ _
        · exact tame_fail _

theorem tame_call (callee : Word) (args : List Word) : Tame (call callee args) :=
  tame_callTo _ _ _

/-! ### Calls from outside -/

theorem tame_spill (words : List Word) : Tame (spill words) := fun _ hw =>
  (spared_spill ⟨hw, Nat.zero_le _⟩ words).imp fun _ _ _ _ => trivial

theorem tame_flatArgs (args : List (Carrier × ArgValue)) (index : Nat) :
    Tame (flatArgs index args) := by
  induction args generalizing index with
  | nil => exact tame_pure _
  | cons a rest ih =>
    have hfirst : Tame (flatArg index a.2 a.1.passing) := fun _ hw =>
      (spared_flatArg ⟨hw, Nat.zero_le _⟩ _ _ _).imp fun _ _ _ _ => trivial
    exact hfirst.bind fun _ => (ih _).bind fun _ => tame_pure _

theorem tame_flatWitness (s : Lowered) (c : LogicalCall) : Tame (flatWitness s c) := by
  unfold flatWitness
  refine tame_ite ?_ (tame_pure _)
  split
  · exact tame_pure _
  · exact tame_fail _

theorem tame_allocIf (present : Bool) (words : Nat) : Tame (allocIf present words) :=
  tame_ite ((tame_allocWords _).map _) (tame_pure _)

theorem tame_writeField (frame : Word) (offset : Option Nat) (value : Option Word) :
    Tame (writeField frame offset value) := fun _ _ => spared_writeField (Nat.zero_le _) _ _

theorem tame_frameArgs (frame : Word) (args : List (FrameField × Carrier × ArgValue))
    (index : Nat) : Tame (frameArgs frame index args) := by
  induction args generalizing index with
  | nil => exact tame_pure _
  | cons a rest ih =>
    refine Tame.bind ?_ fun _ => (ih _).bind fun _ => tame_pure _
    unfold frameArg
    split
    · exact tame_ite ((tame_liftM _).bind fun _ => (tame_writeWords _ _).bind fun _ =>
        tame_pure _) (tame_fail _)
    · exact (tame_spill _).bind fun _ => (tame_liftM _).bind fun _ =>
        (tame_write _ _).bind fun _ => tame_pure _
    · exact (tame_liftM _).bind fun _ => (tame_write _ _).bind fun _ => tame_pure _
    · exact tame_fail _

theorem tame_frameWitness (f : Frame) (frame : Word) (c : LogicalCall) :
    Tame (frameWitness f frame c) := by
  unfold frameWitness
  split
  · split
    · exact (tame_liftM _).bind fun _ => (tame_write _ _).bind fun _ =>
        (tame_liftM _).bind fun _ => tame_write _ _
    · exact tame_fail _
  · exact tame_pure _

theorem tame_invokeBody (callee : Word) (s : Lowered) (frameSize : Option Nat) (c : LogicalCall)
    (landing : Option Word × Option Word) : Tame (invokeBody callee s frameSize c landing) := by
  unfold invokeBody
  cases s.frame with
  | none =>
    simp only
    rw [invokeFlatCall_eq]
    refine (tame_allocIf _ _).bind fun _ => (tame_flatArgs _ _).bind fun _ =>
      (tame_flatWitness _ _).bind fun _ => (tame_call _ _).bind fun _ => ?_
    exact tame_ite ((tame_liftM _).bind fun _ => tame_pure _) (tame_fail _)
  | some f =>
    simp only
    rw [invokeAsyncCall_eq]
    refine (tame_alloc _).bind fun frame => Tame.bind ?_ fun _ => (tame_call _ _).bind fun _ => ?_
    · exact (tame_writeField _ _ _).bind fun _ => (tame_writeField _ _ _).bind fun _ =>
        (tame_frameArgs _ _ _).bind fun _ => (tame_liftM _).bind fun _ =>
          (tame_writeWords _ _).bind fun _ => (tame_liftM _).bind fun _ =>
            (tame_write _ _).bind fun _ => (tame_frameWitness _ _ _).bind fun _ => tame_pure _
    · refine tame_ite (Tame.bind ?_ fun _ => tame_pure _) (tame_fail _)
      unfold frameValues
      split
      · exact (tame_liftM _).bind fun _ => tame_inMemory _
      · exact tame_pure _

theorem tame_report (s : Lowered) (c : LogicalCall) (landing : Option Word × Option Word)
    (returned : Returned) : Tame (report s c landing returned) := by
  refine Tame.bind ?_ fun _ => tame_pure _
  rw [readResult_eq]
  have hslot : Tame (readSlot landing.1) := by
    cases landing.1 with
    | none => exact tame_pure _
    | some slot => exact tame_read _
  refine hslot.bind fun _ => tame_ite (tame_pure _) ?_
  cases landing.2 with
  | none => exact tame_pure _
  | some d => exact (tame_inMemory _).bind fun _ => tame_pure _

/-- Calls from outside, whatever their arguments. -/
theorem tame_invoke (callee : Word) (s : Lowered) (frameSize : Option Nat) (c : LogicalCall) :
    Tame (invoke callee s frameSize c) := by
  by_cases hargs : c.args.length = s.carriers.length
  case neg =>
    rw [invoke, if_pos hargs]
    exact fun _ _ => (spared_fail (Q := fun _ _ => False) _).bind fun _ _ _ h => h.elim
  by_cases hbindings : c.bindings.length = s.bindingCount
  case neg =>
    rw [invoke, if_neg (fun h => h hargs), if_pos hbindings]
    exact fun _ _ => (spared_fail (Q := fun _ _ => False) _).bind fun _ _ _ h => h.elim
  rw [invoke_eq hargs hbindings]
  have hlanding : Tame (makeLanding s (resultWords s c)) :=
    (tame_allocIf _ _).bind fun _ => (tame_allocIf _ _).bind fun _ => tame_pure _
  exact hlanding.bind fun _ => (tame_invokeBody _ _ _ _ _).bind fun _ => tame_report _ _ _ _

end World

end Dispatch
