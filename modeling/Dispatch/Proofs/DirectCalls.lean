import Dispatch.Proofs.Fidelity
import Dispatch.Proofs.Operations

/-!
# Calls of implementations

A caller encodes the arguments of a call for a native signature, and the implementation
decodes them again.  Decoding undoes encoding: the body runs once, and sees the call that
the caller described, but for the bits that registers cut off.  Its answer goes the same
way back.

Nothing is asked of the machine but that it was booted, of its module but that frames are
the standard ones, and of the body nothing at all.

## Main definitions

* `World.KeepsLog` — steps that log nothing.
* `World.Ran` — the body of an implementation has run once, in some memory.

## Main results

* `World.ends_invoke_installed` — a call of the address of an implementation.
* `World.callImplementation_decodes` — a call of an implementation, after any operations.
-/

namespace Dispatch

open Attempt

namespace World

/-! ### Steps that log nothing -/

section KeepsLog

variable {α β : Type} {x : Run α} {f : α → Run β}

/-- However it ends, the step logs nothing. -/
def KeepsLog (x : Run α) : Prop :=
  ∀ w : World, Step.Ends x w (fun _ w' => w'.machine.log = w.machine.log)
    fun _ w' => w'.machine.log = w.machine.log

theorem KeepsLog.bind (hx : KeepsLog x) (hf : ∀ a, KeepsLog (f a)) : KeepsLog (x >>= f) :=
  fun w => (hx w).bind_rel (fun a w' _ => hf a w') fun _ _ h h' => h'.trans h

theorem keepsLog_pure (a : α) : KeepsLog (pure a : Run α) := fun _ => rfl

theorem keepsLog_fail (cause : MachineError) : KeepsLog (fail cause : Run α) := fun _ => rfl

theorem keepsLog_liftM (attempt : Attempt α) : KeepsLog (liftM attempt : Run α) := fun w => by
  rw [Step.ends_liftM]
  exact ⟨fun _ _ => rfl, fun _ _ => rfl⟩

theorem keepsLog_withMemory (y : Step Memory α) : KeepsLog (withMemory y) := fun w => by
  rw [ends_withMemory]
  unfold Step.Ends
  split
  · rfl
  · rfl

theorem keepsLog_inMemory (question : Memory → Attempt α) : KeepsLog (inMemory question) :=
  fun w => by
    rw [ends_inMemory]
    exact ⟨fun _ _ => rfl, fun _ _ => rfl⟩

theorem keepsLog_ite {c : Prop} [Decidable c] {x y : Run α} (hx : KeepsLog x) (hy : KeepsLog y) :
    KeepsLog (if c then x else y) := by
  split
  · exact hx
  · exact hy

theorem keepsLog_deliver (symbol : String) (slot place : Option Word) (o : Outcome) :
    KeepsLog (deliver symbol slot place o) := by
  cases o with
  | ok words =>
    cases place with
    | none => exact keepsLog_pure _
    | some d => exact (keepsLog_withMemory _).bind fun _ => keepsLog_pure _
  | error e =>
    cases slot with
    | none => exact keepsLog_fail _
    | some a => exact (keepsLog_withMemory _).bind fun _ => keepsLog_pure _

theorem keepsLog_answerFlat (i : Implementation) (resume : Option Word) (answer : Answer) :
    KeepsLog (answerFlat i resume answer) :=
  (keepsLog_liftM _).bind fun _ => keepsLog_ite (keepsLog_pure _) (keepsLog_fail _)

theorem keepsLog_storeResult (f : Frame) (frame : Word) (answer : Answer) :
    KeepsLog (storeResult f frame answer) := by
  unfold storeResult
  split
  · exact keepsLog_ite ((keepsLog_liftM _).bind fun _ => (keepsLog_withMemory _).bind
      fun _ => keepsLog_pure _) (keepsLog_fail _)
  · exact keepsLog_pure _

theorem keepsLog_receiveFlat (s : Lowered) (resume : Option Word) (spilled results : List Word) :
    KeepsLog (receiveFlat s resume spilled results) :=
  keepsLog_ite ((keepsLog_liftM _).bind fun _ => keepsLog_pure _) (keepsLog_fail _)

theorem keepsLog_receiveFrame (f : Frame) (frame : Word) (place : Option Word)
    (spilled results : List Word) : KeepsLog (receiveFrame f frame place spilled results) := by
  refine keepsLog_ite (KeepsLog.bind ?_ fun _ => keepsLog_pure _) (keepsLog_fail _)
  unfold frameValues
  split
  · exact (keepsLog_liftM _).bind fun _ => keepsLog_inMemory _
  · exact keepsLog_pure _

theorem keepsLog_report (s : Lowered) (c : LogicalCall) (landing : Option Word × Option Word)
    (returned : Returned) : KeepsLog (report s c landing returned) := by
  refine KeepsLog.bind ?_ fun _ => keepsLog_pure _
  rw [readResult_eq]
  have hslot : KeepsLog (readSlot landing.1) := by
    cases landing.1 with
    | none => exact keepsLog_pure _
    | some slot => exact keepsLog_inMemory fun m => m.read slot
  refine hslot.bind fun _ => keepsLog_ite (keepsLog_pure _) ?_
  cases landing.2 with
  | none => exact keepsLog_pure _
  | some d => exact (keepsLog_inMemory _).bind fun _ => keepsLog_pure _

end KeepsLog

/-! ### One run of a body -/

variable {u : Module} {w w' : World} {symbol : String} {i : Implementation} {c : LogicalCall}
  {callee : Word}

/-- The body of the implementation has run once since `w`, on the call that was described,
in a memory in which all that was there before is as it was. -/
structure Ran (w : World) (i : Implementation) (c : LogicalCall) (memory : Memory)
    (w' : World) : Prop where
  log : w'.machine.log = w.machine.log ++ [(i.symbol, c.invocation i.signature)]
  kept : w.memory.Evolves (fun _ => False) memory

/-- What the body answers in a memory. -/
def outcome (i : Implementation) (c : LogicalCall) (memory : Memory) : Outcome :=
  i.body (c.invocation i.signature) memory

/-- The outcome has the words that the caller has a place for. -/
def Fitting (i : Implementation) (c : LogicalCall) (memory : Memory) : Prop :=
  (outcome i c memory).Suits i.signature (resultWords i.signature c)

/-- The body has run once, and if its outcome is fitting, the report shows it. -/
def Shows (w : World) (i : Implementation) (c : LogicalCall) (r : Report) (w' : World) : Prop :=
  ∃ memory, Ran w i c memory w' ∧ (Fitting i c memory →
    r.result = i.signature.resultOf (resultWords i.signature c) (outcome i c memory))

/-- The call used up memory, or the body has run once and its outcome is not fitting. -/
def Fails (w : World) (i : Implementation) (c : LogicalCall) (w' : World) : Prop :=
  Exhausted w' ∨ ∃ memory, Ran w i c memory w' ∧ ¬ Fitting i c memory

/-- If the outcome is not fitting, whatever comes after the body logs nothing. -/
theorem ends_of_not_fitting {y : Run (List Word)} {receive : List Word → Run Returned}
    {landing : Option Word × Option Word} {args : List Word} {memory m : Memory}
    (hfit : ¬ Fitting i c memory) (hkept : w.memory.Evolves (fun _ => False) memory)
    (hcall : call callee args (w.setMemory m) = y
      ((w.setMemory memory).logged i.symbol (c.invocation i.signature)))
    (hy : KeepsLog y) (hreceive : ∀ results, KeepsLog (receive results)) :
    Step.Ends (call callee args >>= receive) (w.setMemory m)
      (fun r w' => Step.Ends (report i.signature c landing r) w' (Shows w i c)
        fun _ => Fails w i c) fun _ => Fails w i c := by
  have hran : ∀ w' : World, w'.machine.log
      = ((w.setMemory memory).logged i.symbol (c.invocation i.signature)).machine.log →
      Ran w i c memory w' := fun w' h => ⟨h, hkept⟩
  have hends : Step.Ends (y >>= receive)
      ((w.setMemory memory).logged i.symbol (c.invocation i.signature))
      (fun r w' => Step.Ends (report i.signature c landing r) w' (Shows w i c)
        fun _ => Fails w i c) fun _ => Fails w i c := by
    refine (hy.bind hreceive _).imp (fun r w' h => ?_) fun _ w' h => .inr ⟨_, hran w' h, hfit⟩
    refine (keepsLog_report i.signature c landing r w').imp (fun _ w'' h' => ?_) fun _ w'' h' => ?_
    · exact ⟨memory, hran w'' (h'.trans h), fun h => absurd h hfit⟩
    · exact .inr ⟨memory, hran w'' (h'.trans h), hfit⟩
  rw [Step.ends_bind] at hends ⊢
  rwa [Step.Ends, hcall]

/-- What was there before the call is there when the body runs. -/
theorem Decoded.kept {m₀ m₁ m₂ memory : Memory} {low high : Nat} {spilled : List Word}
    (h : Decoded m₂ memory low high spilled) (h₁ : m₀.Evolves (fun _ => False) m₁)
    (h₂ : m₁.Evolves (fun _ => False) m₂) (hlow : m₁.next.toNat ≤ low) :
    m₀.Evolves (fun _ => False) memory :=
  (h₁.trans h₂).then h.evolves fun n hn hch => by
    have := h₁.next
    omega

/-- If the outcome is fitting, the report shows it. -/
theorem ends_report_of_answered {l : Landing} {m memory : Memory} {r : Returned}
    (hl : l.words = resultWords i.signature c) (hev : w.memory.Evolves (fun _ => False) m)
    (hclear : l.Clear m w.memory.next.toNat m.next.toNat)
    (herror : l.errorSlot.isSome = i.signature.throws)
    (hindirect : l.indirectReturn.isSome = i.signature.hasIndirectReturn)
    (hran : Ran w i c memory w') (hfit : Fitting i c memory)
    (hanswered : Answered (w.setMemory m) w' i.symbol i.signature c (outcome i c memory) 0 l r) :
    Step.Ends (report i.signature c (l.errorSlot, l.indirectReturn) r) w' (Shows w i c)
      fun _ => Fails w i c :=
  (ends_report hl hfit hev hclear herror hindirect hanswered).imp
    (fun _ _ h => ⟨memory, ⟨h.2.log, hran.kept⟩, fun _ => h.2.result⟩) fun _ _ h => h

section Landed

variable {l : Landing} {m : Memory}

/-- A call of an implementation with flat arguments, once the landing is there. -/
theorem ends_flatCall_installed
    (hnative : ∀ m₂ args, m.Evolves (fun _ => False) m₂ →
      call callee args (w.setMemory m₂) = invokeNative i args (w.setMemory m₂))
    (hconv : i.signature.convention.isAsync = false) (hs : i.signature.Sound)
    (hshape : c.WellShaped i.signature) (hl : l.words = resultWords i.signature c)
    (hev : w.memory.Evolves (fun _ => False) m) (hm : m.Sound)
    (hclear : l.Clear m w.memory.next.toNat m.next.toNat)
    (herror : l.errorSlot.isSome = i.signature.throws)
    (hindirect : l.indirectReturn.isSome = i.signature.hasIndirectReturn) :
    Step.Ends (invokeFlatCall callee i.signature c l.errorSlot l.indirectReturn) (w.setMemory m)
      (fun r w' => Step.Ends (report i.signature c (l.errorSlot, l.indirectReturn) r) w'
        (Shows w i c) fun _ => Fails w i c) fun _ => Fails w i c := by
  have hafter : After w (w.setMemory m) := ⟨steady_setMemory w m, hev⟩
  refine ends_invokeFlatCall_of_ready hconv hs.carriers hshape hafter hm hclear herror hindirect
    (fun _ _ h => .inl h) fun m₂ parts low spilled hev₂ hlow hlanding hspilled hinv hready => ?_
  obtain ⟨m₃, hdecoded, hrun⟩ := invokeNative_flat (w := w.setMemory m₂) hconv
    (hs.frame_of_flat hconv) hs.carriers hready
  rw [hinv] at hrun
  have hkept := hdecoded.kept hev hev₂ hlow
  have hcall := (hnative m₂ parts.toList hev₂).trans hrun
  by_cases hfit : Fitting i c m₃
  · have hsuits : (outcome i c m₃).Suits i.signature l.words := hl ▸ hfit
    have hserved : Step.Ends (call callee parts.toList) (w.setMemory m₂) (fun results w' =>
        results = parts.resumeBuffer.toList ++ i.signature.packResult (outcome i c m₃) ∧
        w'.machine.suspensions = w.machine.suspensions ∧
        Served (w.setMemory m₂) w' i.symbol (c.invocation i.signature) (outcome i c m₃) l low
          (fun _ => False) spilled) fun _ w' => Exhausted w' := by
      rw [Step.Ends, hcall, ← hlanding]
      exact ends_answerFlat hconv hs.result hready hdecoded hsuits
    refine (ends_receiveFlat (w := w.setMemory m) hconv hs.result hsuits hev₂ hlow hspilled
      hready hserved).imp (fun r w' h => ?_) fun _ _ h => .inl h
    exact ends_report_of_answered hl hev hclear herror hindirect ⟨h.log, hkept⟩ hfit h
  · refine ends_of_not_fitting hfit hkept hcall ?_ fun _ => keepsLog_receiveFlat _ _ _ _
    exact (keepsLog_deliver _ _ _ _).bind fun _ => keepsLog_answerFlat _ _ _

/-- A call of an implementation with a frame, once the landing is there. -/
theorem ends_frameCall_installed
    (hnative : ∀ m₂ args, m.Evolves (fun _ => False) m₂ →
      call callee args (w.setMemory m₂) = invokeNative i args (w.setMemory m₂))
    (hconv : i.signature.convention.isAsync = true) (hs : i.signature.Sound)
    (hshape : c.WellShaped i.signature) (hl : l.words = resultWords i.signature c)
    (hev : w.memory.Evolves (fun _ => False) m) (hm : m.Sound)
    (hclear : l.Clear m w.memory.next.toNat m.next.toNat)
    (herror : l.errorSlot.isSome = i.signature.throws)
    (hindirect : l.indirectReturn.isSome = i.signature.hasIndirectReturn) :
    Step.Ends (invokeAsyncCall callee i.signature i.signature.frameLayout none c l.errorSlot
        l.indirectReturn) (w.setMemory m)
      (fun r w' => Step.Ends (report i.signature c (l.errorSlot, l.indirectReturn) r) w'
        (Shows w i c) fun _ => Fails w i c) fun _ => Fails w i c := by
  have hafter : After w (w.setMemory m) := ⟨steady_setMemory w m, hev⟩
  obtain ⟨hframe, hlimit⟩ := hs.frame_of_async hconv
  refine ends_invokeAsyncCall_of_ready hconv hs.carriers hlimit hshape rfl hafter hm hclear herror
    hindirect (fun _ _ h => .inl h)
    fun m₂ frame parts low spilled hev₂ hnext howns hlanding hspilled hinv hready => ?_
  have hlow : m.next.toNat ≤ low := by
    have := hready.below
    rw [memory_setMemory] at hnext
    omega
  obtain ⟨m₃, hdecoded, hrun⟩ := invokeNative_frame (w := w.setMemory m₂) hconv hframe hready
  rw [hinv] at hrun
  have hkept := hdecoded.kept hev hev₂ hlow
  have hcall := (hnative m₂ [frame] hev₂).trans hrun
  by_cases hfit : Fitting i c m₃
  · have hsuits : (outcome i c m₃).Suits i.signature l.words := hl ▸ hfit
    have hserved : Step.Ends (call callee [frame]) (w.setMemory m₂) (fun results w' =>
        results = [] ∧ w'.machine.suspensions = w.machine.suspensions + 0 ∧
        w'.memory.Holds frame i.signature.resultsAt
          (i.signature.inlineResult (outcome i c m₃)) ∧
        Served (w.setMemory m₂) w' i.symbol (c.invocation i.signature) (outcome i c m₃) l low
          (Memory.Within frame i.signature.resultsAt i.signature.resultScalars.length) spilled)
        fun _ w' => Exhausted w' := by
      rw [Step.Ends, hcall, ← hlanding, ← i.signature.keptResult_zeros]
      exact ends_storeResult hready hdecoded hsuits
    refine (ends_receiveFrame (w := w.setMemory m) hconv hsuits hindirect hev₂ hnext howns hspilled
      hready hserved).imp (fun r w' h => ?_) fun _ _ h => .inl h
    exact ends_report_of_answered hl hev hclear herror hindirect ⟨h.log, hkept⟩ hfit h
  · refine ends_of_not_fitting hfit hkept hcall ?_ fun _ => keepsLog_receiveFrame _ _ _ _ _
    exact (keepsLog_deliver _ _ _ _).bind fun _ => keepsLog_storeResult _ _ _

end Landed

/-- A call of the address of an implementation. -/
theorem ends_invoke_installed (hw : w.Linked) (hlink : w.link? symbol = some callee)
    (hcallee : callee.toNat < 2 ^ 48) (hi : w.machine.implementations.get? symbol = some i)
    (hs : i.signature.Sound) (hshape : c.WellShaped i.signature) :
    Step.Ends (invoke callee i.signature none c) w (Shows w i c) fun _ => Fails w i c := by
  refine ends_invoke_of_landing hshape hw.sound (fun _ _ h => .inl h)
    fun m l hl hev hm hclear herror hindirect => ?_
  -- whatever is sent, the pointer leads to the implementation
  have hnative : ∀ m₂ args, m.Evolves (fun _ => False) m₂ →
      call callee args (w.setMemory m₂) = invokeNative i args (w.setMemory m₂) := by
    intro m₂ args hev₂
    have hlinked : (w.setMemory m₂).Linked := hw.evolves rfl (hev.trans hev₂)
    rw [call_eq]
    exact callTo_native hlinked hlink hcallee hi _ _
  rw [Step.ends_bind]
  rcases hs.frame with ⟨hconv, hframe⟩ | ⟨hconv, hframe, -⟩
  · rw [invokeBody, hframe]
    exact ends_flatCall_installed hnative hconv hs hshape hl hev hm hclear herror hindirect
  · rw [invokeBody, hframe]
    exact ends_frameCall_installed hnative hconv hs hshape hl hev hm hclear herror hindirect

/-- A call of an implementation in a machine that was booted. -/
theorem ends_callImplementation (h : Installed u w) (hu : u.layout.frameEdits = [])
    (hi : w.machine.implementations.get? symbol = some i) (hsized : i.signature.Sized)
    (hshape : c.WellShaped i.signature) :
    Step.Ends (callImplementation symbol c) w (fun r w' => Exhausted w' ∨ Shows w i c r w')
      fun _ => Fails w i c := by
  obtain ⟨-, p, m, hlower⟩ := h.implementations symbol i hi
  have hs : i.signature.Sound := Layout.sound_of_lower hu hlower hsized
  rw [callImplementation, Step.ends_bind, Step.ends_get]
  simp only [hi]
  rw [Step.ends_bind]
  refine (ends_addressOf h.linked symbol).imp (fun callee w₁ h₁ => ?_) fun _ _ hfull => .inl hfull
  obtain ⟨hlink, hw₁, hext⟩ := h₁
  have hran : ∀ {memory w'}, Ran w₁ i c memory w' → Ran w i c memory w' := fun hran =>
    ⟨by rw [hran.log, hext.rest], hext.evolves.trans hran.kept⟩
  by_cases hcallee : callee.toNat < 2 ^ 48
  · refine (ends_invoke_installed hw₁ hlink hcallee (by rw [hext.rest]; exact hi) hs hshape).imp
      (fun r w' hr => .inr ?_) fun _ w' hf => ?_
    · obtain ⟨memory, hmemory, hresult⟩ := hr
      exact ⟨memory, hran hmemory, hresult⟩
    · rcases hf with hfull | ⟨memory, hmemory, hfit⟩
      · exact .inl hfull
      · exact .inr ⟨memory, hran hmemory, hfit⟩
  · -- an address that looks signed is beyond all other addresses
    have hfull : Exhausted w₁ := by
      have hend := (hw₁.owns _ _ hlink).lt_next hw₁.sound
      rw [Exhausted]
      omega
    exact Step.Ends.imp (tame_invoke callee i.signature none c w₁ hw₁)
      (fun _ _ hs => .inl (hs.1.exhausted hfull)) fun _ _ hs => .inl (hs.exhausted hfull)

/-- Decoding undoes encoding.  In whatever state a machine is, a call of an implementation
runs its body once, on the call that was described, and if the body answers with a word
for each component of the result, the report is its answer. -/
theorem callImplementation_decodes (hw : Operated u w) (hu : u.layout.frameEdits = [])
    (hi : w.machine.implementations.get? symbol = some i) (hsized : i.signature.Sized)
    (hshape : c.WellShaped i.signature)
    (hroom : ¬ Exhausted ((callImplementation symbol c).final w)) :
    ∃ memory, w.memory.Evolves (fun _ => False) memory ∧
      ((callImplementation symbol c).final w).machine.log
        = w.machine.log ++ [(symbol, c.invocation i.signature)] ∧
      ∀ words, i.body (c.invocation i.signature) memory = .ok words →
        words.length = (if i.signature.hasIndirectReturn then resultWords i.signature c
          else i.signature.resultScalars.length) →
        ∃ r w', callImplementation symbol c w = .ok r w' ∧
          r.result = .ok (if i.signature.hasIndirectReturn || i.signature.convention.isAsync
            then words else Scalar.clip i.signature.resultScalars words) := by
  have hinstalled := hw.installed
  obtain ⟨rfl, -⟩ := hinstalled.implementations symbol i hi
  have hends := ends_callImplementation hinstalled hu hi hsized hshape
  cases hrun : callImplementation i.symbol c w with
  | ok r w' =>
    rw [Step.final_of_ok hrun] at hroom ⊢
    obtain ⟨memory, hran, hresult⟩ := (hends.ok hrun).resolve_left hroom
    refine ⟨memory, hran.kept, hran.log, fun words hwords hlen => ⟨r, w', rfl, ?_⟩⟩
    have hfit : Fitting i c memory := by
      rw [Fitting, outcome, hwords]
      exact hlen
    rw [hresult hfit, outcome, hwords, Lowered.resultOf]
  | error fault w' =>
    rw [Step.final_of_error hrun] at hroom ⊢
    obtain ⟨memory, hran, hfit⟩ := (hends.error hrun).resolve_left hroom
    refine ⟨memory, hran.kept, hran.log, fun words hwords hlen => absurd ?_ hfit⟩
    rw [Fitting, outcome, hwords]
    exact hlen

end World

/-! ### A square -/

namespace Shapes

open World

/-- A machine in which squares have an area. -/
def measured : World := (implement "squareArea" Script.sum.run).final drawn

/-- A call for the square, with a number that is too large for eight bits. -/
def wideOrder : LogicalCall := { order with args := [.value [261], .value [1, 2, 3, 4, 5]] }

theorem operated_measured (h : unit.boot.isOk = true) : Operated unit measured :=
  .operate (.operate (operated_start h) (.request (.newObject "Square")))
    (.request (.implement "squareArea" Script.sum.run))

/-- The implementation sees the eight bits that are left of the number, and all of the five
words. -/
theorem callImplementation_decodes_squareArea :
    ∃ r w', callImplementation "squareArea" wideOrder measured = .ok r w' ∧ r.result = .ok [20] ∧
      ((callImplementation "squareArea" wideOrder).final measured).machine.log
        = [("squareArea", ⟨4360, [.value [5], .value [1, 2, 3, 4, 5]], [], none⟩)] := by
  obtain ⟨hboot, hframes, hok, hinstalled, hsized, hshape, hroom, hinv, hlog, hwords⟩ :
      unit.boot.isOk = true ∧ unit.layout.frameEdits = [] ∧
      (implement "squareArea" Script.sum.run).succeeds drawn = true ∧
      (measured.machine.implementations.get? "squareArea").map (·.signature)
        = some (signature squareArea) ∧
      (signature squareArea).isSized = true ∧ wideOrder.WellShaped (signature squareArea) ∧
      ¬ Exhausted ((callImplementation "squareArea" wideOrder).final measured) ∧
      wideOrder.invocation (signature squareArea) = ⟨4360, order.args, [], none⟩ ∧
      measured.machine.log = [] ∧
      (signature squareArea).hasIndirectReturn = false ∧
        (signature squareArea).convention = .ordinary ∧
        (signature squareArea).resultScalars = [.i64] := by
    decide +kernel
  have hi : measured.machine.implementations.get? "squareArea"
      = some ⟨"squareArea", signature squareArea, Script.sum.run⟩ := by
    rw [measured] at hinstalled ⊢
    exact get?_implement hok hinstalled
  obtain ⟨memory, -, hran, hanswer⟩ := callImplementation_decodes (operated_measured hboot) hframes
    hi (Lowered.sized_of_isSized hsized) hshape hroom
  obtain ⟨hindirect, hconv, hscalars⟩ := hwords
  have hbody : Script.sum.run (wideOrder.invocation (signature squareArea)) memory = .ok [20] := by
    rw [hinv]
    exact sum_order memory
  obtain ⟨r, w', hrun, hresult⟩ := hanswer [20] hbody (by rw [hindirect, hscalars]; rfl)
  rw [hindirect, hconv, hscalars] at hresult
  rw [hinv, hlog] at hran
  exact ⟨r, w', hrun, hresult, hran⟩

end Shapes

/-! ### Where there is no room -/

namespace World

variable {u : Module} {w : World} {symbol : String} {i : Implementation} {c : LogicalCall}
  {a : Word}

/-- Any machine can be asked for memory until there is none left. -/
theorem Operated.exists_full (h : Operated u w) :
    ∃ m, Operated u (w.setMemory m) ∧ ¬ m.next.toNat + Region.extent 8 + Region.gapBytes < 2 ^ 64 := by
  have hgrow : ∀ n : Nat, ∃ m, Operated u (w.setMemory m) ∧
      (n ≤ m.next.toNat ∨ ¬ m.next.toNat + Region.extent 8 + Region.gapBytes < 2 ^ 64) := by
    intro n
    induction n with
    | zero => exact ⟨w.memory, h, .inl (Nat.zero_le _)⟩
    | succ n ih =>
      obtain ⟨m, hm, hn⟩ := ih
      by_cases hroom : m.next.toNat + Region.extent 8 + Region.gapBytes < 2 ^ 64
      case neg => exact ⟨m, hm, .inr hroom⟩
      have halloc : (Operation.alloc 8).run.final (w.setMemory m)
          = w.setMemory (m.allocated 8) := by
        have hrun := withMemory_ok (w := w.setMemory m) (Memory.alloc_ok hroom)
        exact Step.final_of_ok (Step.bind_of_ok hrun)
      have hnext := Memory.next_allocated hroom
      have hgap : Region.gapBytes = 16 := rfl
      exact ⟨m.allocated 8, halloc ▸ hm.operate (.alloc 8), .inl (by omega)⟩
  obtain ⟨m, hm, hn⟩ := hgrow (2 ^ 64)
  exact ⟨m, hm, hn.resolve_left (Nat.not_le.mpr m.next.toNat_lt)⟩

/-- Without room for an error slot a call ends before the body runs. -/
theorem callImplementation_full (hi : w.machine.implementations.get? symbol = some i)
    (hlink : w.link? symbol = some a) (hargs : c.args.length = i.signature.carriers.length)
    (hbindings : c.bindings.length = i.signature.bindingCount) (hthrows : i.signature.throws = true)
    (hfull : ¬ w.memory.next.toNat + Region.extent 8 + Region.gapBytes < 2 ^ 64) :
    callImplementation symbol c w = .error (.trap (.overflow .add)) w := by
  have haddress : addressOf symbol w = .ok a w := by
    have hlink' : w.machine.symbols.get? symbol = some a := hlink
    rw [addressOf, Step.bind_of_ok Step.run_get]
    simp only [hlink']
    rfl
  have halloc : withMemory (Memory.allocWords 1) w = .error (.trap (.overflow .add)) w := by
    have hmemory : Memory.alloc 8 w.machine.memory
        = .error (.trap (.overflow .add)) w.machine.memory := Memory.alloc_error hfull
    rw [Memory.allocWords_eq (by decide)]
    simp only [withMemory, Step.zoom, hmemory]
  have hslot : allocIf i.signature.throws 1 w = .error (.trap (.overflow .add)) w := by
    rw [hthrows, allocIf, if_pos rfl]
    exact Step.bind_of_error halloc
  rw [callImplementation, Step.bind_of_ok Step.run_get]
  simp only [hi]
  rw [Step.bind_of_ok haddress, invoke_eq hargs hbindings]
  exact Step.bind_of_error (Step.bind_of_error hslot)

/-- Any implementation that needs an error slot can end up in a machine in which it cannot be
called. -/
theorem Operated.exists_refusal (h : Operated u w)
    (hi : w.machine.implementations.get? symbol = some i) (hlink : w.link? symbol = some a)
    (hargs : c.args.length = i.signature.carriers.length)
    (hbindings : c.bindings.length = i.signature.bindingCount)
    (hthrows : i.signature.throws = true) :
    ∃ w', Operated u w' ∧ w'.machine.implementations.get? symbol = some i ∧
      (callImplementation symbol c).succeeds w' = false ∧
      ((callImplementation symbol c).final w').machine.log = w'.machine.log := by
  obtain ⟨m, hm, hfull⟩ := h.exists_full
  have hrun := callImplementation_full (w := w.setMemory m) hi hlink hargs hbindings hthrows hfull
  refine ⟨w.setMemory m, hm, hi, ?_, ?_⟩
  · rw [Step.succeeds, Step.value?, hrun]
    rfl
  · rw [Step.final_of_error hrun]

end World

namespace Boxes

open World

/-- What is in a box.  Boxes hold things of any type, so the result is never loaded. -/
def contents : Method where
  module := "boxes"
  owner := .ofClass "Box"
  selector := "contents"
  kind := .onInstance
  signature := {
    convention := .ordinary, generics := { params := 1 }, selfType := 8, params := [], result := 9
    error := some 4 }

/-- A class with one method. -/
def unit : Module where
  pool := Pool.new.extend [.object "Box", .generic 0]
  hierarchy := {
    module := "boxes"
    classes := [
      { name := "Box", superclass := none, resilient := false,
        methods := [⟨contents, "contents", .isPublic, none⟩] }] }

/-- The native signature of the method. -/
def signature : Lowered :=
  match unit.layout.lower unit.pool contents with
  | .ok s => s
  | .error _ => default

/-- A machine in which all boxes are locked. -/
def locked : World := (implement "contents" (Script.raise 7).run).final unit.start

/-- A call with a place of some words for the result. -/
def order (words : Nat) : LogicalCall where
  receiver := 4096
  bindings := [4096]
  resultWords := words

/-- The call has the shape that the method asks for, but the body does not run: either the
place for the result has more bytes than can be counted, or there is no memory left. -/
theorem callImplementation_refused :
    Operated unit locked ∧ unit.layout.lower unit.pool contents = .ok signature ∧
    (∀ words, Shaped signature.carriers (order words).args ∧
      (order words).bindings.length = signature.bindingCount ∧ signature.witness = false) ∧
    ∃ i, i.signature = signature ∧
      locked.machine.implementations.get? "contents" = some i ∧
      ((callImplementation "contents" (order (2 ^ 29))).succeeds locked = false ∧
        ((callImplementation "contents" (order (2 ^ 29))).final locked).machine.log
          = locked.machine.log) ∧
      ∃ w, Operated unit w ∧ w.machine.implementations.get? "contents" = some i ∧
        (callImplementation "contents" (order 1)).succeeds w = false ∧
        ((callImplementation "contents" (order 1)).final w).machine.log = w.machine.log := by
  obtain ⟨⟨hboot, hok, hinstalled⟩, ⟨hlower, hcarriers, hcount, hwitness, hthrows⟩, hrefused,
      hlink⟩ :
      (unit.boot.isOk = true ∧
        (implement "contents" (Script.raise 7).run).succeeds unit.start = true ∧
        (((implement "contents" (Script.raise 7).run).final unit.start).machine.implementations.get?
          "contents").map (·.signature) = some signature) ∧
      (unit.layout.lower unit.pool contents = .ok signature ∧ signature.carriers = [] ∧
        signature.bindingCount = 1 ∧ signature.witness = false ∧ signature.throws = true) ∧
      ((callImplementation "contents" (order (2 ^ 29))).succeeds locked = false ∧
        ((callImplementation "contents" (order (2 ^ 29))).final locked).machine.log
          = locked.machine.log) ∧
      (locked.link? "contents").isSome = true := by
    decide +kernel
  have hoperated : Operated unit locked :=
    .operate (operated_start hboot) (.request (.implement "contents" (Script.raise 7).run))
  have hi : locked.machine.implementations.get? "contents"
      = some ⟨"contents", signature, (Script.raise 7).run⟩ := by
    rw [locked]
    exact get?_implement hok hinstalled
  have hshaped : ∀ words, Shaped signature.carriers (order words).args ∧
      (order words).bindings.length = signature.bindingCount ∧ signature.witness = false := by
    intro words
    rw [hcarriers, hcount]
    exact ⟨trivial, rfl, hwitness⟩
  obtain ⟨a, ha⟩ := Option.isSome_iff_exists.mp hlink
  exact ⟨hoperated, hlower, hshaped, _, rfl, hi, hrefused,
    hoperated.exists_refusal hi ha (by rw [hcarriers]; rfl) (hshaped 1).2.1 hthrows⟩

end Boxes

end Dispatch
