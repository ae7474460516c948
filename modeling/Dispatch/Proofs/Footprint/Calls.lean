import Dispatch.Proofs.Footprint.Arguments

/-!
# What calls leave alone

A call may fail half-way, its arguments may have the wrong shapes and its body may answer
with too many words.  Whatever happens, a call writes only to memory that was made for it:
every address that is stored through comes from a caller with the same signature, which
made room for it.

## Main definitions

* `World.CallSpared` — a callee that spares what lies below the floor.

## Main results

* `World.callSpared_invokeNative` — implementations.
* `World.callSpared_forward` — a thunk spares what its callee spares.
* `World.spared_invoke` — calls from outside, whatever their arguments.
-/

namespace Dispatch

open Attempt

namespace World

variable {α : Type} {floor low : Nat} {w w' w₀ : World} {s : Lowered} {frame receiver : Word}
  {witness : Option (Word × Word)} {parts : Parts Word} {callee : List Word → Run (List Word)}

/-! ### Running a body -/

theorem spared_deliver (symbol : String) {slot place : Option Word}
    (hslot : ∀ a ∈ slot, floor ≤ a.toNat) (hplace : ∀ d ∈ place, floor ≤ d.toNat) (o : Outcome) :
    Spared floor (deliver symbol slot place o) w Anything := by
  cases o with
  | ok words =>
    cases place with
    | none => exact spared_pure trivial
    | some d => exact (spared_writeWords (hplace d rfl)).bind fun _ _ _ _ => spared_pure trivial
  | error e =>
    cases slot with
    | none => exact spared_fail _
    | some a => exact (spared_write (hslot a rfl)).bind fun _ _ _ _ => spared_pure trivial

theorem spared_runBody (i : Implementation) (inc : Incoming)
    (hslot : ∀ a ∈ inc.errorSlot, floor ≤ a.toNat)
    (hplace : ∀ d ∈ inc.indirectReturn, floor ≤ d.toNat) :
    Spared floor (runBody i inc) w Anything := by
  have hlog : Spares floor w (w.logged i.symbol inc.invocation) :=
    (steady_log w _).spares (.refl _ _)
  have hdeliver := spared_deliver (w := w.logged i.symbol inc.invocation) i.symbol hslot hplace
    (i.body inc.invocation w.memory)
  rw [Spared, Step.Ends, runBody_eq]
  exact Step.Ends.imp hdeliver (fun _ _ h => ⟨hlog.trans h.1, h.2⟩) fun _ _ h => hlog.trans h

/-! ### Callees -/

/-- From `w₀` on, a call of `callee` with flat arguments for the receiver and the witness
spares what lies below the floor, if the addresses among the arguments lie above it. -/
def FlatSpared (floor : Nat) (callee : List Word → Run (List Word)) (s : Lowered) (w₀ : World)
    (receiver : Word) (witness : Option (Word × Word)) : Prop :=
  ∀ (w : World) (parts : Parts Word), Spares floor w₀ w → parts.Fits s →
    parts.receiver = receiver → parts.witness = witness → parts.Above floor →
    AddressesAbove Passing.registerWords floor s.carriers parts.params →
    Spared floor (callee parts.toList) w Anything

/-- From `w₀` on, a call of `callee` with a frame for the receiver and the witness spares
what lies below the floor, if the frame and the addresses in it lie above it. -/
def FrameSpared (floor : Nat) (callee : List Word → Run (List Word)) (s : Lowered) (w₀ : World)
    (receiver : Word) (witness : Option (Word × Word)) : Prop :=
  ∀ (w : World) (frame : Word) (parts : Parts Word) (low : Nat), Spares floor w₀ w →
    parts.receiver = receiver → parts.witness = witness →
    FrameAbove s floor low frame parts w → Spared floor (callee [frame]) w Anything

/-- A callee that spares what lies below the floor when it is called with its
signature. -/
structure CallSpared (floor : Nat) (callee : List Word → Run (List Word)) (s : Lowered)
    (w₀ : World) (receiver : Word) (witness : Option (Word × Word)) : Prop where
  flat : s.convention.isAsync = false → FlatSpared floor callee s w₀ receiver witness
  frame : s.convention.isAsync = true → FrameSpared floor callee s w₀ receiver witness

theorem CallSpared.of_all
    (h : ∀ w args, Spares floor w₀ w → Spared floor (callee args) w Anything) :
    CallSpared floor callee s w₀ receiver witness where
  flat _ w parts hs _ _ _ _ _ := h w parts.toList hs
  frame _ w frame _ _ hs _ _ _ := h w [frame] hs

/-- Two callees that do the same. -/
theorem CallSpared.congr {callee' : List Word → Run (List Word)}
    (h : CallSpared floor callee s w₀ receiver witness)
    (heq : ∀ w args, Spares floor w₀ w → callee' args w = callee args w) :
    CallSpared floor callee' s w₀ receiver witness where
  flat hs w parts hw hfits hr hwit habove haddr := by
    have := h.flat hs w parts hw hfits hr hwit habove haddr
    rwa [Spared, Step.Ends, ← heq w _ hw] at this
  frame hs w frame parts low hw hr hwit hframe := by
    have := h.frame hs w frame parts low hw hr hwit hframe
    rwa [Spared, Step.Ends, ← heq w _ hw] at this

/-! ### Implementations -/

theorem flatSpared_invokeNative {i : Implementation} (hframe : i.signature.frame = none) :
    FlatSpared floor (invokeNative i) i.signature w₀ receiver witness := by
  intro w parts _ hparts _ _ habove haddresses
  rw [invokeNative]
  refine spared_ite (fun _ => ?_) fun _ => spared_fail _
  rw [hframe]
  simp only
  rw [invokeFlat, decodeFlat_toList hparts]
  refine Spared.bind (Q := fun r _ => r.2.errorSlot = parts.errorSlot ∧
    r.2.indirectReturn = parts.indirectReturn) ?_ fun r w₁ _ hr => ?_
  · rw [Spared, Step.ends_map]
    exact Step.Ends.imp (spared_decodeAll 0 haddresses) (fun _ _ h => ⟨h.1, rfl, rfl⟩)
      fun _ _ h => h
  · refine (spared_runBody i r.2 (hr.1 ▸ habove.slot) (hr.2 ▸ habove.place)).bind fun _ w₂ _ _ => ?_
    refine (spared_attempt _).bind fun _ _ _ _ => ?_
    exact spared_ite (fun _ => spared_pure trivial) fun _ => spared_fail _

theorem spared_storeResult (hframe : floor ≤ frame.toNat) (f : Frame) (answer : Answer) :
    Spared floor (storeResult f frame answer) w Anything := by
  unfold storeResult
  split
  · refine spared_ite (fun _ => ?_) fun _ => spared_fail _
    refine (spared_liftM (Q := fun a _ => floor ≤ a.toNat) fun _ ha =>
      Nat.le_trans hframe (le_of_addWord ha)).bind fun _ _ _ ha => ?_
    exact (spared_writeWords ha).bind fun _ _ _ _ => spared_pure trivial
  · exact spared_pure trivial

theorem frameSpared_invokeNative {i : Implementation}
    (hframe : i.signature.frame = some i.signature.frameLayout) (hw₀ : Firm floor w₀) :
    FrameSpared floor (invokeNative i) i.signature w₀ receiver witness := by
  intro w frame parts low hs _ _ habove
  rw [invokeNative]
  refine spared_ite (fun _ => ?_) fun _ => spared_fail _
  rw [hframe]
  simp only [List.headD_cons]
  rw [invokeAsync_eq]
  refine ((spared_decodeFrame habove (hs.firm hw₀).sound).mono habove.floor_le_low).bind
    fun inc w₁ _ hinc => ?_
  refine (spared_runBody i inc (hinc.1 ▸ habove.above.slot) (hinc.2 ▸ habove.above.place)).bind
    fun _ _ _ _ => ?_
  exact spared_storeResult habove.floor_le _ _

/-- An implementation that is called with its own signature stores its answer where its
caller made room for it. -/
theorem callSpared_invokeNative {i : Implementation} (hs : i.signature.Sound)
    (hw₀ : Firm floor w₀) :
    CallSpared floor (invokeNative i) i.signature w₀ receiver witness := by
  rcases hs.frame with ⟨hconv, hframe⟩ | ⟨hconv, hframe, -⟩
  · exact ⟨fun _ => flatSpared_invokeNative hframe, fun h => by rw [hconv] at h; cases h⟩
  · exact ⟨fun h => (by rw [hconv] at h; cases h), fun _ => frameSpared_invokeNative hframe hw₀⟩

/-! ### Thunks -/

section Forwarding

variable {call : Caller} {p : Pool} {m : Method} {target : Target} {function : Word}

theorem flatSpared_forward (hw₀ : Firm floor w₀)
    (hcallee : ∀ w parts, Spares floor w₀ w → parts.Fits s →
      callee parts.toList w = Thunk.forwardFlat call p m target s parts w)
    (hload : ∀ w, Spares floor w₀ w → target.load p m receiver witness w = .ok function w)
    (hcall : FlatSpared floor (call function) s w₀ receiver witness) :
    FlatSpared floor callee s w₀ receiver witness := by
  intro w parts hs hparts hreceiver hwitness habove haddresses
  rw [Spared, Step.Ends, hcallee w parts hs hparts]
  refine (spared_decodeAll 0 haddresses).bind fun args w₁ hs₁ hlen => ?_
  have hload₁ := hload w₁ (hs.trans hs₁)
  rw [← hreceiver, ← hwitness] at hload₁
  refine .bind_ok hload₁ ?_
  refine (spared_flatArgs ((hs.trans hs₁).firm hw₀) hlen 0).bind fun native w₂ hs₂ hnative => ?_
  have hcalled : Spared floor (Thunk.callFor call s function (parts.withParams native.1).toList) w₂
      Anything := by
    refine (hcall w₂ (parts.withParams native.1) (hs.trans (hs₁.trans hs₂)) ?_ hreceiver hwitness
      ⟨habove.slot, habove.place⟩ hnative.2).bind fun _ _ _ _ => ?_
    · exact ⟨hparts.resume, hparts.indirect, hnative.1, hparts.bindings, hparts.error,
        hparts.witness⟩
    · exact spared_ite (fun _ => spared_pure trivial) fun _ => spared_fail _
  exact hcalled.bind fun _ _ _ _ => spared_attempt _

theorem spared_loadAll (base : Word) (count : Nat) :
    ∀ {w : World} (offset : Nat), Spared floor (loadAll base offset count) w Anything := by
  induction count with
  | zero => exact fun _ => spared_pure trivial
  | succ count ih =>
    intro w offset
    refine Spared.bind (Q := Anything) ?_ fun _ _ _ _ =>
      (ih _).bind fun _ _ _ _ => spared_pure trivial
    exact (spared_attempt _).bind fun _ _ _ _ => spared_peek _

/-- The frame that a thunk makes for the call that it forwards. -/
theorem spared_ownFrame {args : List ArgValue} (hw : Firm floor w)
    (hc : ∀ c ∈ s.carriers, c.Sound)
    (hparts : parts.Rest s) (hshaped : Shaped s.carriers args) (habove : parts.Above floor) :
    Spared floor (do
        let own ← withMemory (Memory.alloc s.frameLayout.size)
        fillFrame s own parts args
        return own) w fun own w' => ∃ encoded low,
          FrameAbove s floor low own (parts.withParams encoded) w' := by
  refine (spared_alloc hw).bind fun own w₁ hs₁ h₁ => ?_
  obtain ⟨rfl, hfloor, rfl, hroom⟩ := h₁
  rw [show s.frameLayout.size = 8 * s.frameEnd from rfl] at hroom
  have hnext := Memory.next_allocated hroom
  have hle := Memory.le_extent (8 * s.frameEnd)
  have hin := Parts.inFrame_allocated (s := s) hw.sound hroom
  have hgrown : w.memory.Evolves (fun _ => False) (w.memory.allocated s.frameLayout.size) :=
    Memory.evolves_allocated hroom
  have hbelow : w.memory.next.toNat + 8 * s.frameEnd
      ≤ (w.memory.allocated (8 * s.frameEnd)).next.toNat := by omega
  refine ((spared_fillFrame (hs₁.firm hw) hfloor s parts args).and
    (ends_fillFrame hc hshaped hparts (hgrown.sound hw.sound) hin hbelow)).bind
    fun _ w₂ _ h₂ => spared_pure ?_
  obtain ⟨-, m₂, encoded, spilled, rfl, -, hin₂, hcarried⟩ := h₂
  refine ⟨encoded, (w.memory.allocated (8 * s.frameEnd)).next.toNat, ⟨_, hin₂⟩, hfloor, hbelow,
    UInt64.toNat_lt _, ⟨habove.slot, habove.place⟩, hcarried.addressesAbove⟩

theorem spared_callFrame {own : Word}
    (hcalled : Spared floor (call function [own]) (suspended w) Anything) :
    Spared floor (Thunk.callFrame call function own) w Anything := by
  have hsuspended : Spares floor w (suspended w) :=
    Steady.spares ⟨rfl, rfl, rfl, rfl, rfl, rfl⟩ (.refl _ _)
  refine Spared.bind (Q := fun _ w' => w' = suspended w) ⟨hsuspended, rfl⟩ fun _ w₁ _ hw₁ => ?_
  subst hw₁
  refine hcalled.bind fun _ _ _ _ => ?_
  exact spared_ite (fun _ => spared_pure trivial) fun _ => spared_fail _

theorem frameSpared_forward (hw₀ : Firm floor w₀) (hc : ∀ c ∈ s.carriers, c.Sound)
    (hcallee : ∀ w frame, Spares floor w₀ w →
      callee [frame] w = Thunk.forwardAsync call p m target s frame w)
    (hload : ∀ w, Spares floor w₀ w → target.load p m receiver witness w = .ok function w)
    (hcall : FrameSpared floor (call function) s w₀ receiver witness) :
    FrameSpared floor callee s w₀ receiver witness := by
  intro w frame parts low hs hreceiver hwitness habove
  rw [Spared, Step.Ends, hcallee w frame hs]
  refine (spared_checkFrame _ _).bind fun _ w₁ _ hw₁ => ?_
  subst hw₁
  refine ((spared_fetchFrame habove (hs.firm hw₀).sound).mono habove.floor_le_low).bind
    fun fetched w₂ hs₂ h₂ => ?_
  obtain ⟨args, hshaped⟩ : ∃ args, fetched = (parts.withParams [], args) ∧ Shaped s.carriers args :=
    ⟨fetched.2, Prod.ext h₂.1 rfl, h₂.2⟩
  obtain ⟨rfl, hshaped⟩ := hshaped
  have hload₂ := hload w₂ (hs.trans hs₂)
  rw [← hreceiver, ← hwitness] at hload₂
  refine .bind_ok hload₂ ?_
  obtain ⟨results, hin⟩ := habove.inFrame
  have hown := spared_ownFrame ((hs.trans hs₂).firm hw₀) hc (Parts.rest_withParams hin.fits)
    hshaped ⟨habove.above.slot, habove.above.place⟩
  have hrest : ∀ own w₃, Spares floor w₂ w₃ →
      (∃ encoded low, FrameAbove s floor low own ((parts.withParams []).withParams encoded) w₃) →
      Spared floor (do
        Thunk.callFrame call function own
        let results ← loadAll own (8 * s.resultsAt) s.resultScalars.length
        storeAll frame (8 * s.resultsAt) results
        return []) w₃ (Anything : List Word → World → Prop) := by
    rintro own w₃ hs₃ ⟨encoded, low', hframe₃⟩
    have hsuspended : Spares floor w₃ (suspended w₃) :=
      Steady.spares ⟨rfl, rfl, rfl, rfl, rfl, rfl⟩ (.refl _ _)
    refine (spared_callFrame (hcall (suspended w₃) own ((parts.withParams []).withParams encoded) low'
      (hs.trans (hs₂.trans (hs₃.trans hsuspended))) hreceiver hwitness ?_)).bind fun _ _ _ _ => ?_
    · exact ⟨hframe₃.inFrame, hframe₃.floor_le, hframe₃.below, hframe₃.low_lt, hframe₃.above,
        hframe₃.addresses⟩
    · refine (spared_loadAll _ _ _).bind fun _ _ _ _ => ?_
      exact (spared_storeAll habove.floor_le _ _).bind fun _ _ _ _ => spared_pure trivial
  have hdone := hown.bind hrest
  simp only [bind_assoc, pure_bind] at hdone
  exact hdone

/-- A thunk spares what its callee spares. -/
theorem callSpared_forward (hw₀ : Firm floor w₀) (hs : s.Sound)
    (hflat : s.convention.isAsync = false → ∀ w parts, Spares floor w₀ w → parts.Fits s →
      callee parts.toList w = Thunk.forwardFlat call p m target s parts w)
    (hasync : s.convention.isAsync = true → ∀ w frame, Spares floor w₀ w →
      callee [frame] w = Thunk.forwardAsync call p m target s frame w)
    (hload : ∀ w, Spares floor w₀ w → target.load p m receiver witness w = .ok function w)
    (hcall : CallSpared floor (call function) s w₀ receiver witness) :
    CallSpared floor callee s w₀ receiver witness := by
  rcases hs.frame with ⟨hconv, -⟩ | ⟨hconv, -⟩
  · exact ⟨fun _ => flatSpared_forward hw₀ (hflat hconv) hload (hcall.flat hconv),
      fun h => by rw [hconv] at h; cases h⟩
  · exact ⟨fun h => (by rw [hconv] at h; cases h), fun _ =>
      frameSpared_forward hw₀ hs.carriers (hasync hconv) hload (hcall.frame hconv)⟩

end Forwarding

/-! ### Calls from outside -/

theorem spared_allocIf (hw : Firm floor w) (present : Bool) (words : Nat) :
    Spared floor (allocIf present words) w fun a _ =>
      a.isSome = present ∧ ∀ b ∈ a, floor ≤ b.toNat := by
  unfold allocIf
  cases present with
  | false => exact spared_pure ⟨rfl, by simp⟩
  | true =>
    rw [if_pos rfl, Spared, Step.ends_map]
    exact Step.Ends.imp (spared_allocWords hw) (fun _ _ h => ⟨h.1, rfl, by simpa using h.2⟩)
      fun _ _ h => h

theorem spared_makeLanding (hw : Firm floor w) (s : Lowered) (count : Nat) :
    Spared floor (makeLanding s count) w fun r _ =>
      (r.1.isSome = s.throws ∧ ∀ a ∈ r.1, floor ≤ a.toNat) ∧
      r.2.isSome = s.hasIndirectReturn ∧ ∀ d ∈ r.2, floor ≤ d.toNat := by
  refine (spared_allocIf hw _ _).bind fun _ w₁ hs₁ h₁ => ?_
  exact (spared_allocIf (hs₁.firm hw) _ _).bind fun _ _ _ h₂ => spared_pure ⟨h₁, h₂⟩

variable {c : LogicalCall} {address : Word} {frameSize : Option Nat}
  {errorSlot indirectReturn : Option Word}

theorem spared_invokeFlatCall (hw : Firm floor w₀) (hs : Spares floor w₀ w)
    (hargs : c.args.length = s.carriers.length) (hbindings : c.bindings.length = s.bindingCount)
    (herror : errorSlot.isSome = s.throws) (hindirect : indirectReturn.isSome = s.hasIndirectReturn)
    (hslot : ∀ a ∈ errorSlot, floor ≤ a.toNat) (hplace : ∀ d ∈ indirectReturn, floor ≤ d.toNat)
    (hcall : FlatSpared floor (call address) s w₀ c.receiver
      (if s.witness then c.witness else none)) :
    Spared floor (invokeFlatCall address s c errorSlot indirectReturn) w Anything := by
  rw [invokeFlatCall_eq]
  refine (spared_allocIf (hs.firm hw) _ _).bind fun resume w₁ hs₁ hresume => ?_
  refine (spared_flatArgs ((hs.trans hs₁).firm hw) hargs 0).bind fun sent w₂ hs₂ hsent => ?_
  have hwitness : Spared floor (flatWitness s c) w₂ fun words w' => w' = w₂ ∧
      ∃ o : Option (Word × Word), o.isSome = s.witness ∧ words = Parts.witnessList o ∧
        o = if s.witness then c.witness else none := by
    unfold flatWitness
    cases hsw : s.witness with
    | false => exact spared_pure ⟨rfl, none, rfl, rfl, rfl⟩
    | true =>
      simp only [if_true]
      cases hcw : c.witness with
      | none => exact spared_fail _
      | some wt => exact spared_pure ⟨rfl, some wt, rfl, rfl, rfl⟩
  refine hwitness.bind fun words w₃ _ h₃ => ?_
  obtain ⟨rfl, o, hsome, rfl, ho⟩ := h₃
  refine (hcall w₃ ⟨resume, indirectReturn, sent.1, c.bindings, c.receiver, errorSlot, o⟩
    (hs.trans (hs₁.trans hs₂)) ⟨hresume.1, hindirect, hsent.1, hbindings, herror, hsome⟩ rfl ho
    ⟨hslot, hplace⟩ hsent.2).bind fun results _ _ _ => ?_
  rw [receiveFlat]
  refine spared_ite (fun _ => ?_) fun _ => spared_fail _
  exact (spared_attempt _).bind fun _ _ _ _ => spared_pure trivial

theorem spared_invokeAsyncCall (hw : Firm floor w₀) (hs : Spares floor w₀ w)
    (hsize : frameSize.getD s.frameLayout.size = s.frameLayout.size)
    (hargs : c.args.length = s.carriers.length) (hbindings : c.bindings.length = s.bindingCount)
    (herror : errorSlot.isSome = s.throws) (hindirect : indirectReturn.isSome = s.hasIndirectReturn)
    (hslot : ∀ a ∈ errorSlot, floor ≤ a.toNat) (hplace : ∀ d ∈ indirectReturn, floor ≤ d.toNat)
    (hcall : FrameSpared floor (call address) s w₀ c.receiver
      (if s.witness then c.witness else none)) :
    Spared floor (invokeAsyncCall address s s.frameLayout frameSize c errorSlot indirectReturn) w
      Anything := by
  rw [invokeAsyncCall_eq, hsize]
  have hw₁ := hs.firm hw
  refine (spared_alloc hw₁).bind fun frame w₁ hs₁ h₁ => ?_
  obtain ⟨rfl, hfloor, rfl, hroom⟩ := h₁
  rw [show s.frameLayout.size = 8 * s.frameEnd from rfl] at hroom
  have hnext := Memory.next_allocated hroom
  have hle := Memory.le_extent (8 * s.frameEnd)
  have hin := Parts.inFrame_allocated (s := s) hw₁.sound hroom
  have hfirm : Firm (w.memory.allocated (8 * s.frameEnd)).next.toNat
      (w.setMemory (w.memory.allocated s.frameLayout.size)) :=
    ⟨(hs₁.firm hw₁).linked, Nat.le_refl _⟩
  refine (spared_sentFrame hfirm (UInt64.toNat_lt _) hfloor hin (by omega) hargs hbindings herror
    hindirect hslot hplace).bind fun _ w₂ hs₂ h₂ => ?_
  obtain ⟨parts, hframe, hreceiver, hwitness⟩ := h₂
  refine (hcall w₂ _ parts _ (hs.trans (hs₁.trans hs₂)) hreceiver hwitness hframe).bind
    fun results w₃ _ _ => ?_
  rw [receiveFrame]
  refine spared_ite (fun _ => ?_) fun _ => spared_fail _
  refine Spared.bind (Q := Anything) ?_ fun _ _ _ _ => spared_pure trivial
  unfold frameValues
  split
  · exact (spared_attempt _).bind fun _ _ _ _ => spared_inMemory fun _ _ => trivial
  · exact spared_pure trivial

/-- A call from outside, whatever its arguments, spares what its callee spares. -/
theorem spared_invoke (hw : Firm floor w) (hs : s.Sound)
    (hsize : frameSize.getD s.frameLayout.size = s.frameLayout.size)
    (hcall : CallSpared floor (call address) s w c.receiver
      (if s.witness then c.witness else none)) :
    Spared floor (invoke address s frameSize c) w Anything := by
  by_cases hargs : c.args.length = s.carriers.length
  case neg =>
    rw [invoke, if_pos hargs]
    exact (spared_fail (Q := fun _ _ => False) _).bind fun _ _ _ h => h.elim
  by_cases hbindings : c.bindings.length = s.bindingCount
  case neg =>
    rw [invoke, if_neg (fun h => h hargs), if_pos hbindings]
    exact (spared_fail (Q := fun _ _ => False) _).bind fun _ _ _ h => h.elim
  rw [invoke_eq hargs hbindings]
  refine (spared_makeLanding hw s _).bind fun l w₁ hs₁ hl => ?_
  have hbody : Spared floor (invokeBody address s frameSize c l) w₁ Anything := by
    unfold invokeBody
    rcases hs.frame with ⟨hconv, hframe⟩ | ⟨hconv, hframe, -⟩
    · rw [hframe]
      exact spared_invokeFlatCall hw hs₁ hargs hbindings hl.1.1 hl.2.1 hl.1.2 hl.2.2
        (hcall.flat hconv)
    · rw [hframe]
      exact spared_invokeAsyncCall hw hs₁ hsize hargs hbindings hl.1.1 hl.2.1 hl.1.2 hl.2.2
        (hcall.frame hconv)
  refine hbody.bind fun returned w₂ _ _ => ?_
  rw [report]
  refine Spared.bind (Q := Anything) ?_ fun _ _ _ _ => spared_pure trivial
  rw [readResult_eq]
  refine Spared.bind (Q := Anything) ?_ fun _ _ _ _ =>
    spared_ite (fun _ => spared_pure trivial) fun _ => ?_
  · cases l.1 with
    | none => exact spared_pure trivial
    | some slot => exact spared_peek slot
  · cases l.2 with
    | none => exact spared_pure trivial
    | some d =>
      exact (spared_inMemory (Q := Anything) fun _ _ => trivial).bind fun _ _ _ _ =>
        spared_pure trivial

end World

end Dispatch
