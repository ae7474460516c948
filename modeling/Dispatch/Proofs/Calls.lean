import Dispatch.Proofs.Forwarding

/-!
# Calls from outside

A call from outside makes a landing, encodes the arguments and reads back the answer.
If the callee serves the call, the report is the one that the outcome of the body
determines: nothing of it depends on whether a thunk was in between.

## Main definitions

* `LogicalCall.WellShaped` — a call that fits a signature.
* `LogicalCall.invocation` — what the implementation sees of a call.
* `Lowered.resultOf` — the result that a caller sees of an outcome.
* `World.Reported` — what is true after a call that was served.

## Main results

* `World.ends_invoke` — a call of a callee that serves it.
-/

namespace Dispatch

open Attempt

/-! ### What a call means -/

/-- A call that fits a signature: one argument of the right shape for each parameter,
one word for each generic binding, a witness if one is asked for, and a place for the
result whose size is one. -/
structure LogicalCall.WellShaped (s : Lowered) (c : LogicalCall) : Prop where
  args : Shaped s.carriers c.args
  bindings : c.bindings.length = s.bindingCount
  witness : s.witness = true → c.witness.isSome = true
  place : 8 * World.resultWords s c < Size.limit

instance (s : Lowered) (c : LogicalCall) : Decidable (c.WellShaped s) :=
  decidable_of_iff (Shaped s.carriers c.args ∧ c.bindings.length = s.bindingCount ∧
      (s.witness = true → c.witness.isSome = true) ∧ 8 * World.resultWords s c < Size.limit)
    ⟨fun h => ⟨h.1, h.2.1, h.2.2.1, h.2.2.2⟩, fun h => ⟨h.args, h.bindings, h.witness, h.place⟩⟩

/-- What the implementation sees of a call.  Arguments in registers lose the bits that
their components do not have; a witness is passed only where one is asked for. -/
def LogicalCall.invocation (s : Lowered) (c : LogicalCall) : Invocation where
  receiver := c.receiver
  args := if s.convention.isAsync then c.args else clipAll s.carriers c.args
  bindings := c.bindings
  witness := if s.witness then c.witness else none

/-- The result that a caller sees: the components, as many bits of them as registers
hold, or the error.  An error word of zero looks like an answer of zeros. -/
def Lowered.resultOf (s : Lowered) (count : Nat) : Outcome → Except Word (List Word)
  | .ok words =>
    .ok (if s.hasIndirectReturn || s.convention.isAsync then words
      else Scalar.clip s.resultScalars words)
  | .error e =>
    if e = 0 then
      .ok (List.replicate (if s.hasIndirectReturn then count else s.resultScalars.length) 0)
    else .error e

/-- The words that are spilled for a parameter. -/
def Passing.spillCount : Passing → Nat
  | .direct _ => 0
  | .indirect schema => schema.components.length
  | .address => 0

/-- The words that are spilled for all parameters. -/
def Lowered.spillCount (s : Lowered) : Nat :=
  (s.carriers.map fun c => c.passing.spillCount).sum

theorem Carries.length_spilled {direct : Schema → List Word → List Word → Prop} {m : Memory}
    {low high : Nat} {passing : Passing} {arg : ArgValue} {encoded spilled : List Word}
    (h : Carries direct m low high passing arg encoded spilled) :
    spilled.length = passing.spillCount := by
  unfold Carries at h
  split at h
  · rw [h.2]
    rfl
  · obtain ⟨hlen, a, -, -, -, -, rfl⟩ := h
    rw [spillWords, List.length_map, List.length_range, hlen]
    rfl
  · rw [h.2]
    rfl
  · exact h.elim

theorem Carried.length_spilled {direct : Schema → List Word → List Word → Prop} {m : Memory}
    {low high : Nat} {carriers : List Carrier} {args : List ArgValue} {encoded spilled : List Word}
    (h : Carried direct m low high carriers args encoded spilled) :
    spilled.length = (carriers.map fun c => c.passing.spillCount).sum := by
  induction carriers generalizing low args encoded spilled with
  | nil =>
    cases args with
    | nil =>
      rw [h.2.2]
      rfl
    | cons arg args => exact h.elim
  | cons c cs ih =>
    cases args with
    | nil => exact h.elim
    | cons arg args =>
      obtain ⟨_, _, _, _, _, -, -, rfl, hfirst, hrest⟩ := h
      rw [List.length_append, hfirst.length_spilled, ih hrest, List.map_cons, List.sum_cons]

namespace World

variable {w w₀ : World} {s : Lowered} {c : LogicalCall} {o : Outcome} {count : Nat}

/-! ### The steps of a call -/

/-- Call with flat arguments or through a frame, as the signature says. -/
def invokeBody (callee : Word) (s : Lowered) (frameSize : Option Nat) (c : LogicalCall)
    (landing : Option Word × Option Word) : Run Returned :=
  match s.frame with
  | some f => invokeAsyncCall callee s f frameSize c landing.1 landing.2
  | none => invokeFlatCall callee s c landing.1 landing.2

/-- Make the landing of a call. -/
def makeLanding (s : Lowered) (count : Nat) : Run (Option Word × Option Word) := do
  let errorSlot ← allocIf s.throws 1
  let indirectReturn ← allocIf s.hasIndirectReturn count
  return (errorSlot, indirectReturn)

/-- What a caller reports of a call, from the landing and what was returned. -/
def report (s : Lowered) (c : LogicalCall) (landing : Option Word × Option Word)
    (returned : Returned) : Run Report := do
  let result ← readResult landing.1 landing.2 (resultWords s c) returned.values
  return {
    result, errorSlot := landing.1, indirectReturn := landing.2
    continuation := returned.continuation
    resumeBuffer := returned.resumeBuffer
    frame := returned.frame
    spilled := returned.spilled }

theorem invoke_eq {callee : Word} {s : Lowered} {frameSize : Option Nat} {c : LogicalCall}
    (hargs : c.args.length = s.carriers.length) (hbindings : c.bindings.length = s.bindingCount) :
    invoke callee s frameSize c = (do
      let l ← makeLanding s (resultWords s c)
      let returned ← invokeBody callee s frameSize c l
      report s c l returned) := by
  unfold invoke makeLanding invokeBody report
  rw [if_neg (by simp [hargs]), if_neg (by simp [hbindings])]
  cases s.frame with
  | none => simp only [bind_assoc, pure_bind]
  | some f => simp only [bind_assoc, pure_bind]

/-- The components in the native results of a call. -/
def flatValues (s : Lowered) (direct : List Word) : Attempt (List Word) :=
  match s.result.passing with
  | .direct schema => schema.decode direct 0
  | .indirect _ => .ok []
  | .address => .ok []

/-- What a caller makes of the native results of a call with flat arguments. -/
def receiveFlat (s : Lowered) (resumeBuffer : Option Word) (spilled results : List Word) :
    Run Returned :=
  if results.length = s.results.length then do
    let values ← flatValues s (popIf s.convention.isCoroutine results).2
    return { values, continuation := (popIf s.convention.isCoroutine results).1,
             resumeBuffer, spilled }
  else fail (.arity "native results" s.results.length results.length)

theorem invokeFlatCall_eq (callee : Word) (s : Lowered) (c : LogicalCall)
    (errorSlot indirectReturn : Option Word) :
    invokeFlatCall callee s c errorSlot indirectReturn = (do
      let resumeBuffer ← allocIf s.convention.isCoroutine resumeBufferWords
      let sent ← flatArgs 0 (s.carriers.zip c.args)
      let witness ← flatWitness s c
      let results ← call callee (resumeBuffer.toList ++ indirectReturn.toList ++ sent.1
        ++ c.bindings ++ [c.receiver] ++ errorSlot.toList ++ witness)
      receiveFlat s resumeBuffer sent.2 results) := by
  unfold invokeFlatCall allocIf receiveFlat flatValues
  cases s.convention.isCoroutine <;> cases s.result.passing <;>
  · simp only [if_true, ite_not, Bool.false_eq_true, if_false]
    refine bind_congr fun resume => bind_congr fun sent => bind_congr fun witness =>
      bind_congr fun results => ?_
    split <;> rfl

/-- The words of a result in a frame. -/
def frameValues (f : Frame) (frame : Word) (indirectReturn : Option Word) : Run (List Word) :=
  match f.results, indirectReturn with
  | some (.inline offset components), none => do
    let base ← addWord frame (UInt64.ofNat offset)
    inMemory fun m => m.readWords base components.length
  | _, _ => return []

/-- What a caller makes of the answer to a call through a frame. -/
def receiveFrame (f : Frame) (frame : Word) (indirectReturn : Option Word)
    (spilled results : List Word) : Run Returned :=
  if results.isEmpty then do
    let values ← frameValues f frame indirectReturn
    return { values, frame := some frame, spilled }
  else fail (.arity "async native results" 0 results.length)

theorem invokeAsyncCall_eq (callee : Word) (s : Lowered) (f : Frame) (frameSize : Option Nat)
    (c : LogicalCall) (errorSlot indirectReturn : Option Word) :
    invokeAsyncCall callee s f frameSize c errorSlot indirectReturn = (do
      let frame ← withMemory (Memory.alloc (frameSize.getD f.size))
      let spilled ← (do
        writeField frame f.errorSlot errorSlot
        writeField frame f.indirectReturn indirectReturn
        let spilled ← frameArgs frame 0 (f.args.zip (s.carriers.zip c.args))
        withMemory (Memory.writeWords (← addWord frame (UInt64.ofNat f.bindings)) c.bindings)
        write (← addWord frame (UInt64.ofNat f.localContext)) c.receiver
        frameWitness f frame c
        return spilled)
      let results ← call callee [frame]
      receiveFrame f frame indirectReturn spilled results) := by
  unfold invokeAsyncCall receiveFrame frameValues
  simp only [bind_assoc, pure_bind]
  refine bind_congr fun frame => bind_congr fun _ => bind_congr fun _ => bind_congr fun spilled =>
    bind_congr fun _ => bind_congr fun _ => bind_congr fun _ => bind_congr fun _ =>
    bind_congr fun _ => bind_congr fun results => ?_
  cases results.isEmpty with
  | false => rfl
  | true =>
    simp only [Bool.not_true, Bool.false_eq_true, if_false, if_true]
    cases f.results with
    | none => rfl
    | some field =>
      cases field with
      | address offset => rfl
      | inline offset components =>
        cases indirectReturn with
        | none => simp only [bind_assoc]
        | some destination => rfl

/-! ### Before the call -/

/-- Room for words, if there is to be any. -/
theorem ends_allocIf {present : Bool} {words : Nat} (hsize : 8 * words < Size.limit)
    (hw : w.memory.Sound) :
    Step.Ends (allocIf present words) w (fun a w' => ∃ m', w' = w.setMemory m' ∧
      a.isSome = present ∧ w.memory.Evolves (fun _ => False) m' ∧
      ∀ b ∈ a, b = w.memory.next ∧ m'.Holds b 0 (List.replicate words 0) ∧
        b.toNat + 8 * words ≤ m'.next.toNat)
      fun _ w' => Exhausted w' := by
  cases present with
  | false => exact ⟨w.memory, rfl, rfl, .refl _ _, by simp⟩
  | true =>
    rw [allocIf, if_pos rfl, Step.ends_map]
    refine ends_allocWords hsize fun hroom => ?_
    have hev : w.memory.Evolves (fun _ => False) (w.memory.allocated (words * 8)) :=
      Memory.evolves_allocated hroom
    have hlt := (Memory.owns_allocated w.memory (words * 8)).lt_next (hev.sound hw)
    refine ⟨_, rfl, rfl, hev, ?_⟩
    rintro b hb
    cases hb
    exact ⟨rfl, Memory.holds_allocated hw (by omega) hroom, by omega⟩

/-- The landing of a call: the error slot, and above it the place for the result. -/
theorem ends_makeLanding (hplace : 8 * count < Size.limit) (hw : w.memory.Sound) :
    Step.Ends (makeLanding s count) w (fun r w' => ∃ m', w' = w.setMemory m' ∧
        r.1.isSome = s.throws ∧
        r.2.isSome = s.hasIndirectReturn ∧ w.memory.Evolves (fun _ => False) m' ∧
        Landing.Clear ⟨r.1, r.2, count⟩ m' w.memory.next.toNat m'.next.toNat)
      fun _ w' => Exhausted w' := by
  rw [makeLanding, Step.ends_bind]
  refine (ends_allocIf (by decide) hw).imp (fun slot w' h => ?_) fun _ _ h => h
  obtain ⟨m₁, rfl, hsome₁, hev₁, hslot⟩ := h
  have hs₁ := hev₁.sound hw
  have hnext₁ := hev₁.next
  rw [Step.ends_bind]
  refine (ends_allocIf hplace (w := w.setMemory m₁) hs₁).imp (fun place w' h => ?_) fun _ _ h => h
  obtain ⟨m₂, rfl, hsome₂, hev₂, hplace₂⟩ := h
  have hnext₂ := hev₂.next
  rw [memory_setMemory] at hnext₂ hev₂ hplace₂
  refine ⟨m₂, rfl, hsome₁, hsome₂, hev₁.trans hev₂, ?_, ?_, ?_⟩
  · intro a ha
    obtain ⟨rfl, hholds, hle⟩ := hslot a ha
    exact ⟨hev₂.holds hs₁ hholds fun _ _ h => h, Nat.le_refl _, by omega⟩
  · intro d hd
    obtain ⟨rfl, hholds, hle⟩ := hplace₂ d hd
    exact ⟨hholds, hnext₁, hle⟩
  · intro a ha d hd
    obtain ⟨rfl, -, hle⟩ := hslot a ha
    obtain ⟨rfl, -, -⟩ := hplace₂ d hd
    exact hle

/-! ### After the call -/

/-- The error word of a call; zero if there is no slot for one. -/
def readSlot : Option Word → Run Word
  | some slot => read slot
  | none => return 0

/-- The components of a call that did not fail. -/
def readPlace (indirectReturn : Option Word) (words : Nat) (values : List Word) :
    Run (Except Word (List Word)) :=
  match indirectReturn with
  | some destination => do
    return .ok (← inMemory fun m => m.readWords destination words)
  | none => return .ok values

theorem readResult_eq (errorSlot indirectReturn : Option Word) (words : Nat) (values : List Word) :
    readResult errorSlot indirectReturn words values = (do
      let error ← readSlot errorSlot
      if error ≠ 0 then return .error error
      else readPlace indirectReturn words values) := by
  cases errorSlot <;> rfl

/-- Reading the outcome back from the landing. -/
theorem readResult_ok {l : Landing} {values : List Word} (hgot : l.Got o w.memory)
    (herror : l.errorSlot.isSome = s.throws)
    (hindirect : l.indirectReturn.isSome = s.hasIndirectReturn) (ho : o.Suits s l.words)
    (hvalues : s.hasIndirectReturn = false → values =
      if s.convention.isAsync then o.stored s.resultScalars.length
      else Scalar.clip s.resultScalars (o.stored s.resultScalars.length)) :
    readResult l.errorSlot l.indirectReturn l.words values w = .ok (s.resultOf l.words o) w := by
  have hslot : readSlot l.errorSlot w = .ok o.errorWord w := by
    cases hl : l.errorSlot with
    | none =>
      cases o with
      | ok words => rfl
      | error e =>
        rw [hl, show s.throws = true from ho] at herror
        cases herror
    | some slot =>
      have hread := (hgot.slot slot hl).read
      rw [Nat.mul_zero, Word.plus_zero] at hread
      exact read_ok hread
  have hanswer : readPlace l.indirectReturn l.words values w
      = .ok (.ok (if s.hasIndirectReturn then o.stored l.words else values)) w := by
    rw [← hindirect]
    cases hl : l.indirectReturn with
    | none => rfl
    | some d =>
      have hread : inMemory (fun m => m.readWords d l.words) w = .ok (o.stored l.words) w := by
        refine inMemory_ok ((hgot.place d hl).readWords (ho.length_stored ?_))
        rw [← hindirect, hl]
        rfl
      rw [readPlace, Step.bind_of_ok hread]
      rfl
  rw [readResult_eq, Step.bind_of_ok hslot]
  cases o with
  | ok words =>
    rw [Outcome.errorWord, if_neg (by simp), hanswer]
    unfold Lowered.resultOf
    cases hi : s.hasIndirectReturn with
    | true => rfl
    | false =>
      rw [hvalues hi]
      cases s.convention.isAsync <;> rfl
  | error e =>
    rw [Lowered.resultOf]
    by_cases he : e = 0
    · subst he
      rw [Outcome.errorWord, if_neg (by simp), hanswer, if_pos rfl]
      cases hi : s.hasIndirectReturn with
      | true => rfl
      | false =>
        rw [hvalues hi]
        simp only [Bool.false_eq_true, if_false, Outcome.stored]
        cases s.convention.isAsync with
        | true => rfl
        | false => simp only [Bool.false_eq_true, if_false, Scalar.clip_zeros]
    · rw [Outcome.errorWord, if_pos he, if_neg he]
      rfl

/-! ### Reports -/

/-- What is true after a call that was served: the implementation ran once, on what the
caller sent, and the report and memory show its outcome. -/
structure Reported (w w' : World) (symbol : String) (s : Lowered) (c : LogicalCall) (o : Outcome)
    (hops : Nat) (r : Report) : Prop where
  result : r.result = s.resultOf (resultWords s c) o
  log : w'.machine.log = w.machine.log ++ [(symbol, c.invocation s)]
  suspensions : w'.machine.suspensions = w.machine.suspensions + hops
  /-- What was in memory before the call is still there. -/
  kept : w.memory.Evolves (fun _ => False) w'.memory
  /-- There is an error slot exactly if the method throws, and it reads the error. -/
  hasSlot : r.errorSlot.isSome = s.throws
  slot : ∀ a ∈ r.errorSlot, w'.memory.read a = .ok o.errorWord
  /-- There is a place for the result exactly if it is passed by address, and it holds
  the result, or zeros after an error. -/
  hasPlace : r.indirectReturn.isSome = s.hasIndirectReturn
  place : ∀ d ∈ r.indirectReturn,
    w'.memory.readWords d (resultWords s c) = .ok (o.stored (resultWords s c))
  /-- A coroutine hands back the buffer that it was given. -/
  hasBuffer : r.resumeBuffer.isSome = s.convention.isCoroutine
  continuation : r.continuation = r.resumeBuffer
  hasFrame : r.frame.isSome = s.convention.isAsync
  frame : ∀ a ∈ r.frame, w'.memory.regionSize? a = some s.frameLayout.size
  spilled : r.spilled.length = s.spillCount
  drained : r.spillsDrained w'.memory = true

/-- The native results of a call give back its components. -/
theorem flatValues_eq (hr : s.result.Sound) (ho : o.Suits s count) :
    ∃ values, flatValues s (s.packResult o) = .ok values ∧
      (s.hasIndirectReturn = false →
        values = Scalar.clip s.resultScalars (o.stored s.resultScalars.length)) := by
  unfold flatValues Lowered.hasIndirectReturn Lowered.resultScalars
  cases hp : s.result.passing with
  | indirect schema => exact ⟨[], rfl, by simp [Passing.byAddress]⟩
  | address => exact ⟨[], rfl, by simp [Passing.byAddress]⟩
  | direct schema =>
    have hpacked := hr.packed schema hp
    simp only
    cases o with
    | ok words =>
      unfold Outcome.Suits Lowered.hasIndirectReturn Lowered.resultScalars at ho
      simp only [hp, Passing.byAddress, Bool.false_eq_true, if_false] at ho
      refine ⟨_, ?_, fun _ => rfl⟩
      rw [Lowered.packResult, hp]
      exact hpacked.decode_encode ho 0
    | error e =>
      refine ⟨_, ?_, fun _ => rfl⟩
      rw [Lowered.packResult, Lowered.resultKinds, hp]
      simp only
      rw [← schema.pack_zeros hpacked schema.components.length]
      exact hpacked.decode_encode List.length_replicate 0

/-- What is true of a call that was served, before its error slot is looked at. -/
structure Answered (w w' : World) (symbol : String) (s : Lowered) (c : LogicalCall) (o : Outcome)
    (hops : Nat) (l : Landing) (r : Returned) : Prop where
  log : w'.machine.log = w.machine.log ++ [(symbol, c.invocation s)]
  suspensions : w'.machine.suspensions = w.machine.suspensions + hops
  steady : Steady w w'
  evolves : w.memory.Evolves l.Covers w'.memory
  got : l.Got o w'.memory
  values : s.hasIndirectReturn = false → r.values =
    if s.convention.isAsync then o.stored s.resultScalars.length
    else Scalar.clip s.resultScalars (o.stored s.resultScalars.length)
  hasBuffer : r.resumeBuffer.isSome = s.convention.isCoroutine
  continuation : r.continuation = r.resumeBuffer
  hasFrame : r.frame.isSome = s.convention.isAsync
  frame : ∀ a ∈ r.frame, w'.memory.regionSize? a = some s.frameLayout.size
  spilled : r.spilled.length = s.spillCount
  drained : ∀ a ∈ r.spilled, w'.memory.isDrained a = true

variable {callee : Word} {symbol : String} {hops : Nat} {l : Landing} {frameSize : Option Nat}

theorem flatWitness_ok (hshape : c.WellShaped s) :
    flatWitness s c w = .ok (Parts.witnessList (if s.witness then c.witness else none)) w := by
  unfold flatWitness
  cases hwit : s.witness with
  | false => rfl
  | true =>
    obtain ⟨wt, hsome⟩ := Option.isSome_iff_exists.mp (hshape.witness hwit)
    rw [hsome]
    rfl

theorem isSome_witness (hshape : c.WellShaped s) :
    (if s.witness then c.witness else none).isSome = s.witness := by
  cases hwit : s.witness with
  | false => rfl
  | true => exact hshape.witness hwit

/-- What comes before a call with flat arguments: everything is in place for the callee. -/
theorem ends_invokeFlatCall_of_ready {Q : Returned → World → Prop} {E : Fault → World → Prop}
    (hs : s.convention.isAsync = false) (hc : ∀ c ∈ s.carriers, c.Sound) (hshape : c.WellShaped s)
    (hafter : After w₀ w) (hw : w.memory.Sound)
    (hclear : l.Clear w.memory w₀.memory.next.toNat w.memory.next.toNat)
    (herror : l.errorSlot.isSome = s.throws)
    (hindirect : l.indirectReturn.isSome = s.hasIndirectReturn)
    (hfull : ∀ fault w', Exhausted w' → E fault w')
    (hcall : ∀ (m : Memory) (parts : Parts Word) (low : Nat) (spilled : List Word),
      w.memory.Evolves (fun _ => False) m → w.memory.next.toNat ≤ low →
      parts.landing l.words = l → spilled.length = s.spillCount →
      (parts.incoming (c.invocation s).args).invocation = c.invocation s →
      FlatReady s m w₀.memory.next.toNat low m.next.toNat l.words parts (c.invocation s).args
        spilled →
      Step.Ends (call callee parts.toList >>= receiveFlat s parts.resumeBuffer spilled)
        (w.setMemory m) Q E) :
    Step.Ends (invokeFlatCall callee s c l.errorSlot l.indirectReturn) w Q E := by
  rw [invokeFlatCall_eq, Step.ends_bind]
  refine (ends_allocIf (by decide) hw).imp (fun resume w' h => ?_) hfull
  obtain ⟨m₁, rfl, hresume, hev₁, -⟩ := h
  have hs₁ := hev₁.sound hw
  rw [Step.ends_bind]
  refine (ends_flatArgs hc hshape.args (w := w.setMemory m₁) hs₁ 0).imp (fun sent w' h => ?_) hfull
  obtain ⟨m₂, rfl, hev₂, hcarried⟩ := h
  rw [memory_setMemory] at hev₂ hcarried
  have hev := hev₁.trans hev₂
  rw [Step.ends_bind]
  refine Step.ends_of_ok (flatWitness_ok hshape) ?_
  have hargs : (c.invocation s).args = clipAll s.carriers c.args := by
    rw [LogicalCall.invocation, hs]
    rfl
  -- what is sent are the parts of a flat call
  exact hcall m₂ ⟨resume, l.indirectReturn, sent.1, c.bindings, c.receiver, l.errorSlot,
    if s.witness then c.witness else none⟩ m₁.next.toNat sent.2 hev hev₁.next rfl
    hcarried.length_spilled rfl {
      sound := hev.sound hw
      fits := ⟨hresume, hindirect, hcarried.length_registers hc, hshape.bindings, herror,
        isSome_witness hshape⟩
      clear := (hclear.evolves hw hev fun _ _ h => h).mono hev₁.next
      floor_le := Nat.le_trans hafter.evolves.next hev₁.next
      carried := hargs ▸ hcarried
      high_le := Nat.le_refl _ }

/-- What comes after a call with flat arguments that was served. -/
theorem ends_receiveFlat {m : Memory} {parts : Parts Word} {low floor : Nat} {spilled : List Word}
    (hs : s.convention.isAsync = false) (hr : s.result.Sound) (ho : o.Suits s l.words)
    (hev : w.memory.Evolves (fun _ => False) m) (hlow : w.memory.next.toNat ≤ low)
    (hspilled : spilled.length = s.spillCount)
    (hready : FlatReady s m floor low m.next.toNat l.words parts (c.invocation s).args spilled)
    (hcall : Step.Ends (call callee parts.toList) (w.setMemory m) (fun results w' =>
      results = parts.resumeBuffer.toList ++ s.packResult o ∧
      w'.machine.suspensions = w.machine.suspensions ∧
      Served (w.setMemory m) w' symbol (c.invocation s) o l low (fun _ => False) spilled)
      fun _ w' => Exhausted w') :
    Step.Ends (call callee parts.toList >>= receiveFlat s parts.resumeBuffer spilled)
      (w.setMemory m) (fun r w' => Answered w w' symbol s c o 0 l r) fun _ w' => Exhausted w' := by
  have hresume := hready.fits.resume
  rw [Step.ends_bind]
  refine hcall.imp (fun results w₃ h => ?_) fun _ _ h => h
  obtain ⟨hresults, hsusp, hserved⟩ := h
  have hlen : results.length = s.results.length := by
    rw [hresults, List.length_append, Lowered.length_packResult hr]
    exact (Lowered.length_results hs hresume).symm
  obtain ⟨values, hvalues, hclip⟩ := flatValues_eq hr ho
  have hpop : popIf s.convention.isCoroutine results = (parts.resumeBuffer, s.packResult o) := by
    rw [hresults]
    exact popIf_toList hresume _
  rw [receiveFlat, if_pos hlen, hpop]
  simp only
  rw [hvalues, Step.ends_bind, Step.ends_liftM_ok, Step.ends_pure]
  exact {
    log := hserved.log
    suspensions := hsusp
    steady := (steady_setMemory w m).trans hserved.steady
    evolves := by
      refine (hev.mono fun n _ h => h.elim).then hserved.evolves ?_
      rintro n hn (h | h | h)
      · exact h
      · exact h.elim
      · omega
    got := hserved.got
    values := fun hi => by
      rw [hs]
      exact hclip hi
    hasBuffer := hresume
    continuation := rfl
    hasFrame := hs.symm
    frame := by simp
    spilled := hspilled
    drained := hserved.drained }

/-- A call with flat arguments of a callee that serves it. -/
theorem ends_invokeFlatCall (hs : s.convention.isAsync = false) (hc : ∀ c ∈ s.carriers, c.Sound)
    (hr : s.result.Sound) (hshape : c.WellShaped s) (ho : o.Suits s l.words)
    (hcall : FlatServes (call callee) s w₀ symbol (c.invocation s) o l.words)
    (hafter : After w₀ w) (hw : w.memory.Sound)
    (hclear : l.Clear w.memory w₀.memory.next.toNat w.memory.next.toNat)
    (herror : l.errorSlot.isSome = s.throws)
    (hindirect : l.indirectReturn.isSome = s.hasIndirectReturn) :
    Step.Ends (invokeFlatCall callee s c l.errorSlot l.indirectReturn) w
      (fun r w' => Answered w w' symbol s c o 0 l r) fun _ w' => Exhausted w' :=
  ends_invokeFlatCall_of_ready hs hc hshape hafter hw hclear herror hindirect (fun _ _ h => h)
    fun m parts _ _ hev hlow hlanding hspilled hinv hready =>
      ends_receiveFlat hs hr ho hev hlow hspilled hready
        (hlanding ▸ hcall (w.setMemory m) parts _ _ _
          (hafter.then (steady_setMemory w m) hev fun _ _ h => h) hinv hready)

/-! ### Calls through a frame -/

theorem writeWords_eq {base : Word} {start : Nat} {words : List Word}
    (h : base.toNat + 8 * start < 2 ^ 64) (h' : base.toNat + 8 * (start + words.length) ≤ 2 ^ 64) :
    (do withMemory (Memory.writeWords (← addWord base (UInt64.ofNat (8 * start))) words) : Run Unit)
      = storeAll base (8 * start) words := by
  rw [addWord_ofNat h, storeAll_eq _ _ _ (by omega), ← Memory.writeWords_plus h']
  rfl

/-- The caller stores arguments of the right shapes the way a thunk does. -/
theorem frameArgs_eq {frame : Word} {carriers : List Carrier} {args : List ArgValue}
    (hshaped : Shaped carriers args) {start : Nat}
    (hroom : frame.toNat + 8 * (start + frameWords carriers) < 2 ^ 64) (index : Nat) :
    frameArgs frame index ((frameFields start carriers).zip (carriers.zip args))
      = fillParams frame start (carriers.zip args) := by
  induction carriers generalizing args start index with
  | nil =>
    cases args with
    | nil => rfl
    | cons arg args => exact hshaped.elim
  | cons c cs ih =>
    cases args with
    | nil => exact hshaped.elim
    | cons arg args =>
      rw [frameWords_cons] at hroom
      have hone : frameArg frame index (FrameField.ofPassing start c.passing) c.passing arg
          = fillParam frame start arg c.passing := by
        have hfits := hshaped.1
        cases hp : c.passing with
        | direct schema =>
          rw [hp] at hfits hroom
          cases arg with
          | address a => exact hfits.elim
          | value words =>
            have hlen : words.length = schema.components.length := hfits
            simp only [frameArg, FrameField.ofPassing, hlen, if_true, fillParam]
            rw [Passing.frameWords] at hroom
            rw [← writeWords_eq (by omega) (by rw [ArgValue.words]; omega), bind_assoc]
            rfl
        | indirect schema =>
          rw [hp] at hfits
          cases arg with
          | address a => exact hfits.elim
          | value words =>
            simp only [frameArg, FrameField.ofPassing, fillParam, storeAt, bind_assoc]
            rfl
        | address =>
          rw [hp] at hfits
          cases arg with
          | value words => exact hfits.elim
          | address a =>
            simp only [frameArg, FrameField.ofPassing, fillParam, storeAt, bind_assoc]
            rfl
      have hrest : frameArgs frame (index + 1)
          ((frameFields (start + c.passing.frameWords) cs).zip (cs.zip args))
          = fillParams frame (start + c.passing.frameWords) (cs.zip args) :=
        ih hshaped.2 (by omega) (index + 1)
      rw [frameFields, List.zip_cons_cons, List.zip_cons_cons, frameArgs, fillParams, hone, hrest]

/-- Filling a frame the way a caller does. -/
def sendFrame (s : Lowered) (frame : Word) (parts : Parts Word) (args : List ArgValue) :
    Run (List Word) := do
  (do
    writeField frame s.frameLayout.errorSlot parts.errorSlot
    writeField frame s.frameLayout.indirectReturn parts.indirectReturn)
  let spilled ← fillParams frame s.paramsAt (s.carriers.zip args)
  (do
    storeAll frame (8 * s.bindingsAt) parts.bindings
    storeAt frame (8 * s.receiverAt) parts.receiver
    writeField frame s.frameLayout.selfMetadata (parts.witness.map (·.1))
    writeField frame s.frameLayout.selfWitnessTable (parts.witness.map (·.2)))
  return spilled

theorem ends_sendFrame {frame : Word} {parts old : Parts Word} {args : List ArgValue}
    {results : List Word} (hc : ∀ c ∈ s.carriers, c.Sound) (hshaped : Shaped s.carriers args)
    (hparts : parts.Rest s) (hw : w.memory.Sound) (h : old.InFrame s w.memory frame results)
    (hbelow : frame.toNat + 8 * s.frameEnd ≤ w.memory.next.toNat) :
    Step.Ends (sendFrame s frame parts args) w (fun spilled w' => ∃ m' encoded,
      w' = w.setMemory m' ∧ w.memory.Evolves (Memory.Within frame 0 s.frameEnd) m' ∧
      (parts.withParams encoded).InFrame s m' frame results ∧
      Carried Schema.InFrame m' w.memory.next.toNat m'.next.toNat s.carriers args encoded spilled)
      fun _ w' => Exhausted w' := by
  obtain ⟨m₁, hrun₁, hev₁, hin₁, hnext₁⟩ := (fills_error hw h hparts.error).bind
    fun m' h' hs' => fills_indirect (w := w.setMemory m') (hs' hw) h' hparts.indirect
  have hs₁ := hev₁.sound hw
  rw [sendFrame, Step.ends_bind]
  refine Step.ends_of_ok hrun₁ ?_
  rw [Step.ends_bind]
  refine (ends_fillParams_inFrame (w := w.setMemory m₁) hc hshaped hs₁ hin₁
    (by rw [memory_setMemory, hnext₁]; exact hbelow)).imp (fun spilled w' hr => ?_) fun _ _ h => h
  obtain ⟨m₂, encoded, rfl, hev₂, hin₂, hcarried⟩ := hr
  have hs₂ := hev₂.sound hs₁
  obtain ⟨m₃, hrun₃, hev₃, hin₃, hnext₃⟩ :=
    (fills_bindings (w := (w.setMemory m₁).setMemory m₂) hs₂ hin₂ hparts.bindings).bind
    fun m' h' hs' => (fills_receiver (w := w.setMemory m') (hs' hs₂) h' parts.receiver).bind
    fun m'' h'' hs'' => fills_witness (w := w.setMemory m'') (hs'' (hs' hs₂)) h'' hparts.witness
  rw [Step.ends_bind]
  refine Step.ends_of_ok hrun₃ ⟨m₃, encoded, rfl, (hev₁.trans hev₂).trans hev₃, ?_, ?_⟩
  · rw [Parts.withParams, hparts.resume, ← h.fits.resume]
    exact hin₃
  · rw [memory_setMemory, hnext₁] at hcarried
    rw [hnext₃]
    refine hcarried.evolves hev₃ hs₂ ?_
    rintro n hn - ⟨-, hlt⟩
    omega

theorem frameWitness_eq {frame : Word} (hwitness : s.witness = true → c.witness.isSome = true) :
    frameWitness s.frameLayout frame c = (do
      writeField frame s.frameLayout.selfMetadata
        ((if s.witness then c.witness else none).map (·.1))
      writeField frame s.frameLayout.selfWitnessTable
        ((if s.witness then c.witness else none).map (·.2))) := by
  unfold frameWitness Lowered.frameLayout
  cases hwit : s.witness with
  | false => rfl
  | true =>
    obtain ⟨wt, hsome⟩ := Option.isSome_iff_exists.mp (hwitness hwit)
    rw [hsome]
    simp only [if_true, Option.map_some, writeField, bind_assoc]

/-- The parts that a caller sends in a frame. -/
def sentParts (s : Lowered) (c : LogicalCall) (l : Landing) : Parts Word :=
  ⟨none, l.indirectReturn, [], c.bindings, c.receiver, l.errorSlot,
    if s.witness then c.witness else none⟩

theorem invokeAsyncCall_layout (hshape : c.WellShaped s) (l : Landing) :
    invokeAsyncCall callee s s.frameLayout frameSize c l.errorSlot l.indirectReturn = (do
      let frame ← withMemory (Memory.alloc (frameSize.getD s.frameLayout.size))
      let spilled ← (do
        writeField frame s.frameLayout.errorSlot l.errorSlot
        writeField frame s.frameLayout.indirectReturn l.indirectReturn
        let spilled ← frameArgs frame 0 (s.frameLayout.args.zip (s.carriers.zip c.args))
        (do withMemory (Memory.writeWords (← addWord frame (UInt64.ofNat s.frameLayout.bindings))
          c.bindings))
        storeAt frame (8 * s.receiverAt) c.receiver
        writeField frame s.frameLayout.selfMetadata
          ((if s.witness then c.witness else none).map (·.1))
        writeField frame s.frameLayout.selfWitnessTable
          ((if s.witness then c.witness else none).map (·.2))
        return spilled)
      let results ← call callee [frame]
      receiveFrame s.frameLayout frame l.indirectReturn spilled results) := by
  rw [invokeAsyncCall_eq]
  simp only [frameWitness_eq hshape.witness, storeAt, bind_assoc]
  rfl

theorem sendFrame_eq (hshape : c.WellShaped s) (l : Landing) {frame : Word}
    (hroom : frame.toNat + 8 * s.frameEnd ≤ 2 ^ 64) :
    (do
        writeField frame s.frameLayout.errorSlot l.errorSlot
        writeField frame s.frameLayout.indirectReturn l.indirectReturn
        let spilled ← frameArgs frame 0 (s.frameLayout.args.zip (s.carriers.zip c.args))
        (do withMemory (Memory.writeWords (← addWord frame (UInt64.ofNat s.frameLayout.bindings))
          c.bindings))
        storeAt frame (8 * s.receiverAt) c.receiver
        writeField frame s.frameLayout.selfMetadata
          ((if s.witness then c.witness else none).map (·.1))
        writeField frame s.frameLayout.selfWitnessTable
          ((if s.witness then c.witness else none).map (·.2))
        return spilled)
      = sendFrame s frame (sentParts s c l) c.args := by
  have hbindings := hshape.bindings
  have hend : s.bindingsAt + s.bindingCount < s.frameEnd := by
    unfold Lowered.frameEnd Lowered.resultsAt Lowered.witnessAt Lowered.receiverAt
    omega
  have hparams : s.paramsAt + frameWords s.carriers = s.bindingsAt := rfl
  have hargs : frameArgs frame 0 (s.frameLayout.args.zip (s.carriers.zip c.args))
      = fillParams frame s.paramsAt (s.carriers.zip c.args) :=
    frameArgs_eq hshape.args (by omega) 0
  have hwords := @writeWords_eq frame s.bindingsAt c.bindings (by omega) (by omega)
  rw [hargs, show s.frameLayout.bindings = 8 * s.bindingsAt from rfl, hwords]
  simp only [sendFrame, sentParts, bind_assoc]

/-- Reading the result out of the frame. -/
theorem frameValues_ok {frame : Word} (ho : o.Suits s l.words)
    (hroom : frame.toNat + 8 * s.frameEnd ≤ 2 ^ 64)
    (hindirect : l.indirectReturn.isSome = s.hasIndirectReturn)
    (hholds : w.memory.Holds frame s.resultsAt (s.inlineResult o)) :
    ∃ values, frameValues s.frameLayout frame l.indirectReturn w = .ok values w ∧
      (s.hasIndirectReturn = false → values = o.stored s.resultScalars.length) := by
  have hend := length_inlineAt s
  unfold frameValues Lowered.frameLayout
  cases hi : l.indirectReturn with
  | some d =>
    rw [hi] at hindirect
    refine ⟨[], ?_, fun h => by rw [← hindirect] at h; cases h⟩
    simp only [Lowered.resultScalars_of_indirect hindirect.symm, List.isEmpty_nil, if_true]
    rfl
  | none =>
    rw [hi] at hindirect
    have hlen := Lowered.length_inlineResult ho
    rw [Lowered.inlineResult, ← hindirect] at hholds hlen
    simp only [Option.isSome_none, Bool.false_eq_true, if_false] at hholds hlen
    cases hz : s.resultScalars with
    | nil =>
      rw [hz] at hlen
      refine ⟨[], rfl, fun _ => (List.eq_nil_of_length_eq_zero hlen).symm⟩
    | cons kind kinds =>
      have hpos : 0 < s.resultScalars.length := by rw [hz]; exact Nat.succ_pos _
      refine ⟨o.stored s.resultScalars.length, ?_, fun _ => by rw [hz]⟩
      simp only [List.isEmpty_cons, Bool.false_eq_true, if_false]
      rw [addWord_index (by omega), Step.bind_of_ok Step.run_liftM_ok, ← hz]
      exact inMemory_ok (hholds.readWords_plus hlen)

/-- What comes before a call through a frame: everything is in place for the callee. -/
theorem ends_invokeAsyncCall_of_ready {Q : Returned → World → Prop} {E : Fault → World → Prop}
    (hs : s.convention.isAsync = true) (hc : ∀ c ∈ s.carriers, c.Sound)
    (hlimit : 8 * s.frameEnd < Size.limit) (hshape : c.WellShaped s)
    (hsize : frameSize.getD s.frameLayout.size = s.frameLayout.size)
    (hafter : After w₀ w) (hw : w.memory.Sound)
    (hclear : l.Clear w.memory w₀.memory.next.toNat w.memory.next.toNat)
    (herror : l.errorSlot.isSome = s.throws)
    (hindirect : l.indirectReturn.isSome = s.hasIndirectReturn)
    (hfull : ∀ fault w', Exhausted w' → E fault w')
    (hcall : ∀ (m : Memory) (frame : Word) (parts : Parts Word) (low : Nat) (spilled : List Word),
      w.memory.Evolves (fun _ => False) m → w.memory.next.toNat ≤ frame.toNat →
      m.Owns frame (8 * s.frameEnd) → parts.landing l.words = l → spilled.length = s.spillCount →
      (parts.incoming (c.invocation s).args).invocation = c.invocation s →
      FrameReady s m w₀.memory.next.toNat low m.next.toNat l.words frame parts
        (c.invocation s).args spilled (List.replicate s.resultScalars.length 0) →
      Step.Ends (call callee [frame] >>= receiveFrame s.frameLayout frame l.indirectReturn spilled)
        (w.setMemory m) Q E) :
    Step.Ends (invokeAsyncCall callee s s.frameLayout frameSize c l.errorSlot l.indirectReturn) w
      Q E := by
  rw [invokeAsyncCall_layout hshape, hsize, Step.ends_bind]
  refine Step.Ends.imp (ends_allocFrame hlimit hw fun m₁ hadded => ?_) (fun _ _ h => h) hfull
  have hin₁ := hadded.inFrame
  rw [sendFrame_eq hshape l hin₁.room, Step.ends_bind]
  refine (ends_sendFrame hc hshape.args
    ⟨rfl, rfl, hindirect, hshape.bindings, herror, isSome_witness hshape⟩
    (w := w.setMemory m₁) hadded.sound hin₁ hadded.below).imp (fun spilled w' h => ?_) hfull
  obtain ⟨m₂, encoded, rfl, hev₂, hin₂, hcarried⟩ := h
  have hargs : (c.invocation s).args = c.args := by
    rw [LogicalCall.invocation, hs]
    rfl
  rw [← hargs] at hcarried
  exact hcall m₂ w.memory.next ((sentParts s c l).withParams encoded) m₁.next.toNat spilled
    (hadded.evolves_filled hev₂) (Nat.le_refl _) (hev₂.owns hadded.owns) rfl
    hcarried.length_spilled rfl (hadded.ready hw hev₂ hin₂ hcarried hclear hafter.evolves.next)

/-- What comes after a call through a frame that was served. -/
theorem ends_receiveFrame {m : Memory} {frame : Word} {parts : Parts Word} {low floor : Nat}
    {spilled : List Word} (hs : s.convention.isAsync = true) (ho : o.Suits s l.words)
    (hindirect : l.indirectReturn.isSome = s.hasIndirectReturn)
    (hev : w.memory.Evolves (fun _ => False) m) (hframe : w.memory.next.toNat ≤ frame.toNat)
    (howns : m.Owns frame (8 * s.frameEnd)) (hspilled : spilled.length = s.spillCount)
    (hready : FrameReady s m floor low m.next.toNat l.words frame parts (c.invocation s).args spilled
      (List.replicate s.resultScalars.length 0))
    (hcall : Step.Ends (call callee [frame]) (w.setMemory m) (fun results w' =>
      results = [] ∧ w'.machine.suspensions = w.machine.suspensions + hops ∧
      w'.memory.Holds frame s.resultsAt (s.inlineResult o) ∧
      Served (w.setMemory m) w' symbol (c.invocation s) o l low
        (Memory.Within frame s.resultsAt s.resultScalars.length) spilled)
      fun _ w' => Exhausted w') :
    Step.Ends (call callee [frame] >>= receiveFrame s.frameLayout frame l.indirectReturn spilled)
      (w.setMemory m) (fun r w' => Answered w w' symbol s c o hops l r)
      fun _ w' => Exhausted w' := by
  have hcoroutine : s.convention.isCoroutine = false := by
    cases hconv : s.convention with
    | async => rfl
    | ordinary => rfl
    | yieldOnce =>
      rw [hconv] at hs
      cases hs
  have hbelow := hready.below
  rw [Step.ends_bind]
  refine hcall.imp (fun results w₃ h => ?_) fun _ _ h => h
  obtain ⟨rfl, hsusp, hinline, hserved⟩ := h
  have hs₃ := hserved.evolves.sound hready.sound
  obtain ⟨values, hvalues, hstored⟩ := frameValues_ok ho hready.inFrame.room hindirect hinline
  rw [receiveFrame, List.isEmpty_nil, if_pos rfl, Step.ends_bind]
  refine Step.ends_of_ok hvalues ?_
  exact {
    log := hserved.log
    suspensions := hsusp
    steady := (steady_setMemory w m).trans hserved.steady
    evolves := by
      refine (hev.mono fun n _ h => h.elim).then hserved.evolves ?_
      rintro n hn (h | ⟨h, -⟩ | h)
      · exact h
      · omega
      · omega
    got := hserved.got
    values := fun hi => by
      rw [hs]
      exact hstored hi
    hasBuffer := by rw [hcoroutine]; rfl
    continuation := rfl
    hasFrame := hs.symm
    frame := by
      intro a ha
      cases ha
      exact (hserved.evolves.owns howns).regionSize hs₃
    spilled := hspilled
    drained := hserved.drained }

/-- A call through a frame of a callee that serves it. -/
theorem ends_invokeAsyncCall (hs : s.convention.isAsync = true) (hc : ∀ c ∈ s.carriers, c.Sound)
    (hlimit : 8 * s.frameEnd < Size.limit) (hshape : c.WellShaped s) (ho : o.Suits s l.words)
    (hsize : frameSize.getD s.frameLayout.size = s.frameLayout.size)
    {left : List Word → List Word}
    (hcall : FrameServes (call callee) s w₀ symbol (c.invocation s) o l.words hops left)
    (hfresh : left (List.replicate s.resultScalars.length 0) = s.inlineResult o)
    (hafter : After w₀ w) (hw : w.memory.Sound)
    (hclear : l.Clear w.memory w₀.memory.next.toNat w.memory.next.toNat)
    (herror : l.errorSlot.isSome = s.throws)
    (hindirect : l.indirectReturn.isSome = s.hasIndirectReturn) :
    Step.Ends (invokeAsyncCall callee s s.frameLayout frameSize c l.errorSlot l.indirectReturn) w
      (fun r w' => Answered w w' symbol s c o hops l r) fun _ w' => Exhausted w' :=
  ends_invokeAsyncCall_of_ready hs hc hlimit hshape hsize hafter hw hclear herror hindirect
    (fun _ _ h => h) fun m frame parts _ _ hev hframe howns hlanding hspilled hinv hready =>
      ends_receiveFrame hs ho hindirect hev hframe howns hspilled hready
        (hfresh ▸ hlanding ▸ hcall (w.setMemory m) frame parts _ _ _ _
          (hafter.then (steady_setMemory w m) hev fun _ _ h => h) hinv hready)

/-! ### Calls -/

/-- What comes before a call: the landing is in place. -/
theorem ends_invoke_of_landing {Q : Report → World → Prop} {E : Fault → World → Prop}
    (hshape : c.WellShaped s) (hw : w.memory.Sound) (hfull : ∀ fault w', Exhausted w' → E fault w')
    (hbody : ∀ (m : Memory) (l : Landing), l.words = resultWords s c →
      w.memory.Evolves (fun _ => False) m → m.Sound →
      l.Clear m w.memory.next.toNat m.next.toNat → l.errorSlot.isSome = s.throws →
      l.indirectReturn.isSome = s.hasIndirectReturn →
      Step.Ends (invokeBody callee s frameSize c (l.errorSlot, l.indirectReturn)
        >>= report s c (l.errorSlot, l.indirectReturn)) (w.setMemory m) Q E) :
    Step.Ends (invoke callee s frameSize c) w Q E := by
  rw [invoke_eq hshape.args.length_eq hshape.bindings, Step.ends_bind]
  refine (ends_makeLanding hshape.place hw).imp (fun r w₁ h => ?_) hfull
  obtain ⟨m₁, rfl, herror, hindirect, hev₁, hclear⟩ := h
  exact hbody m₁ ⟨r.1, r.2, resultWords s c⟩ rfl hev₁ (hev₁.sound hw) hclear herror hindirect

/-- Reading back what a served call left behind. -/
theorem ends_report {m : Memory} {w' : World} {r : Returned} {E : Fault → World → Prop}
    (hwords : l.words = resultWords s c) (ho : o.Suits s (resultWords s c))
    (hev : w.memory.Evolves (fun _ => False) m)
    (hclear : l.Clear m w.memory.next.toNat m.next.toNat) (herror : l.errorSlot.isSome = s.throws)
    (hindirect : l.indirectReturn.isSome = s.hasIndirectReturn)
    (h : Answered (w.setMemory m) w' symbol s c o hops l r) :
    Step.Ends (report s c (l.errorSlot, l.indirectReturn) r) w'
      (fun r w' => w'.module = w.module ∧ Reported w w' symbol s c o hops r) E := by
  rw [← hwords] at ho
  have hread := readResult_ok h.got herror hindirect ho h.values
  rw [report, ← hwords, Step.ends_bind]
  refine Step.ends_of_ok hread ⟨h.steady.module, {
    result := by rw [← hwords]
    log := h.log
    suspensions := h.suspensions
    kept := hev.then h.evolves fun n hn hcov => by
      have := (hclear.range hcov).1
      omega
    hasSlot := herror
    slot := by
      intro a ha
      have hslot := (h.got.slot a ha).read
      rwa [Nat.mul_zero, Word.plus_zero] at hslot
    hasPlace := hindirect
    place := by
      intro d hd
      rw [← hwords]
      refine (h.got.place d hd).readWords (ho.length_stored ?_)
      rw [← hindirect]
      exact Option.isSome_of_mem hd
    hasBuffer := h.hasBuffer
    continuation := h.continuation
    hasFrame := h.hasFrame
    frame := h.frame
    spilled := h.spilled
    drained := List.all_eq_true.mpr h.drained }⟩

/-- A call of a callee that serves it. -/
theorem ends_invoke (hs : s.Sound) (hshape : c.WellShaped s) (ho : o.Suits s (resultWords s c))
    (hsize : frameSize.getD s.frameLayout.size = s.frameLayout.size) (hw : w.memory.Sound)
    {left : List Word → List Word}
    (hcall : Serves (call callee) s w symbol (c.invocation s) o (resultWords s c) hops left) :
    Step.Ends (invoke callee s frameSize c) w
      (fun r w' => w'.module = w.module ∧ Reported w w' symbol s c o hops r)
      fun _ w' => Exhausted w' := by
  refine ends_invoke_of_landing hshape hw (fun _ _ h => h)
    fun m l hl hev hm hclear herror hindirect => ?_
  have hafter : After w (w.setMemory m) := ⟨steady_setMemory w m, hev⟩
  have hbody : Step.Ends (invokeBody callee s frameSize c (l.errorSlot, l.indirectReturn))
      (w.setMemory m) (fun r w' => Answered (w.setMemory m) w' symbol s c o hops l r)
      fun _ w' => Exhausted w' := by
    rw [← hl] at hcall ho
    rcases hs.frame with ⟨hconv, hframe⟩ | ⟨hconv, hframe, hlimit⟩
    · obtain ⟨rfl, hflat⟩ := hcall.flat hconv
      rw [invokeBody, hframe]
      exact ends_invokeFlatCall hconv hs.carriers hs.result hshape ho hflat hafter hm hclear herror
        hindirect
    · rw [invokeBody, hframe]
      exact ends_invokeAsyncCall hconv hs.carriers hlimit hshape ho hsize (hcall.frame hconv)
        hcall.fresh hafter hm hclear herror hindirect
  rw [Step.ends_bind]
  exact hbody.imp (fun r w' h => ends_report hl ho hev hclear herror hindirect h) fun _ _ h => h

end World

end Dispatch
