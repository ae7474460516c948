import Dispatch.Proofs.Fidelity

/-!
# The frame of a call that fails

A caller may make the frame of an asynchronous call itself, and reuse words that hold
something.  When the body raises an error, the implementation leaves the result field of
the frame as it was.  The thunk does not: it calls the implementation with a frame of its
own, and then copies the result field of that frame, which holds zeros, whether or not
there is a result in it.

## Main definitions

* `World.buildFrame` — a caller that makes its own frame.

## Main results

* `World.call_raising` — what an error leaves in the result field, through the thunk and
  without it.
* `Shapes.result_overwritten` — a result field that a failed call overwrites.
-/

namespace Dispatch

open Attempt

namespace World

variable {u : Module} {refs : List Method} {w w₀ w₁ : World} {m : Method} {s : Lowered}
  {c : LogicalCall} {symbol : String} {i : Implementation} {count : Nat}

/-! ### A caller with its own frame -/

/-- What a caller does before it calls: it makes a landing and a frame, fills the frame,
and leaves `old` in the result field. -/
def buildFrame (s : Lowered) (c : LogicalCall) (count : Nat) (old : List Word) :
    Run (Landing × Word × List Word) := do
  let landing ← makeLanding s count
  let l : Landing := ⟨landing.1, landing.2, count⟩
  let frame ← withMemory (Memory.alloc (8 * s.frameEnd))
  let spilled ← sendFrame s frame (sentParts s c l) c.args
  storeAll frame (8 * s.resultsAt) old
  return (l, frame, spilled)

/-- Replacing the result. -/
theorem fills_result {frame : Word} {parts : Parts Word} {results words : List Word}
    (hw : w.memory.Sound) (h : parts.InFrame s w.memory frame results)
    (hwords : words.length = s.resultScalars.length) :
    Fills s (storeAll frame (8 * s.resultsAt) words) w frame parts words :=
  fills_storeAll hw h (a := parts.toFrame) (b := results) (c := []) (List.append_nil _).symm
    (hwords.trans h.length_results.symm) h.fits.length_toFrame.symm h.fits (List.append_nil _).symm

/-- The frame is ready for a call, whatever the caller left in its result field. -/
theorem ends_buildFrame {old : List Word} (hs : s.Sound) (hasync : s.convention.isAsync = true)
    (hshape : c.WellShaped s) (hplace : 8 * count < Size.limit)
    (hold : old.length = s.resultScalars.length) (hw : w.memory.Sound) :
    Step.Ends (buildFrame s c count old) w (fun r w' => After w w' ∧ ∃ low high encoded,
      FrameReady s w'.memory w.memory.next.toNat low high count r.2.1
        ((sentParts s c r.1).withParams encoded) c.args r.2.2 old)
      fun _ w' => Exhausted w' := by
  have hlimit := (hs.frame_of_async hasync).2
  have hend := length_inlineAt s
  rw [buildFrame, Step.ends_bind]
  refine (ends_makeLanding hplace hw).imp (fun r w' h => ?_) fun _ _ h => h
  obtain ⟨m₁, rfl, herror, hindirect, hev₁, hclear⟩ := h
  have hs₁ := hev₁.sound hw
  rw [Step.ends_bind]
  refine ends_allocFrame hlimit (w := w.setMemory m₁) hs₁ fun m₂ hadded => ?_
  rw [memory_setMemory] at hadded
  have hbelow := hadded.below
  rw [Step.ends_bind]
  refine (ends_sendFrame hs.carriers hshape.args
    ⟨rfl, rfl, hindirect, hshape.bindings, herror, isSome_witness hshape⟩
    (w := (w.setMemory m₁).setMemory m₂) hadded.sound hadded.inFrame hbelow).imp
    (fun spilled w' h => ?_) fun _ _ h => h
  obtain ⟨m₃, encoded, rfl, hev₃, hin₃, hcarried⟩ := h
  rw [memory_setMemory] at hev₃ hcarried
  have hready₃ := hadded.ready hs₁ hev₃ hin₃ hcarried hclear hev₁.next
  have hs₃ := hready₃.sound
  -- the caller writes into its result field last
  obtain ⟨m₄, hrun₄, hev₄, hin₄, hnext₄⟩ := fills_result
    (w := ((w.setMemory m₁).setMemory m₂).setMemory m₃) hs₃ hin₃ hold
  have hev₁₄ : m₁.Evolves (fun _ => False) m₄ := by
    refine (hadded.evolves_filled hev₃).then hev₄ ?_
    rintro n hn ⟨h1, -⟩
    omega
  rw [Step.ends_bind]
  refine Step.ends_of_ok hrun₄ ⟨⟨steady_setMemory w m₄, hev₁.trans hev₁₄⟩, m₂.next.toNat,
    m₃.next.toNat, encoded, ?_⟩
  exact {
    sound := hev₄.sound hs₃
    owns := ⟨_, hev₄.owns (hev₃.owns hadded.owns), Nat.le_refl _⟩
    inFrame := hin₄
    clear := hclear.evolves hs₁ hev₁₄ fun _ _ h => h
    floor_le := hev₁.next
    below := hbelow
    carried := hcarried.evolves hev₄ hs₃ fun n hn _ hwithin => by
      have := hwithin.2
      omega
    high_le := hev₄.next }

/-- Once the thunk has an address, the caller can build a frame with any words in its
result field. -/
theorem CallFor.frameReady {o : Outcome} {frameSize : Option Nat} {callee frame : Word}
    {l : Landing} {spilled old : List Word} (h : CallFor u refs w m s c symbol i o)
    (hu : u.Coherent refs) (hw : Reached u refs w) (hconv : m.convention.isAsync = true)
    (hprepare : prepareThunk m w = .ok (s, frameSize, callee) w₀)
    (hold : old.length = s.resultScalars.length)
    (hbuild : buildFrame s c (resultWords s c) old w₀ = .ok (l, frame, spilled) w₁) :
    After w₀ w₁ ∧ ∃ low high encoded,
      FrameReady s w₁.memory w₀.memory.next.toNat low high (resultWords s c) frame
        ((sentParts s c l).withParams encoded) c.args spilled old := by
  have hready := ((ends_prepareThunk (hw.ready hu).1 hu h.mem).ok hprepare).1
  have hasync : s.convention.isAsync = true := by
    rw [(Layout.lowers_of_lower h.lower).convention, hconv]
  exact (ends_buildFrame (h.sound hu) hasync h.shaped h.shaped.place hold
    hready.tabled.linked.sound).ok hbuild

end World

/-! ### A square without an outline -/

namespace Shapes

open World

/-- The thunk for outlines has an address. -/
def published : World := (prepareThunk outline).final raising

/-- A caller has built a frame with 9 in its result field. -/
def framed : World := (buildFrame (signature outline) order 0 [9]).final published

/-- The addresses of the thunk, of the implementation and of the frame, and what calls
leave in the result field. -/
theorem framed_runs :
    (prepareThunk outline).value? raising = some (signature outline, some 56, 4392) ∧
      published.link? "outline" = some 4192 ∧
      (buildFrame (signature outline) order 0 [9]).value? published
        = some (⟨some 4416, none, 0⟩, 4440, [4512, 4520, 4528, 4536, 4544]) ∧
      ((signature outline).resultsAt = 6 ∧ (signature outline).resultScalars.length = 1) ∧
      (¬ Exhausted framed ∧ ¬ Exhausted ((call 4392 [4440]).final framed) ∧
        ¬ Exhausted ((call 4192 [4440]).final framed)) ∧
      framed.memory.readWords 4488 1 = .ok [9] ∧
      ((call 4392 [4440]).final framed).memory.readWords 4488 1 = .ok [0] ∧
      ((call 4192 [4440]).final framed).memory.readWords 4488 1 = .ok [9] := by
  decide +kernel

end Shapes

namespace World

variable {u : Module} {refs : List Method} {w w₀ w₁ : World} {m : Method} {s : Lowered}
  {c : LogicalCall} {symbol : String} {i : Implementation}

/-! ### Failing calls -/

/-- When the body raises an error, the implementation leaves the result field of the
caller's frame as it was, and the thunk fills it with zeros.  Both report the error. -/
theorem call_raising {e : Word} {frameSize : Option Nat} {callee function frame : Word}
    {parts : Parts Word} {low high : Nat} {spilled old : List Word} (hu : u.Coherent refs)
    (hw : Reached u refs w) (h : CallFor u refs w m s c symbol i (.error e))
    (hconv : m.convention.isAsync = true)
    (hprepare : prepareThunk m w = .ok (s, frameSize, callee) w₀)
    (hlink : w₀.link? symbol = some function) (hafter : After w₀ w₁)
    (hinv : (parts.incoming c.args).invocation = c.invocation s)
    (hframe : FrameReady s w₁.memory w₀.memory.next.toNat low high (resultWords s c) frame parts
      c.args spilled old)
    (hroom : ¬ Exhausted w₁) (hthunk : ¬ Exhausted ((call callee [frame]).final w₁))
    (hdirect : ¬ Exhausted ((call function [frame]).final w₁)) :
    ∃ w₂ w₃ slot, call callee [frame] w₁ = .ok [] w₂ ∧ call function [frame] w₁ = .ok [] w₃ ∧
      parts.errorSlot = some slot ∧ w₂.memory.read slot = .ok e ∧ w₃.memory.read slot = .ok e ∧
      w₁.memory.readWords (frame.plus (8 * s.resultsAt)) s.resultScalars.length = .ok old ∧
      w₂.memory.readWords (frame.plus (8 * s.resultsAt)) s.resultScalars.length
        = .ok (List.replicate s.resultScalars.length 0) ∧
      w₃.memory.readWords (frame.plus (8 * s.resultsAt)) s.resultScalars.length = .ok old := by
  obtain ⟨hready, -⟩ := hw.ready hu
  have hasync : s.convention.isAsync = true := by
    rw [(Layout.lowers_of_lower h.lower).convention, hconv]
  have hargs : (c.invocation s).args = c.args := if_pos hasync
  have hsignature := h.signature_eq hu hready
  have hroom₀ : ¬ Exhausted w₀ := fun h₀ => hroom (Nat.lt_of_lt_of_le h₀ hafter.evolves.next)
  -- what the thunk and the implementation do from here on
  obtain ⟨hready₀, hprepares, hprepared⟩ :=
    (ends_prepareThunk hready hu h.mem).ok hprepare
  have hinstalled : w₀.machine.implementations.get? symbol = some i := by
    rw [hprepares.implementations]
    exact h.installed
  have hselects := hprepares.selects hready.tabled.linked.sound h.selects_sent
  have hbound := lt_of_link hready₀.tabled hroom₀ hlink
  have hthunkServes := hprepared.serves hready₀ hu h.mem hroom₀ hselects hinstalled hsignature
    h.body h.suits
  have hdirectServes := serves_callTo hready₀ hu hinstalled hlink hbound h.body
    (hsignature ▸ h.suits) innerDepth
  rw [hsignature, ← call_eq] at hdirectServes
  rw [← hargs] at hinv hframe
  obtain ⟨_, w₂, hrun₂, rfl, -, hholds₂, hserved₂⟩ := exists_ok_of_room
    ((hthunkServes.frame hasync w₁ frame parts low high spilled old hafter hinv hframe).imp
      (fun _ _ h => .inr h) fun _ _ h => h) hthunk
  obtain ⟨_, w₃, hrun₃, rfl, -, hholds₃, hserved₃⟩ := exists_ok_of_room
    ((hdirectServes.frame hasync w₁ frame parts low high spilled old hafter hinv hframe).imp
      (fun _ _ h => .inr h) fun _ _ h => h) hdirect
  have hthrows : s.throws = true := h.suits
  obtain ⟨slot, hslot⟩ := Option.isSome_iff_exists.mp (hframe.inFrame.fits.error.trans hthrows)
  have hread : ∀ {w' : World}, (parts.landing (resultWords s c)).Got (.error e) w'.memory →
      w'.memory.read slot = .ok e := by
    intro w' hgot
    have hslot := (hgot.slot slot hslot).read
    rwa [Nat.mul_zero, Word.plus_zero] at hslot
  have hold := hframe.inFrame.length_results
  have hzeros : s.inlineResult (.error e) = List.replicate s.resultScalars.length 0 := by
    rw [← s.keptResult_zeros]
    rfl
  rw [hzeros] at hholds₂
  exact ⟨w₂, w₃, slot, hrun₂, hrun₃, hslot, hread hserved₂.got, hread hserved₃.got,
    hframe.inFrame.segments.2.2.2.2.2.2.readWords_plus hold,
    hholds₂.readWords_plus List.length_replicate, hholds₃.readWords_plus hold⟩

/-- A square whose outline fails, with 9 in the result field of the frame. -/
theorem call_raising_outline :
    ∃ w₂ w₃, call 4392 [4440] Shapes.framed = .ok [] w₂ ∧
      call 4192 [4440] Shapes.framed = .ok [] w₃ ∧
      w₂.memory.readWords (Word.plus 4440 (8 * 6)) 1 = .ok [0] ∧
      w₃.memory.readWords (Word.plus 4440 (8 * 6)) 1 = .ok [9] := by
  obtain ⟨hprepare, hlink, hbuild, ⟨hat, hcount⟩, ⟨hroom, hthunk, hdirect⟩, -⟩ := Shapes.framed_runs
  have hreached := Shapes.scenes.2.2.2.2.2.reached
  have hcall := Shapes.callFor_raising
  have hold : [(9 : Word)].length = (Shapes.signature Shapes.outline).resultScalars.length :=
    hcount.symm
  obtain ⟨hafter, low, high, encoded, hframe⟩ :=
    hcall.frameReady Shapes.coherent_unit hreached rfl (Step.ok_of_value? hprepare) hold
      (Step.ok_of_value? hbuild)
  obtain ⟨w₂, w₃, -, h₂, h₃, -, -, -, -, hresult₂, hresult₃⟩ :=
    call_raising Shapes.coherent_unit hreached hcall rfl (Step.ok_of_value? hprepare) hlink hafter
      rfl hframe hroom hthunk hdirect
  rw [hat, hcount] at hresult₂ hresult₃
  exact ⟨w₂, w₃, h₂, h₃, hresult₂, hresult₃⟩

end World

/-- A failed call through the thunk overwrites the 9 in the result field of the caller's
frame; a failed call of the implementation leaves it. -/
theorem Shapes.result_overwritten :
    framed.memory.readWords 4488 1 = .ok [9] ∧
      ((World.call 4392 [4440]).final framed).memory.readWords 4488 1 = .ok [0] ∧
      ((World.call 4192 [4440]).final framed).memory.readWords 4488 1 = .ok [9] :=
  framed_runs.2.2.2.2.2

end Dispatch
