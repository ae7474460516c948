import Dispatch.Proofs.Serving

/-!
# Thunks at work

A thunk moves the arguments out of the caller's memory into its own, calls what its
table holds, and hands back what that returns.  If the callee serves a call then so
does the thunk, with the same landing: the error slot and the result address are passed
on, and nothing that the thunk stores itself touches them.

## Main definitions

* `Thunk.passFlat`, `Thunk.passAsync` — what a thunk does with what it has loaded.

## Main results

* `World.ends_forwardFlat`, `World.ends_forwardAsync` — thunks up to the load.
* `World.ends_passFlat`, `World.ends_passAsync` — thunks after the load.
* `World.serves_forward` — a thunk serves what its callee serves.
-/

namespace Dispatch

open Attempt

/-- Taking a result apart and putting it together again changes nothing. -/
theorem Thunk.returned_eq {s : Lowered} (hr : s.result.Sound) {resume : Option Word}
    (hresume : resume.isSome = s.convention.isCoroutine) {o : Outcome} {count : Nat}
    (ho : o.Suits s count) :
    returned s (resume.toList ++ s.packResult o) = .ok (resume.toList ++ s.packResult o) := by
  unfold returned
  cases hc : s.convention.isCoroutine with
  | true => rfl
  | false =>
    rw [hc] at hresume
    have hnone : resume = none := by
      cases resume with
      | none => rfl
      | some v => cases hresume
    rw [hnone, Option.toList_none, List.nil_append]
    have hlen := Lowered.length_packResult hr (o := o)
    simp only [Bool.false_eq_true, if_false]
    unfold Lowered.resultKinds at hlen
    cases hp : s.result.passing with
    | indirect schema =>
      rw [hp] at hlen
      rw [List.eq_nil_of_length_eq_zero hlen]
    | address =>
      rw [hp] at hlen
      rw [List.eq_nil_of_length_eq_zero hlen]
    | direct schema =>
      have hpacked := hr.packed schema hp
      rw [hp] at hlen
      simp only at hlen
      by_cases hz : schema.components.isEmpty = true
      · have hkinds := hpacked.nativeKinds_eq_nil.mpr (List.isEmpty_iff.mp hz)
        rw [hkinds] at hlen
        simp only [hz, if_true]
        rw [List.eq_nil_of_length_eq_zero hlen]
      · simp only [hz, Bool.false_eq_true, if_false]
        -- a failed call hands back zeros, which are packed zeros
        obtain ⟨words, hwords, hpack⟩ : ∃ words, words.length = schema.components.length ∧
            s.packResult o = schema.pack words := by
          cases o with
          | ok words =>
            unfold Outcome.Suits Lowered.hasIndirectReturn Lowered.resultScalars at ho
            simp only [hp, Passing.byAddress, Bool.false_eq_true, if_false] at ho
            exact ⟨words, ho, by rw [Lowered.packResult, hp]⟩
          | error e =>
            refine ⟨List.replicate schema.components.length 0, List.length_replicate, ?_⟩
            rw [Lowered.packResult, schema.pack_zeros hpacked, Lowered.resultKinds, hp]
        rw [hpack, hpacked.decode_encode hwords, ok_bind,
          hpacked.encode (Scalar.length_clip hwords), schema.pack_clip hwords]

namespace Thunk

open World

/-- What a thunk with flat arguments does once it has loaded the implementation. -/
def passFlat (call : Caller) (s : Lowered) (parts : Parts Word) (args : List ArgValue)
    (function : Word) : Run (List Word) := do
  let native ← flatArgs 0 (s.carriers.zip args)
  let results ← callFor call s function (parts.withParams native.1).toList
  returned s results

/-- What a thunk with a frame does once it has loaded the implementation. -/
def passAsync (call : Caller) (s : Lowered) (frame : Word)
    (fetched : Parts Word × List ArgValue) (function : Word) : Run (List Word) := do
  let own ← withMemory (Memory.alloc s.frameLayout.size)
  fillFrame s own fetched.1 fetched.2
  callFrame call function own
  let results ← loadAll own (8 * s.resultsAt) s.resultScalars.length
  storeAll frame (8 * s.resultsAt) results
  return []

end Thunk

theorem Parts.rest_withParams {s : Lowered} {parts : Parts Word} (h : parts.FitsFrame s) :
    (parts.withParams []).Rest s :=
  ⟨h.resume, rfl, h.indirect, h.bindings, h.error, h.witness⟩

namespace World

variable {s : Lowered} {w₀ : World} {symbol : String} {inv : Invocation} {o : Outcome}
  {count : Nat} {call : Caller} {p : Pool} {m : Method} {target : Target} {function : Word}
  {callee : List Word → Run (List Word)}

/-! ### Up to the load -/

/-- Memory after a thunk has moved the spilled arguments out of it; the landing of the call
is as it was. -/
structure Unloaded (l : Landing) (m m₁ : Memory) (floor top low high : Nat)
    (spilled : List Word) : Prop where
  evolves : m.Evolves (fun n => low ≤ n ∧ n < high) m₁
  sound : m₁.Sound
  next : m₁.next = m.next
  clear : l.Clear m₁ floor top
  drained : ∀ a ∈ spilled, a.toNat < high ∧ a.toNat < m.next.toNat ∧ m₁.isDrained a = true

/-- A thunk with flat arguments gets as far as the load of the implementation. -/
theorem ends_forwardFlat {Q : List Word → World → Prop} {E : Fault → World → Prop} {w : World}
    {parts : Parts Word} {args : List ArgValue} {floor low high : Nat} {spilled : List Word}
    (hc : ∀ c ∈ s.carriers, c.Sound)
    (hready : FlatReady s w.memory floor low high count parts args spilled)
    (hload : ∀ m₁, Unloaded (parts.landing count) w.memory m₁ floor low low high spilled →
      Step.Ends (target.load p m parts.receiver parts.witness
        >>= Thunk.passFlat call s parts args) (w.setMemory m₁) Q E) :
    Step.Ends (Thunk.forwardFlat call p m target s parts) w Q E := by
  obtain ⟨m₁, hrun, hev, hdrained, hnext⟩ := decodeAll_ok hc hready.sound hready.carried 0
  have hclear : (parts.landing count).Clear m₁ floor low := by
    apply hready.clear.evolves hready.sound hev
    intro n hn h
    have := (hready.clear.range hn).2
    omega
  rw [Thunk.forwardFlat, Step.ends_bind]
  apply Step.ends_of_ok hrun
  exact hload m₁ ⟨hev, hev.sound hready.sound, hnext, hclear, hdrained⟩

/-- A thunk with a frame gets as far as the load of the implementation. -/
theorem ends_forwardAsync {Q : List Word → World → Prop} {E : Fault → World → Prop} {w : World}
    {frame : Word} {parts : Parts Word} {args : List ArgValue} {floor low high : Nat}
    {spilled old : List Word}
    (hready : FrameReady s w.memory floor low high count frame parts args spilled old)
    (hload : ∀ m₁, Unloaded (parts.landing count) w.memory m₁ floor frame.toNat low high spilled →
      Step.Ends (target.load p m parts.receiver parts.witness
        >>= Thunk.passAsync call s frame (parts.withParams [], args)) (w.setMemory m₁) Q E) :
    Step.Ends (Thunk.forwardAsync call p m target s frame) w Q E := by
  have hbelow := hready.below
  obtain ⟨m₁, hrun, hev, hdrained, hnext⟩ := fetchFrame_ok hready.sound hready.inFrame
    hready.below hready.low_lt hready.carried
  obtain ⟨bytes, howns, hbytes⟩ := hready.owns
  have hclear : (parts.landing count).Clear m₁ floor frame.toNat := by
    apply hready.clear.evolves hready.sound hev
    intro n hn h
    have := (hready.clear.range hn).2
    omega
  rw [Thunk.forwardAsync, Step.ends_bind]
  apply Step.ends_of_ok (checkFrame_ok hready.sound howns hbytes)
  rw [Step.ends_bind]
  apply Step.ends_of_ok hrun
  exact hload m₁ ⟨hev, hev.sound hready.sound, hnext, hclear, hdrained⟩

/-- The arguments are decoded. -/
theorem Unloaded.decoded {l : Landing} {m m₁ : Memory} {floor top low high : Nat}
    {spilled : List Word} (h : Unloaded l m m₁ floor top low high spilled) :
    Decoded m m₁ low high spilled :=
  ⟨h.evolves, h.drained, h.next⟩

/-! ### Serving -/

/-- If the callee serves the call that a thunk makes from memory of its own, in `w₁`, then the
call of the thunk has been served, too. -/
theorem Unloaded.served {w w₁ w' : World} {l : Landing} {m : Memory}
    {floor top low low' high : Nat} {extra : Nat → Prop} {spilled spilled' : List Word}
    (h : Unloaded l w.memory m floor top low high spilled) (hs : Steady w w₁)
    (hlog : w₁.machine.log = w.machine.log) (hev : m.Evolves (fun _ => False) w₁.memory)
    (hserved : Served w₁ w' symbol inv o l low' extra spilled')
    (hlow : low ≤ w.memory.next.toNat) (hlow' : w.memory.next.toNat ≤ low')
    (hextra : ∀ n, extra n → w.memory.next.toNat ≤ n) (htop : top ≤ low)
    (hspilled : ∀ a ∈ spilled, low ≤ a.toNat) :
    Served w w' symbol inv o l low (fun _ => False) spilled where
  steady := hs.trans hserved.steady
  log := by rw [hserved.log, hlog]
  evolves := by
    refine ((h.evolves.mono fun n _ hn => Or.inr (Or.inr hn.1)).then hev fun n _ hn =>
      hn.elim).then hserved.evolves ?_
    rintro n - (hn | hn | hn)
    · exact Or.inl hn
    · exact Or.inr (Or.inr (Nat.le_trans hlow (hextra n hn)))
    · exact Or.inr (Or.inr (by omega))
  got := hserved.got
  drained := by
    -- what the caller spilled is above the landing, and below what the thunk made
    refine h.decoded.isDrained hspilled
      ((hev.mono fun _ _ hn => hn.elim).trans hserved.evolves) ?_
    rintro n hge hlt (hn | hn | hn)
    · have := (h.clear.range hn).2
      omega
    · have := hextra n hn
      omega
    · omega

/-- After the load, a thunk with flat arguments serves what its callee serves. -/
theorem ends_passFlat {w : World} {m₁ : Memory} {parts : Parts Word} {low high : Nat}
    {spilled : List Word} (hs : s.convention.isAsync = false) (hc : ∀ c ∈ s.carriers, c.Sound)
    (hr : s.result.Sound) (ho : o.Suits s count)
    (hinv : (parts.incoming inv.args).invocation = inv)
    (hready : FlatReady s w.memory w₀.memory.next.toNat low high count parts inv.args spilled)
    (hunloaded : Unloaded (parts.landing count) w.memory m₁ w₀.memory.next.toNat low low high
      spilled)
    (hafter : After w₀ (w.setMemory m₁)) (hcall : FlatServes (call function) s w₀ symbol inv o count) :
    Step.Ends (Thunk.passFlat call s parts inv.args function) (w.setMemory m₁) (fun results w' =>
      results = parts.resumeBuffer.toList ++ s.packResult o ∧
      w'.machine.suspensions = w.machine.suspensions ∧
      Served w w' symbol inv o (parts.landing count) low (fun _ => False) spilled)
      fun _ w' => Exhausted w' := by
  have hlow := hready.low_le
  have hfloor := hready.floor_le
  have hnext₁ := hunloaded.next
  have hshaped : Shaped s.carriers inv.args :=
    hready.carried.shaped fun _ _ _ h => h.length_eq
  rw [Thunk.passFlat, Step.ends_bind]
  refine (ends_flatArgs hc hshaped (w := w.setMemory m₁) hunloaded.sound 0).imp
    (fun r w' hsent => ?_) fun _ _ h => h
  obtain ⟨m₂, rfl, hev₂, hcarried₂⟩ := hsent
  rw [hready.carried.clipAll_eq, memory_setMemory, hnext₁] at hcarried₂
  have hafter₂ : After w₀ ((w.setMemory m₁).setMemory m₂) :=
    hafter.then (steady_setMemory _ m₂) hev₂ fun _ _ h => h
  have hready₂ : FlatReady s m₂ w₀.memory.next.toNat w.memory.next.toNat m₂.next.toNat count
      (parts.withParams r.1) inv.args r.2 := {
    sound := hev₂.sound hunloaded.sound
    fits := ⟨hready.fits.resume, hready.fits.indirect, hcarried₂.length_registers hc,
      hready.fits.bindings, hready.fits.error, hready.fits.witness⟩
    clear := (hunloaded.clear.evolves hunloaded.sound hev₂ fun _ _ h => h).mono hlow
    floor_le := Nat.le_trans hfloor hlow
    carried := hcarried₂
    high_le := Nat.le_refl _ }
  rw [Step.ends_bind, Thunk.callFor, Step.ends_bind]
  refine (hcall _ (parts.withParams r.1) _ _ _ hafter₂ hinv hready₂).imp (fun results w₃ h => ?_)
    fun _ _ h => h
  obtain ⟨hresults, hsusp, hserved⟩ := h
  have hlen : results.length = s.results.length := by
    rw [hresults, List.length_append, Lowered.length_packResult hr]
    exact (Lowered.length_results hs hready.fits.resume).symm
  have hreturned := Thunk.returned_eq hr hready.fits.resume ho
  rw [if_pos hlen, Step.ends_pure, hresults,
    show (parts.withParams r.1).resumeBuffer = parts.resumeBuffer from rfl, hreturned,
    Step.ends_liftM_ok]
  refine ⟨rfl, hsusp, ?_⟩
  exact hunloaded.served (steady_setMemory w m₂) rfl hev₂ hserved hlow (Nat.le_refl _)
    (fun _ h => h.elim) (Nat.le_refl _) hready.carried.low_le

/-- A thunk with flat arguments. -/
theorem flatServes_forward (hs : s.convention.isAsync = false) (hc : ∀ c ∈ s.carriers, c.Sound)
    (hr : s.result.Sound) (ho : o.Suits s count)
    (hcallee : ∀ w parts, After w₀ w → parts.Fits s →
      callee parts.toList w = Thunk.forwardFlat call p m target s parts w)
    (hload : ∀ w, After w₀ w → target.load p m inv.receiver inv.witness w = .ok function w)
    (hcall : FlatServes (call function) s w₀ symbol inv o count) :
    FlatServes callee s w₀ symbol inv o count := by
  intro w parts low high spilled hafter hinv hready
  have hfloor := hready.floor_le
  have hreceiver : parts.receiver = inv.receiver := congrArg Invocation.receiver hinv
  have hwitness : parts.witness = inv.witness := congrArg Invocation.witness hinv
  unfold Step.Ends
  rw [hcallee w parts hafter hready.fits]
  refine ends_forwardFlat hc hready fun m₁ hunloaded => ?_
  have hafter₁ : After w₀ (w.setMemory m₁) :=
    hafter.then (steady_setMemory w m₁) hunloaded.evolves fun n hn h => by omega
  have hfun := hload _ hafter₁
  rw [← hreceiver, ← hwitness] at hfun
  rw [Step.ends_bind]
  exact Step.ends_of_ok hfun (ends_passFlat hs hc hr ho hinv hready hunloaded hafter₁ hcall)

/-- The world after an asynchronous call suspended its caller. -/
def suspended (w : World) : World :=
  { w with machine := { w.machine with suspensions := w.machine.suspensions + 1 } }

/-- A result is copied from one frame into another. -/
theorem copyResult_ok {w : World} {own frame : Word} {results old : List Word}
    (hw : w.memory.Sound) (hown : w.memory.Holds own s.resultsAt results)
    (hlen : results.length = s.resultScalars.length)
    (hheld : w.memory.Holds frame s.resultsAt old) (hold : old.length = s.resultScalars.length) :
    ∃ m', (do
        let results ← loadAll own (8 * s.resultsAt) s.resultScalars.length
        storeAll frame (8 * s.resultsAt) results
        return [] : Run (List Word)) w = .ok [] (w.setMemory m') ∧
      w.memory.Evolves (Memory.Within frame s.resultsAt s.resultScalars.length) m' ∧
      m'.Holds frame s.resultsAt results := by
  have hwhole : w.memory.Holds frame s.resultsAt ([] ++ old ++ []) := by
    rwa [List.nil_append, List.append_nil]
  obtain ⟨m', hrun, hev, hholds, -⟩ :=
    storeAll_ok hw hwhole (hlen.trans hold.symm) (Nat.add_zero _).symm
  rw [List.nil_append, List.append_nil] at hholds
  rw [hlen] at hev
  refine ⟨m', ?_, hev, hholds⟩
  rw [Step.bind_of_ok (loadAll_ok hown hlen), Step.bind_of_ok hrun]
  rfl

/-- A call stays served while the result field of a frame between landing and arguments is
written. -/
theorem Served.then_result {w w' : World} {l : Landing} {m m' : Memory} {frame : Word}
    {floor low : Nat} {spilled : List Word}
    (h : Served w w' symbol inv o l low (fun _ => False) spilled) (hw : w'.memory.Sound)
    (hclear : l.Clear m floor frame.toNat) (hbelow : frame.toNat + 8 * s.frameEnd ≤ low)
    (hspilled : ∀ a ∈ spilled, low ≤ a.toNat ∧ a.toNat < w.memory.next.toNat)
    (hstored : l.indirectReturn.isSome → (o.stored l.words).length = l.words)
    (hev : w'.memory.Evolves (Memory.Within frame s.resultsAt s.resultScalars.length) m') :
    Served w (w'.setMemory m') symbol inv o l low
      (Memory.Within frame s.resultsAt s.resultScalars.length) spilled where
  steady := h.steady.trans (steady_setMemory w' m')
  log := h.log
  evolves := by
    refine (h.evolves.mono fun n _ hn => ?_).then hev fun n _ hn => Or.inr (Or.inl hn)
    rcases hn with hn | hn | hn
    · exact Or.inl hn
    · exact hn.elim
    · exact Or.inr (Or.inr hn)
  got := by
    refine h.got.evolves hw hev hstored ?_
    rintro n hn ⟨h1, -⟩
    have := (hclear.range hn).2
    omega
  drained := by
    intro a ha
    obtain ⟨hlow, hlt⟩ := hspilled a ha
    have hnext : w.memory.next.toNat ≤ w'.memory.next.toNat := h.evolves.next
    have hend := length_inlineAt s
    rw [← h.drained a ha]
    refine hev.isDrained_eq (by omega) ?_
    rintro ⟨-, h2⟩
    omega

/-- After the load, a thunk with a frame serves what its callee serves, with one more
suspension. -/
theorem ends_passAsync {w : World} {m₁ : Memory} {frame : Word} {parts : Parts Word}
    {low high hops : Nat} {spilled old : List Word} {left : List Word → List Word}
    (hc : ∀ c ∈ s.carriers, c.Sound) (hsize : 8 * s.frameEnd < Size.limit) (ho : o.Suits s count)
    (hfresh : left (List.replicate s.resultScalars.length 0) = s.inlineResult o)
    (hinv : (parts.incoming inv.args).invocation = inv)
    (hready : FrameReady s w.memory w₀.memory.next.toNat low high count frame parts inv.args spilled
      old)
    (hunloaded : Unloaded (parts.landing count) w.memory m₁ w₀.memory.next.toNat frame.toNat low
      high spilled)
    (hafter : After w₀ (w.setMemory m₁))
    (hcall : FrameServes (call function) s w₀ symbol inv o count hops left) :
    Step.Ends (Thunk.passAsync call s frame (parts.withParams [], inv.args) function)
      (w.setMemory m₁) (fun results w' =>
        results = [] ∧ w'.machine.suspensions = w.machine.suspensions + (hops + 1) ∧
        w'.memory.Holds frame s.resultsAt (s.inlineResult o) ∧
        Served w w' symbol inv o (parts.landing count) low
          (Memory.Within frame s.resultsAt s.resultScalars.length) spilled)
      fun _ w' => Exhausted w' := by
  have hlow := hready.low_le
  have hfloor := hready.floor_le
  have hbelow := hready.below
  have hend := length_inlineAt s
  have hs₁ := hunloaded.sound
  have hown : m₁.next.toNat = w.memory.next.toNat := congrArg UInt64.toNat hunloaded.next
  have hshaped : Shaped s.carriers inv.args :=
    hready.carried.shaped fun _ _ _ h => h.length_eq
  have hin₁ := hready.inFrame.evolves hready.sound hunloaded.evolves
    (by rintro n ⟨-, h1⟩ ⟨h2, -⟩; omega)
  -- the thunk's own frame lies above everything
  rw [Thunk.passAsync, Step.ends_bind]
  refine ends_allocFrame hsize (w := w.setMemory m₁) hs₁ fun m₂ hadded => ?_
  rw [memory_setMemory] at hadded
  have hown₂ := hadded.below
  rw [Step.ends_bind]
  refine (ends_fillFrame hc hshaped (Parts.rest_withParams hready.inFrame.fits)
    (w := (w.setMemory m₁).setMemory m₂) hadded.sound hadded.inFrame hadded.below).imp
    (fun _ w' hfilled => ?_) fun _ _ h => h
  obtain ⟨m₃, encoded, spilled₃, rfl, hev₃, hin₃, hcarried₃⟩ := hfilled
  have hev₁₃ : m₁.Evolves (fun _ => False) m₃ := hadded.evolves_filled hev₃
  have hready₃ := hadded.ready hs₁ hev₃ hin₃ hcarried₃ (hunloaded.clear.mono (by omega))
    (by omega)
  have hsteady : Steady w (w.setMemory m₃).suspended := ⟨rfl, rfl, rfl, rfl, rfl, rfl⟩
  have hafter₃ : After w₀ (w.setMemory m₃).suspended :=
    hafter.then ⟨rfl, rfl, rfl, rfl, rfl, rfl⟩ hev₁₃ fun _ _ h => h
  rw [Step.ends_bind, Thunk.callFrame, Step.ends_bind, suspend, Step.ends_modify, Step.ends_bind]
  refine (hcall (w.setMemory m₃).suspended m₁.next (parts.withParams encoded) _ _ _ _ hafter₃ hinv
    hready₃).imp (fun results w₄ h => ?_) fun _ _ h => h
  obtain ⟨rfl, hsusp, hinline, hserved₄⟩ := h
  rw [hfresh] at hinline
  have hs₃ : m₃.Sound := hready₃.sound
  have hs₄ := hserved₄.evolves.sound hs₃
  -- the call leaves the caller's frame alone
  have hin₄ : parts.InFrame s w₄.memory frame old := by
    refine (hin₁.evolves hs₁ hev₁₃ fun _ _ h => h).evolves hs₃ hserved₄.evolves ?_
    rintro n ⟨h1, h2⟩ (h | ⟨h3, -⟩ | h)
    · have := (hunloaded.clear.range h).2
      omega
    · omega
    · omega
  have hserved : Served w w₄ symbol inv o (parts.landing count) low (fun _ => False) spilled :=
    hunloaded.served hsteady rfl hev₁₃ hserved₄ hlow (by omega) (fun n h => by have := h.1; omega)
      (by omega) hready.carried.low_le
  -- the result is copied whatever the callee answered
  rw [List.length_nil, if_pos rfl, Step.ends_pure]
  obtain ⟨m₅, hrun₅, hev₅, hholds₅⟩ := copyResult_ok hs₄ hinline (Lowered.length_inlineResult ho)
    hin₄.segments.2.2.2.2.2.2 hready.inFrame.length_results
  refine Step.ends_of_ok hrun₅ ⟨rfl, ?_, hholds₅, ?_⟩
  · rw [show (w₄.setMemory m₅).machine.suspensions = w₄.machine.suspensions from rfl, hsusp]
    simp only [suspended, setMemory]
    omega
  · refine hserved.then_result hs₄ hunloaded.clear hbelow
      (fun a ha => ⟨hready.carried.low_le a ha, (hunloaded.drained a ha).2.1⟩) (fun hi => ?_) hev₅
    exact ho.length_stored (by rw [← hready.inFrame.fits.indirect]; exact hi)

/-- A thunk with a frame. -/
theorem frameServes_forward {hops : Nat} {left : List Word → List Word}
    (hc : ∀ c ∈ s.carriers, c.Sound)
    (hsize : 8 * s.frameEnd < Size.limit) (ho : o.Suits s count)
    (hcallee : ∀ w frame, After w₀ w →
      callee [frame] w = Thunk.forwardAsync call p m target s frame w)
    (hload : ∀ w, After w₀ w → target.load p m inv.receiver inv.witness w = .ok function w)
    (hcall : FrameServes (call function) s w₀ symbol inv o count hops left)
    (hfresh : left (List.replicate s.resultScalars.length 0) = s.inlineResult o) :
    FrameServes callee s w₀ symbol inv o count (hops + 1) fun _ => s.inlineResult o := by
  intro w frame parts low high spilled old hafter hinv hready
  have hfloor := hready.floor_le
  have hbelow := hready.below
  have hreceiver : parts.receiver = inv.receiver := congrArg Invocation.receiver hinv
  have hwitness : parts.witness = inv.witness := congrArg Invocation.witness hinv
  unfold Step.Ends
  rw [hcallee w frame hafter]
  refine ends_forwardAsync hready fun m₁ hunloaded => ?_
  have hafter₁ : After w₀ (w.setMemory m₁) :=
    hafter.then (steady_setMemory w m₁) hunloaded.evolves fun n hn h => by omega
  have hfun := hload _ hafter₁
  rw [← hreceiver, ← hwitness] at hfun
  rw [Step.ends_bind]
  exact Step.ends_of_ok hfun
    (ends_passAsync hc hsize ho hfresh hinv hready hunloaded hafter₁ hcall)

/-- The suspensions of a thunk in front of a callee. -/
def thunkHops (s : Lowered) (hops : Nat) : Nat :=
  if s.convention.isAsync then hops + 1 else hops

/-- A thunk serves what its callee serves. -/
theorem serves_forward {hops : Nat} {left : List Word → List Word} (hs : s.Sound)
    (ho : o.Suits s count)
    (hflat : s.convention.isAsync = false → ∀ w parts, After w₀ w → parts.Fits s →
      callee parts.toList w = Thunk.forwardFlat call p m target s parts w)
    (hasync : s.convention.isAsync = true → ∀ w frame, After w₀ w →
      callee [frame] w = Thunk.forwardAsync call p m target s frame w)
    (hload : ∀ w, After w₀ w → target.load p m inv.receiver inv.witness w = .ok function w)
    (hcall : Serves (call function) s w₀ symbol inv o count hops left) :
    Serves callee s w₀ symbol inv o count (thunkHops s hops) fun _ => s.inlineResult o where
  flat hconv := by
    obtain ⟨rfl, hserves⟩ := hcall.flat hconv
    refine ⟨by rw [thunkHops, hconv]; rfl, ?_⟩
    exact flatServes_forward hconv hs.carriers hs.result ho (hflat hconv) hload hserves
  frame hconv := by
    rw [thunkHops, if_pos hconv]
    exact frameServes_forward hs.carriers (hs.frame_of_async hconv).2 ho (hasync hconv) hload
      (hcall.frame hconv) hcall.fresh
  fresh := rfl

end World

end Dispatch
