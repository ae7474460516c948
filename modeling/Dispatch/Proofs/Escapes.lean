import Dispatch.Proofs.Containment.Reentry

/-!
# Faults that nobody catches

A call of a thunk is made with words that nobody has looked at: any receiver, any witness
table, any arguments, in a machine whose memory may hold anything.  Most of what can go
wrong then ends the call with an error.  Two things do not.  The address of the table entry
is a sum of such words, computed before anything is read there: if it does not fit a word,
the machine stops.  And an entry that leads back to generated code is called like any other,
whatever becomes of that.

## Main definitions

* `World.Escapes` — what stops the machine in a call of a thunk.
* `Crossed.installed`, `Crossed.astray` — a call that stops it.

## Main results

* `World.Sequel.ends_callee` — what was loaded is called, and the results are sent back.
* `World.Loading.ends_rest` — the load and all that comes after it.
* `World.callThunk_faults` — a call ends with an error, or with one of the two.
-/

namespace Dispatch

open Attempt

namespace World

variable {u : Module} {refs : List Method} {w w' w₁ : World} {m : Method} {s : Lowered}
  {c : LogicalCall} {l : Landing} {target : Target} {base : Word}

/-! ### After the implementation has answered -/

/-- Loading words from inside the address space. -/
theorem ends_loadAll_caught (hw : Settled u refs w) {offset count : Nat}
    (hfits : base.toNat + offset + 8 * count < 2 ^ 64) :
    Step.Ends (loadAll base offset count) w
      (fun words w' => Settled u refs w' ∧ words.length = count)
      fun f w' => Exhausted w' ∨ f.Caught := by
  induction count generalizing offset w with
  | zero => exact ⟨hw, rfl⟩
  | succ count ih =>
    have hfirst : base.toNat + offset < 2 ^ 64 := by omega
    have hrest : base.toNat + (offset + wordBytes) + 8 * count < 2 ^ 64 := by
      simp only [wordBytes]
      omega
    rw [loadAll, Step.ends_bind]
    apply Step.Ends.imp (careful_loadAt hfirst w hw)
    case hE => exact fun _ _ h => h
    intro first w₁ hw₁
    rw [Step.ends_bind]
    apply Step.Ends.imp (ih hw₁ hrest)
    · intro others w₂ h
      exact ⟨h.1, by simp [h.2]⟩
    · exact fun _ _ h => h

/-- Storing words inside the address space. -/
theorem careful_storeAll {words : List Word} {offset : Nat}
    (hfits : base.toNat + offset + 8 * words.length < 2 ^ 64) :
    Careful u refs (storeAll base offset words) := by
  induction words generalizing offset with
  | nil => exact contained_pure _
  | cons word rest ih =>
    rw [List.length_cons] at hfits
    have hfirst : base.toNat + offset < 2 ^ 64 := by omega
    have hrest : base.toNat + (offset + wordBytes) + 8 * rest.length < 2 ^ 64 := by
      simp only [wordBytes]
      omega
    apply (careful_addWord hfirst).bind
    intro a
    exact (careful_write a word).bind fun _ => ih hrest

/-- Reading the outcome back from the landing, wherever that is. -/
theorem careful_report (s : Lowered) (c : LogicalCall) (landing : Option Word × Option Word)
    (returned : Returned) : Careful u refs (report s c landing returned) := by
  have hslot : Careful u refs (readSlot landing.1) := by
    cases landing.1 with
    | none => exact contained_pure _
    | some slot => exact careful_read slot
  have hplace : Careful u refs (readPlace landing.2 (resultWords s c) returned.values) := by
    cases landing.2 with
    | none => exact contained_pure _
    | some d => exact (careful_readWords d _).bind fun _ => contained_pure _
  rw [report, readResult_eq]
  have hresult := hslot.bind fun error =>
    contained_ite (c := error ≠ 0) (fun _ => contained_pure (Except.error error)) fun _ => hplace
  exact hresult.bind fun _ => contained_pure _

theorem careful_receiveFlat (resume : Option Word) (spilled results : List Word) :
    Careful u refs (receiveFlat s resume spilled results) := by
  have hvalues : ∀ direct f, flatValues s direct = .error f → f.Caught := by
    intro direct f h
    unfold flatValues at h
    split at h
    · exact Schema.decode_caught h
    · cases h
    · cases h
  apply contained_ite
  · intro _
    exact (contained_liftM (hvalues _)).bind fun _ => contained_pure _
  · intro _
    exact careful_fail _

theorem careful_receiveFrame (hframe : base.toNat + 8 * s.frameEnd < 2 ^ 64)
    (indirectReturn : Option Word) (spilled results : List Word) :
    Careful u refs (receiveFrame s.frameLayout base indirectReturn spilled results) := by
  have hplaces := places_le s
  have hvalues : Careful u refs (frameValues s.frameLayout base indirectReturn) := by
    unfold frameValues
    split
    · next offset components hresults =>
      have hoffset : offset = 8 * s.resultsAt := by
        simp [Lowered.frameLayout] at hresults
        exact hresults.2.1.symm
      apply (careful_addWord (by omega)).bind
      intro place
      exact careful_readWords place _
    · exact contained_pure _
  apply contained_ite
  · intro _
    exact hvalues.bind fun _ => contained_pure _
  · intro _
    exact careful_fail _

/-- Whatever the implementation has answered, the caller is told of what is wrong with it. -/
theorem Aftermath.careful {y : List Word → Run Report} (h : Aftermath s c l y)
    (results : List Word) : Careful u refs (y results) := by
  cases h with
  | @flat resume spilled =>
    have hcount : Careful u refs (if results.length = s.results.length then pure results
        else fail (.arity "call results" s.results.length results.length) : Run (List Word)) :=
      contained_ite (fun _ => contained_pure _) fun _ => careful_fail _
    apply hcount.bind
    intro results
    apply (contained_liftM fun _ => returned_caught).bind
    intro results
    exact (careful_receiveFlat resume spilled results).bind fun _ => careful_report _ _ _ _
  | @frame own frame spilled hown hframe =>
    -- the results are the last fields, and both frames end inside the address space
    have hend : s.resultsAt + s.resultScalars.length = s.frameEnd := rfl
    have hcount : Careful u refs (if results.length = 0 then pure ()
        else fail (.arity "call results" 0 results.length) : Run Unit) :=
      contained_ite (fun _ => contained_pure _) fun _ => careful_fail _
    apply hcount.bind
    intro _
    apply contained_bind fun _ hw => ends_loadAll_caught hw (by omega)
    intro words hwords
    apply (careful_storeAll (by rw [hwords]; omega)).bind
    intro _
    exact (careful_receiveFrame hframe _ _ _).bind fun _ => careful_report _ _ _ _

/-! ### From the load on -/

theorem After.leadsBack {callee : Word} (h : After w w₁) (hback : w₁.LeadsBack callee) :
    w.LeadsBack callee := by
  obtain ⟨symbol, f, hname, hfree, hf⟩ := hback
  refine ⟨symbol, f, ?_, ?_, ?_⟩
  · rwa [nameAt?, ← h.steady.symbols]
  · rwa [← h.steady.implementations]
  · rwa [← h.steady.module]

/-- Whatever word was loaded, only generated code can stop the machine when it is called. -/
theorem Sequel.ends_callee {rest : Word → Run Report} (h : Sequel s c l w rest)
    (hw : Settled u refs w) (hu : u.Coherent refs) (hclosed : ∀ m ∈ refs, m.Closed u.pool)
    (hs : s.Sound) (callee : Word) :
    Step.Ends (rest callee) w (fun _ _ => True)
      fun f w' => Exhausted w' ∨ f.Caught ∨ f.Runaway ∧ w.LeadsBack callee := by
  apply h.ends_of_call hs hw.grounded.linked.sound (fun _ _ => .inl) callee
  intro args y w₁ hafter _ hy
  -- sending the arguments leaves the code where it is, so the word leads where it led before
  have hw₁ := hw.spares (hafter.spares 0)
  have hcall := ends_callTo hw₁ hu hclosed (rash_callTo hu hclosed (innerDepth - 1)) callee args
  rw [Step.ends_bind]
  apply Step.Ends.imp hcall
  · intro results w₂ hw₂
    apply Step.Ends.imp (hy.careful results w₂ hw₂)
    · intro _ _ _
      trivial
    · exact fun _ _ h => h.imp_right .inl
  · exact fun _ _ h => h.imp_right (.imp_right (.imp_right hafter.leadsBack))

/-- A call that has come to nothing stays so while the machine only gets ready for more. -/
theorem Idle.prepares (h : Idle m s c w w₁) (hs : w₁.memory.Sound) (hready : Prepares w₁ w') :
    Idle m s c w w' where
  log := by
    obtain ⟨v, hv⟩ := hready
    rw [hv.rest, ← h.log]
    rfl
  kept := h.kept.trans hready.evolves
  landing := by
    have hev := hready.evolves
    obtain ⟨errorSlot, indirectReturn, hvalue, hslot, hplace⟩ := h.landing
    refine ⟨errorSlot, indirectReturn, hvalue, ?_, ?_⟩
    · intro a ha
      exact hev.read_ok hs (hslot a ha) id
    · intro d hd
      exact hev.readFrom_ok hs (hplace d hd)

/-- What stops the machine in a call of the thunk of `m` that started in `w`. -/
inductive Escapes (u : Module) (target : Target) (m : Method) (s : Lowered) (c : LogicalCall)
    (w : World) : Fault → World → Prop
  /-- The address of the table entry does not fit a word. -/
  | overrun {w' : World} (hidle : Idle m s c w w')
    (hover : target.Overruns u.pool m c.receiver (c.invocation s).witness w') :
    Escapes u target m s c w (.trap (.overflow .add)) w'
  /-- The entry leads back to generated code, and that has stopped the machine. -/
  | reentry {f : Fault} {callee : Word} {w₁ w₂ w' : World} (hidle : Idle m s c w w₁)
    (hload : target.load u.pool m c.receiver (c.invocation s).witness w₁ = .ok callee w₂)
    (hback : w₂.LeadsBack callee) (hrunaway : f.Runaway) : Escapes u target m s c w f w'

/-- Whoever calls a requirement gives a witness table. -/
theorem isSome_witness_of_target (hlower : u.layout.lower u.pool m = .ok s)
    (hplace : Target.ofMethod u.hierarchy u.pool u.options.signingKey m = .ok target)
    (hshape : c.WellShaped s) (index : Nat) (htarget : target = .witness index) :
    (c.invocation s).witness.isSome := by
  rw [htarget] at hplace
  have hasked : s.witness = true := by
    rw [(Layout.lowers_of_lower hlower).witness, Target.isWitness_of_ofMethod hplace]
  rw [← hasked]
  exact isSome_witness hshape

/-- From the load on, a call ends with an answer or an error, or it escapes. -/
theorem Loading.ends_rest {p : Pool} {rest : Word → Run Report}
    (h : Loading u refs m s c w l p target w₁) (hsequel : Sequel s c l w₁ rest)
    (hw : Settled u refs w) (hu : u.Coherent refs) (hm : m ∈ refs)
    (hclosed : ∀ m ∈ refs, m.Closed u.pool) (hs : s.Sound)
    (hwitness : ∀ index, target = .witness index → (c.invocation s).witness.isSome) :
    Step.Ends (target.load u.pool m c.receiver (c.invocation s).witness >>= rest) w₁
      (fun _ _ => True)
      fun f w' => Exhausted w' ∨ f.Caught ∨ Escapes u target m s c w f w' := by
  have hw₁ := h.settled hw
  have hkind := Target.receiverIsMetadata_of_closed (hclosed m hm)
  rw [Step.ends_bind]
  apply (ends_load hw₁ hkind hwitness).imp_run
  · intro callee w₂ hrun hloaded
    obtain ⟨hw₂, hready⟩ := hloaded
    have hlater := hsequel.later hready.evolves.next
    apply Step.Ends.imp (hlater.ends_callee hw₂ hu hclosed hs callee)
    · exact fun _ _ h => h
    · intro f w' hfault
      rcases hfault with hfull | hcaught | ⟨hrunaway, hback⟩
      · exact .inl hfull
      · exact .inr (.inl hcaught)
      · exact .inr (.inr (.reentry h.idle hrun hback hrunaway))
  · intro f w' _ hfault
    rcases hfault with hfull | hcaught | ⟨rfl, hready, hover⟩
    · exact .inl hfull
    · exact .inr (.inl hcaught)
    · have hidle := h.idle.prepares hw₁.grounded.linked.sound hready
      exact .inr (.inr (.overrun hidle hover))

/-- Whatever a machine was asked before, and whatever words a thunk is called with, the call
ends with an answer or with an error, unless the address of the table entry does not fit a
word or the entry leads back to generated code.  If the address does not fit, the call stops
the machine before any body runs. -/
theorem callThunk_faults (hu : u.Coherent refs) (hw : Handled u refs w) (hm : m ∈ refs)
    (hclosed : ∀ m ∈ refs, m.Closed u.pool) (hlower : u.layout.lower u.pool m = .ok s)
    (hplace : Target.ofMethod u.hierarchy u.pool u.options.signingKey m = .ok target)
    (hshape : c.WellShaped s) (hroom : ¬ Exhausted ((callThunk m c).final w)) :
    Step.Ends (callThunk m c) w (fun _ _ => True)
        (fun f w' => f.Caught ∨ Escapes u target m s c w f w') ∧
      (target.Overruns u.pool m c.receiver (c.invocation s).witness w →
        ∃ w', callThunk m c w = .error (.trap (.overflow .add)) w' ∧ Idle m s c w w') := by
  obtain ⟨hsettled, -⟩ := hw.settled hu
  have hground := hsettled.grounded
  constructor
  · have hs := Layout.sound_of_lower hu.frames hlower (hu.sized m hm s hlower)
    have hwitness := isSome_witness_of_target hlower hplace hshape
    apply ends_callThunk_of_load hground hu hm (hclosed m hm) hlower hplace hshape hroom
    intro l p w₁ rest hloading hsequel
    exact hloading.ends_rest hsequel hsettled hu hm hclosed hs hwitness
  · intro hover
    have hends : Step.Ends (callThunk m c) w (fun _ _ => False)
        fun f w' => f = .trap (.overflow .add) ∧ Idle m s c w w' := by
      apply ends_callThunk_of_load hground hu hm (hclosed m hm) hlower hplace hshape hroom
      intro l p w₁ rest hloading _
      -- nothing that was in memory has changed when the thunk comes to the load
      have hthere := hover.keeps hground.linked.sound (fun _ _ hl => hloading.links hl)
        hloading.evolves
      rw [Step.ends_bind, Step.Ends, hthere.load]
      exact .inr ⟨rfl, hloading.idle⟩
    obtain ⟨_, w', hrun, rfl, hidle⟩ := hends.exists_error
    exact ⟨w', hrun, hidle⟩

end World

/-! ### A receiver at the end of the address space -/

namespace Crossed

open World

/-- A machine in which `set` has an implementation. -/
def installed : World := (Request.implement "set" fun _ _ => .ok []).run.final unit.start

/-- A call of `set` for a receiver from which its entry in a table is out of reach. -/
def astray : LogicalCall := { receiver := 0xfffffffffffffff8, args := [.value [1]] }

/-- The native signature of `set`. -/
def signature : Lowered :=
  match unit.layout.lower unit.pool set with
  | .ok s => s
  | .error _ => default

theorem reached_installed : Reached unit methods installed := by
  have hrooms : unit.boot.isOk = true ∧ ¬ Exhausted unit.start ∧ ¬ Exhausted installed := by
    decide +kernel
  obtain ⟨hboot, hstart, hroom⟩ := hrooms
  exact (reached_start hboot hstart).implement hroom

/-- A call of a method that is declared and implemented can stop the machine, though nobody
has written to memory and the arguments have the right shape. -/
theorem machine_stopped :
    unit.Coherent methods ∧ Reached unit methods installed ∧
      unit.hierarchy.introduces set = .ok true ∧
      (installed.machine.implementations.get? "set").isSome ∧
      unit.layout.lower unit.pool set = .ok signature ∧ astray.WellShaped signature ∧
      (callThunk set astray).fault? installed = some (.trap (.overflow .add)) := by
  refine ⟨coherent_unit, reached_installed, ?_⟩
  decide +kernel

/-- The call stops the machine before the implementation runs. -/
theorem callThunk_faults_set :
    ∃ w', callThunk set astray installed = .error (.trap (.overflow .add)) w' ∧
      Idle set signature astray installed w' := by
  have hfacts : set ∈ methods ∧ (∀ m ∈ methods, m.isClosed unit.pool = true) ∧
      unit.layout.lower unit.pool set = .ok signature ∧
      Target.ofMethod unit.hierarchy unit.pool unit.options.signingKey set
        = .ok (.virtual (.fixed 2) none) ∧
      Target.receiverIsMetadata unit.pool set = .ok true ∧ astray.WellShaped signature ∧
      ¬ Exhausted ((callThunk set astray).final installed) := by
    decide +kernel
  obtain ⟨hset, hclosed, hlower, hplace, hkind, hshape, hroom⟩ := hfacts
  have hfaults := callThunk_faults coherent_unit reached_installed.undisturbed.handled hset
    (fun m hm => Method.closed_of_isClosed (hclosed m hm)) hlower hplace hshape hroom
  apply hfaults.2
  have hmetadata : Target.metadata unit.pool set astray.receiver installed
      = .ok astray.receiver installed := by
    rw [Target.metadata, hkind]
    rfl
  exact .virtual hmetadata (.fixed (by decide))

end Crossed

end Dispatch
