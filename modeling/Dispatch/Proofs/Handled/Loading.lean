import Dispatch.Proofs.Handled

/-!
# Calls that come to a load

Whatever is in memory, a call of a thunk makes its landing, sends the arguments and gets
them out again before it looks at any table: nothing in this depends on what tables hold.
Then it loads an implementation, and goes on with what it has loaded.

## Main definitions

* `World.landingFor` — the landing that a call of a thunk makes.
* `World.Loading` — a call of a thunk that is about to load the implementation.
* `World.Sequel` — what the call does after the load.
* `World.Aftermath` — what it does after the implementation has answered.

## Main results

* `World.Grounded.ends_callThunk`, `World.ends_callThunk_of_load` — a call ends as the load
  and its sequel do.
* `World.Sequel.ends_of_call` — the sequel calls what was loaded.
-/

namespace Dispatch

open Attempt

/-- Code that is generated later loads what code generated now loads. -/
theorem Target.load_extends {p q : Pool} {m : Method} (hq : p.Extends q) (hclosed : m.Closed p)
    (target : Target) (receiver : Word) (witness : Option (Word × Word)) :
    target.load q m receiver witness = target.load p m receiver witness := by
  obtain ⟨b, hb⟩ := receiverIsMetadata_of_closed hclosed
  cases target with
  | witness index => rfl
  | virtual slot signing =>
    simp only [load, metadata, hb, receiverIsMetadata_extends hq hb]

namespace World

variable {u : Module} {refs : List Method} {w w₀ w₁ w' : World} {m : Method} {s : Lowered}
  {c : LogicalCall} {l : Landing} {p : Pool} {target : Target}

/-- The landing that a call of a thunk makes: the error slot, and the place for the
result. -/
def landingFor (m : Method) (c : LogicalCall) : Run (Option Word × Option Word) := do
  let r ← prepareThunk m
  makeLanding r.1 (resultWords r.1 c)

/-- A call of the thunk of `m` that started in `w` is about to load the implementation in
`w₁`.  All that was in memory is as it was, nothing was logged, and the landing is all
zero. -/
structure Loading (u : Module) (refs : List Method) (m : Method) (s : Lowered) (c : LogicalCall)
    (w : World) (l : Landing) (p : Pool) (target : Target) (w₁ : World) : Prop where
  regenerates : Regenerates u refs w w₁
  settled : Settled u refs w → Settled u refs w₁
  prepares : ∃ w₀, Prepares w w₀ ∧ After w₀ w₁
  log : w₁.machine.log = w.machine.log
  landing : (landingFor m c).value? w = some (l.errorSlot, l.indirectReturn)
  words : l.words = resultWords s c
  clear : ∃ floor top, l.Clear w₁.memory floor top
  pool : u.pool.Extends p
  place : Target.ofMethod u.hierarchy p u.options.signingKey m = .ok target

theorem Loading.evolves (h : Loading u refs m s c w l p target w₁) :
    w.memory.Evolves (fun _ => False) w₁.memory := by
  obtain ⟨w₀, ⟨v, hv⟩, hafter⟩ := h.prepares
  have hev : w.memory.Evolves (fun _ => False) w₀.memory := hv.evolves
  exact hev.trans hafter.evolves

theorem Loading.links (h : Loading u refs m s c w l p target w₁) {symbol : String} {a : Word}
    (hlink : w.link? symbol = some a) : w₁.link? symbol = some a := by
  obtain ⟨v, -, hs⟩ := h.regenerates
  exact hs.links symbol a hlink

/-- What a call of a thunk does once the thunk has loaded the implementation in `w`. -/
inductive Sequel (s : Lowered) (c : LogicalCall) (l : Landing) (w : World) :
    (Word → Run Report) → Prop
  | flat {parts : Parts Word} {args : List ArgValue} {spilled : List Word}
    (hconv : s.convention.isAsync = false) (hshaped : Shaped s.carriers args) :
    Sequel s c l w fun function => do
      let results ← Thunk.passFlat (callTo innerDepth) s parts args function
      let returned ← receiveFlat s parts.resumeBuffer spilled results
      report s c (l.errorSlot, l.indirectReturn) returned
  | frame {frame : Word} {parts : Parts Word} {args : List ArgValue} {spilled : List Word}
    (hconv : s.convention.isAsync = true) (hrest : parts.Rest s)
    (hshaped : Shaped s.carriers args)
    (hroom : frame.toNat + 8 * s.frameEnd ≤ w.memory.next.toNat) :
    Sequel s c l w fun function => do
      let results ← Thunk.passAsync (callTo innerDepth) s frame (parts, args) function
      let returned ← receiveFrame s.frameLayout frame l.indirectReturn spilled results
      report s c (l.errorSlot, l.indirectReturn) returned

/-- Nothing in it depends on memory but that a frame fits there. -/
theorem Sequel.later {rest : Word → Run Report} (h : Sequel s c l w rest)
    (hnext : w.memory.next.toNat ≤ w'.memory.next.toNat) : Sequel s c l w' rest := by
  cases h with
  | flat hconv hshaped => exact .flat hconv hshaped
  | frame hconv hrest hshaped hroom => exact .frame hconv hrest hshaped (Nat.le_trans hroom hnext)

/-- What a call of a thunk does once the implementation has answered. -/
inductive Aftermath (s : Lowered) (c : LogicalCall) (l : Landing) :
    (List Word → Run Report) → Prop
  | flat {resume : Option Word} {spilled : List Word} :
    Aftermath s c l fun results => do
      let results ← (if results.length = s.results.length then pure results
        else fail (.arity "call results" s.results.length results.length) : Run (List Word))
      let results ← (Thunk.returned s results : Attempt (List Word))
      let returned ← receiveFlat s resume spilled results
      report s c (l.errorSlot, l.indirectReturn) returned
  | frame {own frame : Word} {spilled : List Word} (hown : own.toNat + 8 * s.frameEnd < 2 ^ 64)
    (hframe : frame.toNat + 8 * s.frameEnd < 2 ^ 64) :
    Aftermath s c l fun results => do
      (if results.length = 0 then pure ()
        else fail (.arity "call results" 0 results.length) : Run Unit)
      let results ← loadAll own (8 * s.resultsAt) s.resultScalars.length
      storeAll frame (8 * s.resultsAt) results
      let returned ← receiveFrame s.frameLayout frame l.indirectReturn spilled []
      report s c (l.errorSlot, l.indirectReturn) returned

/-- Before the implementation is called, nothing that was in memory changes. -/
theorem Sequel.ends_of_call {rest : Word → Run Report} {Q : Report → World → Prop}
    {E : Fault → World → Prop} (h : Sequel s c l w rest) (hs : s.Sound) (hw : w.memory.Sound)
    (hfull : ∀ fault w', Exhausted w' → E fault w') (function : Word)
    (hcall : ∀ args y w₁, After w w₁ → w₁.machine.log = w.machine.log → Aftermath s c l y →
      Step.Ends (callTo innerDepth function args >>= y) w₁ Q E) :
    Step.Ends (rest function) w Q E := by
  cases h with
  | @flat parts args spilled hconv hshaped =>
    -- what is passed by address is spilled to words of its own
    simp only [Thunk.passFlat, Thunk.callFor, bind_assoc]
    rw [Step.ends_bind]
    apply (ends_flatArgs hs.carriers hshaped hw 0).imp
    case hE => exact fun fault w' hfullw => hfull fault w' hfullw
    intro native w₁ h₁
    obtain ⟨m₁, rfl, hev₁, -⟩ := h₁
    exact hcall _ _ _ ⟨steady_setMemory w m₁, hev₁⟩ rfl .flat
  | @frame frame parts args spilled hconv hrest hshaped hroom =>
    have hlimit := (hs.frame_of_async hconv).2
    -- the thunk calls with a frame of its own, behind everything that is in memory
    simp only [Thunk.passAsync, Thunk.callFrame, bind_assoc, pure_bind]
    rw [Step.ends_bind]
    apply Step.Ends.imp (ends_allocFrame hlimit hw _) (fun _ _ h => h) hfull
    intro m₁ hadded
    have hbelow := hadded.below
    have hend := m₁.next.toNat_lt
    rw [Step.ends_bind]
    apply (ends_fillFrame hs.carriers hshaped hrest (w := w.setMemory m₁) hadded.sound
      hadded.inFrame hadded.below).imp
    case hE => exact fun fault w' hfullw => hfull fault w' hfullw
    intro _ w₂ h₂
    obtain ⟨m₂, _, _, rfl, hev₂, -⟩ := h₂
    rw [suspend, Step.ends_bind, Step.ends_modify]
    have hafter : After w (w.setMemory m₂).suspended :=
      ⟨⟨rfl, rfl, rfl, rfl, rfl, rfl⟩, hadded.evolves_filled hev₂⟩
    have hown : w.memory.next.toNat + 8 * s.frameEnd < 2 ^ 64 := by omega
    have hframe : frame.toNat + 8 * s.frameEnd < 2 ^ 64 := by omega
    exact hcall _ _ _ hafter rfl (.frame hown hframe)

/-- If memory is not exhausted in the end, what is said but for exhaustion is said. -/
theorem ends_of_room {α : Type} {x : Run α} {Q : α → World → Prop} {E : Fault → World → Prop}
    (h : Step.Ends x w (fun a w' => Exhausted w' ∨ Q a w') fun f w' => Exhausted w' ∨ E f w')
    (hroom : ¬ Exhausted (x.final w)) : Step.Ends x w Q E := by
  unfold Step.Ends at h ⊢
  unfold Step.final at hroom
  split at h <;> simp_all

/-- However it ends, a tame step leaves memory exhausted that was. -/
theorem Tame.exhausted {α : Type} {x : Run α} {Q : α → World → Prop} {E : Fault → World → Prop}
    (hx : Tame x) (hw : w.Linked) (hfull : Exhausted w) :
    Step.Ends x w (fun a w' => Exhausted w' ∨ Q a w') fun f w' => Exhausted w' ∨ E f w' := by
  apply Step.Ends.imp (hx w hw)
  · intro _ _ h
    exact .inl (h.1.exhausted hfull)
  · intro _ _ h
    exact .inl (h.exhausted hfull)

/-- What a call does to memory before the implementation answers spares everything. -/
theorem After.spares (h : After w w₁) (floor : Nat) : Spares floor w w₁ :=
  h.steady.spares (h.evolves.mono fun _ _ h => h.elim)

theorem Regenerates.after (h : Regenerates u refs w w₀) (hafter : After w₀ w₁) :
    Regenerates u refs w w₁ := by
  obtain ⟨v, hv, hs⟩ := h
  exact ⟨v, hv, hs.trans (hafter.spares _)⟩

section Invoking

variable {callee : Word} {Q : Report → World → Prop} {E : Fault → World → Prop}

/-- A call with flat arguments comes to the load with its landing still all zero. -/
theorem Runs.ends_flatCall (hruns : Runs u m w₀ s callee p target) (hw₀ : w₀.Linked)
    (hconv : s.convention.isAsync = false) (hs : s.Sound) (hshape : c.WellShaped s)
    (hafter : After w₀ w) (hsound : w.memory.Sound)
    (hclear : l.Clear w.memory w₀.memory.next.toNat w.memory.next.toNat)
    (herror : l.errorSlot.isSome = s.throws)
    (hindirect : l.indirectReturn.isSome = s.hasIndirectReturn)
    (hfull : ∀ fault w', Exhausted w' → E fault w')
    (hload : ∀ w₁ rest, After w₀ w₁ → w₁.machine.log = w.machine.log →
      (∃ floor top, l.Clear w₁.memory floor top) → Sequel s c l w₁ rest →
      Step.Ends (target.load p m c.receiver (c.invocation s).witness >>= rest) w₁ Q E) :
    Step.Ends (invokeFlatCall callee s c l.errorSlot l.indirectReturn >>=
      report s c (l.errorSlot, l.indirectReturn)) w Q E := by
  rw [Step.ends_bind]
  apply ends_invokeFlatCall_of_ready hconv hs.carriers hshape hafter hsound hclear herror
    hindirect hfull
  intro m₂ parts low spilled hev₂ hlow hparts _ hinv hready
  have hafter₂ := hafter.then (steady_setMemory _ m₂) hev₂ fun _ _ h => h
  have hreceiver : parts.receiver = c.receiver := congrArg Invocation.receiver hinv
  have hwitness : parts.witness = (c.invocation s).witness := congrArg Invocation.witness hinv
  rw [Step.ends_bind, Step.Ends, hruns.flat hconv _ parts (hafter₂.continues hw₀) hready.fits]
  apply ends_forwardFlat (w := w.setMemory m₂) hs.carriers hready
  intro m₃ hunloaded
  -- only spilled arguments are moved out again, which were not there before the call
  have hafter₃ := hafter₂.then (steady_setMemory _ m₃) hunloaded.evolves fun n hn h => by
    have := hafter.evolves.next
    omega
  rw [hreceiver, hwitness]
  have hends := hload _ _ hafter₃ rfl ⟨_, _, hparts ▸ hunloaded.clear⟩
    (@Sequel.flat s c l _ parts _ spilled hconv (hready.carried.shaped fun _ _ _ h => h.length_eq))
  simpa only [Step.ends_bind] using hends

/-- A call with a frame comes to the load with its landing still all zero. -/
theorem Runs.ends_frameCall {frameSize : Option Nat} (hruns : Runs u m w₀ s callee p target)
    (hw₀ : w₀.Linked) (hconv : s.convention.isAsync = true) (hs : s.Sound)
    (hlimit : 8 * s.frameEnd < Size.limit)
    (hsize : frameSize.getD s.frameLayout.size = s.frameLayout.size) (hshape : c.WellShaped s)
    (hafter : After w₀ w) (hsound : w.memory.Sound)
    (hclear : l.Clear w.memory w₀.memory.next.toNat w.memory.next.toNat)
    (herror : l.errorSlot.isSome = s.throws)
    (hindirect : l.indirectReturn.isSome = s.hasIndirectReturn)
    (hfull : ∀ fault w', Exhausted w' → E fault w')
    (hload : ∀ w₁ rest, After w₀ w₁ → w₁.machine.log = w.machine.log →
      (∃ floor top, l.Clear w₁.memory floor top) → Sequel s c l w₁ rest →
      Step.Ends (target.load p m c.receiver (c.invocation s).witness >>= rest) w₁ Q E) :
    Step.Ends (invokeAsyncCall callee s s.frameLayout frameSize c l.errorSlot l.indirectReturn >>=
      report s c (l.errorSlot, l.indirectReturn)) w Q E := by
  rw [Step.ends_bind]
  apply ends_invokeAsyncCall_of_ready hconv hs.carriers hlimit hshape hsize hafter hsound hclear
    herror hindirect hfull
  intro m₂ frame parts low spilled hev₂ hlow howns hparts _ hinv hready
  have hafter₂ := hafter.then (steady_setMemory _ m₂) hev₂ fun _ _ h => h
  have hreceiver : parts.receiver = c.receiver := congrArg Invocation.receiver hinv
  have hwitness : parts.witness = (c.invocation s).witness := congrArg Invocation.witness hinv
  have hbelow := howns.lt_next hready.sound
  rw [Step.ends_bind, Step.Ends, hruns.async hconv _ frame (hafter₂.continues hw₀)]
  apply ends_forwardAsync (w := w.setMemory m₂) hready
  intro m₃ hunloaded
  have hnext : m₃.next = m₂.next := hunloaded.next
  -- the arguments are moved out of the frame or of spilled words, all of the call's own making
  have hafter₃ := hafter₂.then (steady_setMemory _ m₃) hunloaded.evolves fun n hn h => by
    have := hready.below
    have := hafter.evolves.next
    omega
  rw [hreceiver, hwitness]
  have hends := hload _ _ hafter₃ rfl ⟨_, _, hparts ▸ hunloaded.clear⟩
    (@Sequel.frame s c l _ frame _ _ spilled hconv (Parts.rest_withParams hready.inFrame.fits)
      (hready.carried.shaped fun _ _ _ h => h.length_eq)
      (by rw [memory_setMemory, hnext]; omega))
  simpa only [Step.ends_bind] using hends

/-- Once its thunk is ready, a call ends as the load of the implementation and its sequel
do. -/
theorem Prepared.ends_invoke {frameSize : Option Nat} (h : Prepared u m w₀ s frameSize callee)
    (hground : Grounded u refs w₀) (hu : u.Coherent refs) (hm : m ∈ refs)
    (hroom : ¬ Exhausted w₀) (hshape : c.WellShaped s)
    (hfull : ∀ fault w', Exhausted w' → E fault w')
    (hload : ∀ l p target w₁ rest, After w₀ w₁ → w₁.machine.log = w₀.machine.log →
      (makeLanding s (resultWords s c)).value? w₀ = some (l.errorSlot, l.indirectReturn) →
      l.words = resultWords s c →
      (∃ floor top, l.Clear w₁.memory floor top) → u.pool.Extends p →
      Target.ofMethod u.hierarchy p u.options.signingKey m = .ok target → Sequel s c l w₁ rest →
      Step.Ends (target.load p m c.receiver (c.invocation s).witness >>= rest) w₁ Q E) :
    Step.Ends (invoke callee s frameSize c) w₀ Q E := by
  obtain ⟨_, _, _, _, _, hlink, _, _⟩ := h.code
  obtain ⟨p, target, hruns⟩ := h.runs hground hu hm (hground.linked.lt_of_link hroom hlink)
  have hsound : s.Sound := Layout.sound_of_lower hu.frames h.lower (hu.sized m hm s h.lower)
  have hlinked := hground.linked
  rw [invoke_eq hshape.args.length_eq hshape.bindings, Step.ends_bind]
  apply (ends_makeLanding hshape.place hlinked.sound).imp_run
  case hE => exact fun fault w' _ hfullw => hfull fault w' hfullw
  intro r w₂ hrun hlanding
  obtain ⟨m₁, rfl, herror, hindirect, hev₁, hclear⟩ := hlanding
  have hafter₁ : After w₀ (w₀.setMemory m₁) := ⟨steady_setMemory w₀ m₁, hev₁⟩
  have hs₁ := hev₁.sound hlinked.sound
  have hvalue : (makeLanding s (resultWords s c)).value? w₀ = some (r.1, r.2) := by
    rw [Step.value?, hrun]
  let l : Landing := ⟨r.1, r.2, resultWords s c⟩
  have hloads : ∀ w₁ rest, After w₀ w₁ → w₁.machine.log = w₀.machine.log →
      (∃ floor top, l.Clear w₁.memory floor top) → Sequel s c l w₁ rest →
      Step.Ends (target.load p m c.receiver (c.invocation s).witness >>= rest) w₁ Q E :=
    fun w₁ rest hafter hlog hcleared =>
      hload l p target w₁ rest hafter hlog hvalue rfl hcleared hruns.pool hruns.place
  rcases hsound.frame with ⟨hconv, hframe⟩ | ⟨hconv, hframe, hlimit⟩
  · rw [invokeBody, hframe]
    exact hruns.ends_flatCall (l := l) hlinked hconv hsound hshape hafter₁ hs₁ hclear herror
      hindirect hfull hloads
  · rw [invokeBody, hframe]
    exact hruns.ends_frameCall (l := l) hlinked hconv hsound hlimit h.getD_size hshape hafter₁
      hs₁ hclear herror hindirect hfull hloads

end Invoking

/-- Whatever is in memory, a call of a thunk ends as the load of the implementation and its
sequel do, unless memory is exhausted. -/
theorem Grounded.ends_callThunk {Q : Report → World → Prop} {E : Fault → World → Prop}
    (h : Grounded u refs w) (hu : u.Coherent refs) (hm : m ∈ refs)
    (hlower : u.layout.lower u.pool m = .ok s) (hemit : u.Emittable m s) (hshape : c.WellShaped s)
    (hload : ∀ l p target w₁ rest, Loading u refs m s c w l p target w₁ → Sequel s c l w₁ rest →
      Step.Ends (target.load p m c.receiver (c.invocation s).witness >>= rest) w₁ Q
        fun f w' => Exhausted w' ∨ E f w') :
    Step.Ends (callThunk m c) w (fun a w' => Exhausted w' ∨ Q a w')
      fun f w' => Exhausted w' ∨ E f w' := by
  rw [callThunk_eq, Step.ends_bind]
  apply (h.ends_prepareThunk hu hm).imp_run
  case hE =>
    intro _ w' _ h'
    exact .inl (h'.2.resolve_right fun hno => hno s hlower hemit)
  intro r w₀ hrun h₀
  obtain ⟨hregenerates, hprepares, hprepared⟩ := h₀
  obtain ⟨own, frameSize, callee⟩ := r
  have hown : own = s := Except.ok.inj (hprepared.lower.symm.trans hlower)
  subst hown
  have hground := h.regenerates hregenerates
  -- the thunk is only found at its address while addresses fit pointers
  by_cases hroom : Exhausted w₀
  · exact (tame_invoke _ _ _ _).exhausted hground.linked hroom
  apply Step.Ends.imp (hprepared.ends_invoke hground hu hm hroom hshape (fun _ _ => .inl) _)
    (fun _ _ h' => .inr h') fun _ _ h' => h'
  intro l p target w₁ rest hafter hlog hlanding hwords hclear hpool hplace hsequel
  apply hload l p target w₁ rest _ hsequel
  exact {
    regenerates := hregenerates.after hafter
    settled := by
      intro hw
      have hw₀ := settles_prepareThunk hu hm w hw
      rw [Step.Ends, hrun] at hw₀
      exact hw₀.spares (hafter.spares 0)
    prepares := ⟨w₀, hprepares, hafter⟩
    log := by
      obtain ⟨v, hv⟩ := hprepares
      rw [hlog, hv.rest]
      rfl
    landing := by
      rw [← hlanding]
      unfold landingFor Step.value?
      rw [Step.bind_of_ok hrun]
    words := hwords
    clear := hclear
    pool := hpool
    place := hplace }

/-- A call of a thunk ends as the load from the place of the method and its sequel do, as long
as memory is not exhausted. -/
theorem ends_callThunk_of_load {Q : Report → World → Prop} {E : Fault → World → Prop}
    (h : Grounded u refs w) (hu : u.Coherent refs) (hm : m ∈ refs) (hclosed : m.Closed u.pool)
    (hlower : u.layout.lower u.pool m = .ok s)
    (hplace : Target.ofMethod u.hierarchy u.pool u.options.signingKey m = .ok target)
    (hshape : c.WellShaped s) (hroom : ¬ Exhausted ((callThunk m c).final w))
    (hload : ∀ l p w₁ rest, Loading u refs m s c w l p target w₁ → Sequel s c l w₁ rest →
      Step.Ends (target.load u.pool m c.receiver (c.invocation s).witness >>= rest) w₁ Q
        fun f w' => Exhausted w' ∨ E f w') :
    Step.Ends (callThunk m c) w Q E := by
  have hemit : u.Emittable m s := ⟨hclosed, ⟨target, hplace⟩, hu.sized m hm s hlower⟩
  apply ends_of_room _ hroom
  apply Step.Ends.imp (h.ends_callThunk hu hm hlower hemit hshape _)
    (fun _ _ h' => h') fun _ _ h' => h'
  intro l p target' w₁ rest hloading hsequel
  have htarget := hloading.place
  rw [Target.ofMethod_extends hloading.pool hplace] at htarget
  cases htarget
  rw [Target.load_extends hloading.pool hclosed]
  exact hload l p w₁ rest hloading hsequel

end World

end Dispatch
