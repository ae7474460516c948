import Dispatch.Proofs.Readiness.Grounded

/-!
# Worlds that are ready for calls

Between requests a world has its tables in memory, its module is one under generation, and
every implementation is called with the signature it was installed for.  Then the address
of a symbol leads to its code, and a thunk in front of an implementation does what the
implementation does.

## Main definitions

* `World.Ready` — a world between requests.

## Main results

* `World.ends_prepareThunk` — getting a thunk ready.
* `World.Prepared.serves` — a thunk serves calls as the body does that the call is for.
* `World.Prepared.callSpared` — a thunk spares what was there before the call.
-/

namespace Dispatch

open Attempt

namespace World

variable {u : Module} {refs : List Method} {w w' w₀ : World} {symbol : String} {m : Method}
  {a receiver : Word} {witness : Option (Word × Word)}

/-! ### Worlds between requests -/

/-- A world between requests: its tables are in memory, its module is one under
generation, and implementations are installed with the signature that they are called
with. -/
structure Ready (u : Module) (refs : List Method) (w : World) : Prop where
  tabled : Tabled u w
  generated : u.Generated refs w.module
  declared : ∃ implementations, u.hierarchy.implementations = .ok implementations
  signatures : ∀ symbol m, w.machine.signatures.get? symbol = some m → u.Implements symbol m
  implementations : ∀ symbol i, w.machine.implementations.get? symbol = some i →
    i.symbol = symbol ∧ ∃ m, u.Implements symbol m ∧ u.layout.lower u.pool m = .ok i.signature

theorem Spares.evolves_below (h : Spares w.memory.next.toNat w w') :
    w.memory.Evolves (fun _ => False) w'.memory :=
  h.evolves.mono fun _ hn hle => absurd hn (Nat.not_lt.mpr hle)

theorem Tabled.spares (h : Tabled u w) (hs : Spares w.memory.next.toNat w w') : Tabled u w' :=
  h.keeps (hs.linked h.linked) hs.links hs.classes hs.witnessTables hs.evolves_below

theorem Selects.spares (h : Selects u w m receiver witness symbol) (hw : w.memory.Sound)
    (hs : Spares w.memory.next.toNat w w') : Selects u w' m receiver witness symbol :=
  h.keeps hw hs.classes hs.witnessTables hs.evolves_below

theorem Ready.spares (h : Ready u refs w) (hs : Spares w.memory.next.toNat w w') :
    Ready u refs w' where
  tabled := h.tabled.spares hs
  generated := hs.module ▸ h.generated
  declared := h.declared
  signatures := hs.signatures ▸ h.signatures
  implementations := hs.implementations ▸ h.implementations

theorem Ready.firm (h : Ready u refs w) : Firm w.memory.next.toNat w :=
  ⟨h.tabled.linked, Nat.le_refl _⟩

/-- However it ends, a step that spares what was there leaves a world between requests. -/
theorem Ready.of_spared {α : Type} {x : Run α} {Q : α → World → Prop} (h : Ready u refs w)
    (hx : Spared w.memory.next.toNat x w Q) :
    Step.Ends x w (fun _ w' => Ready u refs w') fun _ w' => Ready u refs w' :=
  Step.Ends.imp hx (fun _ _ hs => h.spares hs.1) fun _ _ hs => h.spares hs

theorem Ready.setModule (h : Ready u refs w) {v : Module} (hv : u.Generated refs v) :
    Ready u refs (w.setModule v) where
  tabled := h.tabled.keeps ⟨h.tabled.linked.sound, h.tabled.linked.keys, h.tabled.linked.owns,
    h.tabled.linked.apart⟩ (fun _ _ hs => hs) rfl rfl (.refl _ _)
  generated := hv
  declared := h.declared
  signatures := h.signatures
  implementations := h.implementations

/-- Addresses of symbols are addresses of pointers. -/
theorem lt_of_link (h : Tabled u w) (hroom : ¬ Exhausted w) (hlink : w.link? symbol = some a) :
    a.toNat < 2 ^ 48 := h.linked.lt_of_link hroom hlink

theorem Ready.grounded (h : Ready u refs w) : Grounded u refs w where
  linked := h.tabled.linked
  laidOut := h.tabled.declared
  generated := h.generated
  declared := h.declared
  signatures := h.signatures
  implementations := h.implementations

theorem Ready.regenerates (h : Ready u refs w) (hr : Regenerates u refs w w') :
    Ready u refs w' := by
  obtain ⟨v, hv, hs⟩ := hr
  exact (h.setModule hv).spares hs

theorem Ready.sound (h : Ready u refs w) (hu : u.Coherent refs) {i : Implementation}
    (hi : w.machine.implementations.get? symbol = some i) : i.signature.Sound :=
  h.grounded.sound hu hi

/-! ### Getting ready -/

/-- Asking for an address in a world between requests. -/
theorem Ready.ends_addressOf (h : Ready u refs w) (symbol : String) :
    Step.Ends (addressOf symbol) w (fun a w' => Ready u refs w' ∧ Prepares w w' ∧
        w'.module = w.module ∧ w'.link? symbol = some a)
      fun _ w' => Ready u refs w' ∧ Exhausted w' := by
  apply (h.grounded.ends_addressOf symbol).imp
  · intro a w' h'
    exact ⟨h.spares h'.1, h'.2.1, h'.1.module, h'.2.2⟩
  · intro _ w' h'
    exact ⟨h.spares h'.1, h'.2⟩

/-- Getting a thunk ready changes the module and gives the thunk an address; it is given
up if the thunk has no code, or if memory is exhausted. -/
theorem ends_prepareThunk (h : Ready u refs w) (hu : u.Coherent refs) (hm : m ∈ refs) :
    Step.Ends (prepareThunk m) w (fun r w' => Ready u refs w' ∧
        Prepares w w' ∧ Prepared u m w' r.1 r.2.1 r.2.2)
      fun _ w' => Ready u refs w' ∧
        (Exhausted w' ∨ ∀ s, u.layout.lower u.pool m = .ok s → ¬ u.Emittable m s) :=
  (h.grounded.ends_prepareThunk hu hm).imp (fun _ _ h' => ⟨h.regenerates h'.1, h'.2⟩)
    fun _ _ h' => ⟨h.regenerates h'.1, h'.2⟩

/-! ### Running a thunk -/

section Thunks

variable {s : Lowered} {frameSize : Option Nat} {callee function : Word} {p : Pool}
  {target : Target}

theorem Serves.congr {callee callee' : List Word → Run (List Word)} {inv : Invocation}
    {o : Outcome} {count hops : Nat} {left : List Word → List Word}
    (h : Serves callee s w₀ symbol inv o count hops left)
    (heq : ∀ w args, After w₀ w → callee' args w = callee args w) :
    Serves callee' s w₀ symbol inv o count hops left where
  flat hs := by
    refine ⟨(h.flat hs).1, fun w parts low high spilled hafter hinv hready => ?_⟩
    rw [Step.Ends, heq w _ hafter]
    exact (h.flat hs).2 w parts low high spilled hafter hinv hready
  frame hs := by
    intro w frame parts low high spilled old hafter hinv hready
    rw [Step.Ends, heq w _ hafter]
    exact h.frame hs w frame parts low high spilled old hafter hinv hready
  fresh := h.fresh

/-- An implementation behind an address serves calls. -/
theorem serves_callTo {i : Implementation} {inv : Invocation} {o : Outcome} {count : Nat}
    (hready : Ready u refs w₀) (hu : u.Coherent refs)
    (hi : w₀.machine.implementations.get? symbol = some i)
    (hlink : w₀.link? symbol = some function) (hfunction : function.toNat < 2 ^ 48)
    (hbody : ∀ memory, i.body inv memory = o) (ho : o.Suits i.signature count) (depth : Nat) :
    Serves (callTo (depth + 1) function) i.signature w₀ symbol inv o count 0
      (i.signature.keptResult o) := by
  have hserves : Serves (invokeNative i) i.signature w₀ i.symbol inv o count 0
      (i.signature.keptResult o) :=
    serves_invokeNative (hready.sound hu hi) hbody ho
  rw [(hready.implementations symbol i hi).1] at hserves
  refine hserves.congr fun w args hafter => ?_
  have hw := hafter.continues hready.tabled.linked
  exact callTo_native hw.linked (hw.links _ _ hlink) hfunction (by rw [hw.implementations]; exact hi)
    depth args

/-- A thunk serves calls as the body does that the call is for. -/
theorem Prepared.serves {i : Implementation} {inv : Invocation} {o : Outcome} {count : Nat}
    (h : Prepared u m w₀ s frameSize callee) (hready : Ready u refs w₀) (hu : u.Coherent refs)
    (hm : m ∈ refs) (hroom : ¬ Exhausted w₀)
    (hselects : Selects u w₀ m inv.receiver inv.witness symbol)
    (hi : w₀.machine.implementations.get? symbol = some i) (hsignature : i.signature = s)
    (hbody : ∀ memory, i.body inv memory = o) (ho : o.Suits s count) :
    Serves (call callee) s w₀ symbol inv o count (thunkHops s 0) fun _ => s.inlineResult o := by
  obtain ⟨_, _, _, _, _, hcallee, _, _⟩ := h.code
  obtain ⟨p, target, hruns⟩ := h.runs hready.grounded hu hm (lt_of_link hready.tabled hroom hcallee)
  have hlinked := hready.tabled.linked
  obtain ⟨function, hfunction, -⟩ := hselects.load hready.tabled hu.hierarchy hruns.pool
    hruns.place fun a ha => lt_of_link hready.tabled hroom ha
  have hbound := lt_of_link hready.tabled hroom hfunction
  have hsound : s.Sound := hsignature ▸ hready.sound hu hi
  refine serves_forward hsound ho
    (fun hs w parts hafter => hruns.flat hs w parts (hafter.continues hlinked))
    (fun hs w frame hafter => hruns.async hs w frame (hafter.continues hlinked))
    (fun w hafter => ?_)
    (hsignature ▸ serves_callTo hready hu hi hfunction hbound hbody (hsignature ▸ ho) _)
  obtain ⟨a, ha, hload⟩ := (hselects.after hlinked.sound hafter).load (hready.tabled.after hafter)
    hu.hierarchy hruns.pool hruns.place fun a ha => by
      rw [(hafter.continues hlinked).links _ _ hfunction] at ha
      cases ha
      exact hbound
  rw [(hafter.continues hlinked).links _ _ hfunction] at ha
  cases ha
  exact hload

/-- The generated code behind a symbol that no thunk has only reads. -/
theorem onlyReads_of_function? {v : Module} (hv : u.Generated refs v)
    (hno : ∀ m ∈ refs, m.thunkSymbol u.pool ≠ .ok symbol) {f : Function}
    (hf : v.function? symbol = some f) : f.onlyReads = true := by
  have hthunk : v.thunks.bySymbol? symbol = none := by
    refine Registry.bySymbol?_eq_none hv.thunkKeys fun m entry hget hsymbol => ?_
    have hentry := hv.thunks m entry hget
    exact hno m hentry.mem (by rw [hentry.symbol, hsymbol])
  rw [Module.function?, hthunk] at hf
  cases hlookup : v.lookups.bySymbol? symbol with
  | none =>
    rw [hlookup] at hf
    cases hf
  | some entry =>
    rw [hlookup] at hf
    obtain ⟨className, hget, -⟩ := Registry.exists_of_bySymbol? hv.lookupKeys hlookup
    obtain ⟨plan, -, hplan⟩ := (hv.lookups className entry hget).body f hf
    rw [plan.function_eq] at hplan
    cases hplan
    exact plan.onlyReads_function _

/-- A call of a pointer with a tag changes nothing. -/
theorem callSpared_signed {floor : Nat} (h : 2 ^ 48 ≤ a.toNat) :
    CallSpared floor (call a) s w₀ receiver witness := by
  refine .of_all fun w args _ => ?_
  rw [call_eq, callTo_signed h]
  exact spared_fail _

/-- What stands behind the symbol of an implementation, whether or not it is installed,
spares what was there before the call. -/
theorem callSpared_callTo (hready : Ready u refs w₀) (hu : u.Coherent refs) {m' : Method}
    (hm' : u.Implements symbol m') (hlower : u.layout.lower u.pool m' = .ok s)
    (hlink : w₀.link? symbol = some function) (hfunction : function.toNat < 2 ^ 48) (depth : Nat) :
    CallSpared w₀.memory.next.toNat (callTo (depth + 1) function) s w₀ receiver witness := by
  cases hi : w₀.machine.implementations.get? symbol with
  | some i =>
    obtain ⟨-, m'', hm'', hlower''⟩ := hready.implementations symbol i hi
    have hsignature : i.signature = s := by
      rw [hu.signatures symbol m'' m' hm'' hm', hlower] at hlower''
      exact (Except.ok.inj hlower'').symm
    have hspared : CallSpared w₀.memory.next.toNat (invokeNative i) i.signature w₀ receiver
        witness := callSpared_invokeNative (hready.sound hu hi) hready.firm
    rw [hsignature] at hspared
    refine hspared.congr fun w args hw => ?_
    have hw := hw.continues hready.tabled.linked
    exact callTo_native hw.linked (hw.links _ _ hlink) hfunction
      (by rw [hw.implementations]; exact hi) depth args
  | none =>
    refine .of_all fun w args hw => ?_
    have hcontinues := hw.continues hready.tabled.linked
    have hnone : w.machine.implementations.get? symbol = none := by
      rw [hcontinues.implementations]
      exact hi
    cases hf : w.module.function? symbol with
    | some f =>
      have hreads : f.onlyReads = true := by
        rw [hcontinues.module] at hf
        exact onlyReads_of_function? hready.generated (fun m hm => hu.apart symbol m' m hm' hm) hf
      rw [Spared, Step.Ends, callTo_function hcontinues.linked (hcontinues.links _ _ hlink) hfunction
        hnone hf]
      exact spared_run (.inl hreads) (hw.firm hready.firm) args
    | none =>
      rw [Spared, Step.Ends, callTo_unknown hcontinues.linked (hcontinues.links _ _ hlink) hfunction
        hnone hf]
      have hfail : Spared w₀.memory.next.toNat (fail (.unknownCallee symbol) : Run (List Word)) w
        Anything := spared_fail _
      exact hfail

/-- A thunk spares what was there before the call. -/
theorem Prepared.callSpared (h : Prepared u m w₀ s frameSize callee) (hready : Ready u refs w₀)
    (hu : u.Coherent refs) (hm : m ∈ refs)
    (hshape : ∀ base, u.hierarchy.introducing m = .ok base → m.SameShape base)
    (hselects : Selects u w₀ m receiver witness symbol)
    (hbound : ∀ a, w₀.link? symbol = some a → a.toNat < 2 ^ 48) :
    CallSpared w₀.memory.next.toNat (call callee) s w₀ receiver witness := by
  by_cases hcallee : callee.toNat < 2 ^ 48
  case neg => exact callSpared_signed (Nat.not_lt.mp hcallee)
  obtain ⟨p, target, hruns⟩ := h.runs hready.grounded hu hm hcallee
  have hlinked := hready.tabled.linked
  obtain ⟨implementations, himpl⟩ := hready.declared
  obtain ⟨base, hbase, -⟩ := hselects.implements hu.hierarchy himpl
  have hlower := (hselects.signature hu himpl hshape hbase).trans h.lower
  obtain ⟨function, hfunction, -⟩ := hselects.load hready.tabled hu.hierarchy hruns.pool
    hruns.place hbound
  have hsound : s.Sound := Layout.sound_of_lower hu.frames h.lower (hu.sized m hm s h.lower)
  refine callSpared_forward hready.firm hsound
    (fun hs w parts hw => hruns.flat hs w parts (hw.continues hlinked))
    (fun hs w frame hw => hruns.async hs w frame (hw.continues hlinked))
    (fun w hw => ?_)
    (callSpared_callTo hready hu hbase hlower hfunction (hbound function hfunction) _)
  have hkept := (hw.continues hlinked).links _ _ hfunction
  obtain ⟨a, ha, hload⟩ := (hselects.spares hlinked.sound hw).load (hready.tabled.spares hw)
    hu.hierarchy hruns.pool hruns.place fun a ha => by
      rw [hkept] at ha
      cases ha
      exact hbound _ hfunction
  rw [hkept] at ha
  cases ha
  exact hload

end Thunks

end World

end Dispatch
