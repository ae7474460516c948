import Dispatch.Proofs.Coherence
import Dispatch.Proofs.Footprint.Calls

/-!
# Worlds with their code in place

Whatever is in memory, a world may have its module under generation, its symbols in regions
of their own, and implementations that are called with the signature they were installed
for.  Then a thunk can be made ready, and its address leads to its code.

## Main definitions

* `World.Grounded` — a world with its code in place.
* `World.Regenerates` — more was generated, and nothing that was in memory has changed.
* `World.prepareThunk`, `World.Prepared` — a thunk that is about to be called.

## Main results

* `World.Grounded.ends_prepareThunk` — getting a thunk ready.
* `World.Prepared.runs` — calling the thunk runs its code.
-/

namespace Dispatch

open Attempt

namespace World

variable {u : Module} {refs : List Method} {w w' w₀ : World} {symbol : String} {m : Method}
  {a receiver : Word} {witness : Option (Word × Word)}

/-! ### Calling an address -/

theorem isSigned_of_le (h : 2 ^ 48 ≤ a.toNat) : Word.isSigned a = true := by
  rw [Word.isSigned, bne_iff_ne]
  intro htag
  have hnat := Word.toNat_tagOf a
  rw [htag] at hnat
  have hzero : (0 : UInt16).toNat = 0 := rfl
  omega

/-- A pointer with a tag cannot be called. -/
theorem callTo_signed (h : 2 ^ 48 ≤ a.toNat) (depth : Nat) (args : List Word) :
    callTo (depth + 1) a args = fail (.authFailure a 0) := by
  rw [callTo, if_pos (isSigned_of_le h)]

theorem callTo_native (hw : w.Linked) (hlink : w.link? symbol = some a) (ha : a.toNat < 2 ^ 48)
    {i : Implementation} (hi : w.machine.implementations.get? symbol = some i) (depth : Nat)
    (args : List Word) : callTo (depth + 1) a args w = invokeNative i args w := by
  rw [callTo, if_neg (by rw [Word.isSigned_of_lt ha]; exact Bool.false_ne_true),
    Step.bind_of_ok Step.run_get]
  simp only [hw.nameAt? hlink, hi]

theorem callTo_function (hw : w.Linked) (hlink : w.link? symbol = some a) (ha : a.toNat < 2 ^ 48)
    (hi : w.machine.implementations.get? symbol = none) {f : Function}
    (hf : w.module.function? symbol = some f) (depth : Nat) (args : List Word) :
    callTo (depth + 1) a args w = run (callTo depth) f args w := by
  rw [callTo, if_neg (by rw [Word.isSigned_of_lt ha]; exact Bool.false_ne_true),
    Step.bind_of_ok Step.run_get]
  simp only [hw.nameAt? hlink, hi, hf]

theorem callTo_unknown (hw : w.Linked) (hlink : w.link? symbol = some a) (ha : a.toNat < 2 ^ 48)
    (hi : w.machine.implementations.get? symbol = none) (hf : w.module.function? symbol = none)
    (depth : Nat) (args : List Word) :
    callTo (depth + 1) a args w = (fail (.unknownCallee symbol) : Run (List Word)) w := by
  rw [callTo, if_neg (by rw [Word.isSigned_of_lt ha]; exact Bool.false_ne_true),
    Step.bind_of_ok Step.run_get]
  simp only [hw.nameAt? hlink, hi, hf]

/-- What a running call keeps of the world that it started in. -/
structure Continues (w w' : World) : Prop where
  module : w'.module = w.module
  implementations : w'.machine.implementations = w.machine.implementations
  links : ∀ symbol a, w.link? symbol = some a → w'.link? symbol = some a
  linked : w'.Linked

theorem After.continues (h : After w w') (hw : w.Linked) : Continues w w' where
  module := h.steady.module
  implementations := h.steady.implementations
  links symbol a hl := by
    rw [link?, h.steady.symbols]
    exact hl
  linked := hw.evolves h.steady.symbols h.evolves

theorem Spares.continues {floor : Nat} (h : Spares floor w w') (hw : w.Linked) :
    Continues w w' := ⟨h.module, h.implementations, h.links, h.linked hw⟩

/-! ### Worlds with their code in place -/

/-- A world whose module is one under generation, with symbols in regions of their own, and
with implementations that are installed with the signature that they are called with.
Nothing is said of what is in memory. -/
structure Grounded (u : Module) (refs : List Method) (w : World) : Prop where
  linked : w.Linked
  laidOut : ∀ c ∈ u.hierarchy.classes, ∃ metadata,
    w.machine.classes.get? c.name = some metadata
  generated : u.Generated refs w.module
  declared : ∃ implementations, u.hierarchy.implementations = .ok implementations
  signatures : ∀ symbol m, w.machine.signatures.get? symbol = some m → u.Implements symbol m
  implementations : ∀ symbol i, w.machine.implementations.get? symbol = some i →
    i.symbol = symbol ∧ ∃ m, u.Implements symbol m ∧ u.layout.lower u.pool m = .ok i.signature

theorem Grounded.firm (h : Grounded u refs w) : Firm w.memory.next.toNat w :=
  ⟨h.linked, Nat.le_refl _⟩

theorem Grounded.spares {floor : Nat} (h : Grounded u refs w) (hs : Spares floor w w') :
    Grounded u refs w' where
  linked := hs.linked h.linked
  laidOut := hs.classes ▸ h.laidOut
  generated := hs.module ▸ h.generated
  declared := h.declared
  signatures := hs.signatures ▸ h.signatures
  implementations := hs.implementations ▸ h.implementations

/-- The world with another module. -/
def setModule (w : World) (v : Module) : World := { w with module := v }

@[simp] theorem module_setModule (w : World) (v : Module) : (w.setModule v).module = v := rfl

theorem Grounded.setModule (h : Grounded u refs w) {v : Module} (hv : u.Generated refs v) :
    Grounded u refs (w.setModule v) where
  linked := ⟨h.linked.sound, h.linked.keys, h.linked.owns, h.linked.apart⟩
  laidOut := h.laidOut
  generated := hv
  declared := h.declared
  signatures := h.signatures
  implementations := h.implementations

theorem ends_withModule {α : Type} {x : Generate α} {Q : α → World → Prop}
    {E : Fault → World → Prop} :
    Step.Ends (withModule x) w Q E ↔ Step.Ends x w.module (fun b v => Q b (w.setModule v))
      fun f v => E f (w.setModule v) := by
  rw [withModule, Step.ends_zoom]
  rfl

/-- Addresses of symbols are addresses of pointers. -/
theorem Linked.lt_of_link (h : w.Linked) (hroom : ¬ Exhausted w)
    (hlink : w.link? symbol = some a) : a.toNat < 2 ^ 48 := by
  have hend := (h.owns symbol a hlink).lt_next h.sound
  rw [Exhausted, Nat.not_lt] at hroom
  omega

theorem Grounded.sound (h : Grounded u refs w) (hu : u.Coherent refs) {i : Implementation}
    (hi : w.machine.implementations.get? symbol = some i) : i.signature.Sound := by
  obtain ⟨-, m, hm, hlower⟩ := h.implementations symbol i hi
  exact Layout.sound_of_lower hu.frames hlower
    (hu.sized m (hu.mem_of_implements hm) _ hlower)

/-- No implementation is installed behind the symbol of a thunk. -/
theorem Grounded.not_implemented (h : Grounded u refs w) (hu : u.Coherent refs) (hm : m ∈ refs)
    (hsymbol : m.thunkSymbol u.pool = .ok symbol) :
    w.machine.implementations.get? symbol = none := by
  cases hi : w.machine.implementations.get? symbol with
  | none => rfl
  | some i =>
    obtain ⟨-, m', hm', -⟩ := h.implementations symbol i hi
    exact absurd hsymbol (hu.apart symbol m' m hm' hm)

/-! ### Getting ready -/

/-- The world `w'` is `w` with perhaps more generated and more symbols. -/
def Prepares (w w' : World) : Prop := ∃ v, Extends (fun _ => False) (w.setModule v) w'

theorem Prepares.refl (w : World) : Prepares w w := ⟨w.module, .refl _ _⟩

theorem Prepares.trans {w₁ w₂ w₃ : World} (h : Prepares w₁ w₂) (h' : Prepares w₂ w₃) :
    Prepares w₁ w₃ := by
  obtain ⟨v, hv⟩ := h
  obtain ⟨v', hv'⟩ := h'
  refine ⟨v', ⟨?_, fun symbol a hl => hv'.links symbol a (hv.links symbol a hl), ?_⟩⟩
  · rw [hv'.rest, hv.rest]
    rfl
  · have hev : w₁.memory.Evolves (fun _ => False) w₂.memory := hv.evolves
    have hev' : w₂.memory.Evolves (fun _ => False) w₃.memory := hv'.evolves
    exact hev.trans hev'

theorem Prepares.link (h : Prepares w w') {symbol : String} {a : Word}
    (hl : w.link? symbol = some a) : w'.link? symbol = some a := by
  obtain ⟨v, hv⟩ := h
  exact hv.links symbol a hl

theorem Prepares.implementations (h : Prepares w w') :
    w'.machine.implementations = w.machine.implementations := by
  obtain ⟨v, hv⟩ := h
  rw [hv.rest]
  rfl

theorem Prepares.classes (h : Prepares w w') : w'.machine.classes = w.machine.classes := by
  obtain ⟨v, hv⟩ := h
  exact hv.classes_eq

theorem Prepares.selects (h : Prepares w w') (hw : w.memory.Sound)
    (hs : Selects u w m receiver witness symbol) : Selects u w' m receiver witness symbol := by
  obtain ⟨v, hv⟩ := h
  exact hs.keeps hw hv.classes_eq hv.witnessTables_eq hv.evolves

theorem prepares_setModule (w : World) (v : Module) : Prepares w (w.setModule v) := ⟨v, .refl _ _⟩

/-- More was generated, and nothing that was in memory has changed. -/
def Regenerates (u : Module) (refs : List Method) (w w' : World) : Prop :=
  ∃ v, u.Generated refs v ∧ Spares w.memory.next.toNat (w.setModule v) w'

theorem regenerates_setModule {v : Module} (hv : u.Generated refs v) :
    Regenerates u refs w (w.setModule v) := ⟨v, hv, .refl _ _⟩

theorem Grounded.regenerates (h : Grounded u refs w) (hr : Regenerates u refs w w') :
    Grounded u refs w' := by
  obtain ⟨v, hv, hs⟩ := hr
  exact (h.setModule hv).spares hs

theorem Grounded.ends_addressOf (h : Grounded u refs w) (symbol : String) :
    Step.Ends (addressOf symbol) w (fun a w' => Spares w.memory.next.toNat w w' ∧ Prepares w w' ∧
        w'.link? symbol = some a)
      fun _ w' => Spares w.memory.next.toNat w w' ∧ Exhausted w' := by
  apply Step.Ends.imp (Step.Ends.and (spared_addressOf h.firm symbol)
    (World.ends_addressOf h.linked symbol))
  · intro a w' h'
    exact ⟨h'.1.1, ⟨w.module, h'.2.2.2⟩, h'.1.2⟩
  · intro _ w' h'
    exact h'

/-! ### Getting a thunk ready -/

/-- The first part of a call of a thunk: its signature, the size of its frame, and its
address. -/
def prepareThunk (m : Method) : Run (Lowered × Option Nat × Word) := do
  let entry ← withModule (Module.declareThunk m)
  let _ ← withModule (Module.defineThunk m)
  let frameSize ← publishedFrameSize m
  let callee ← addressOf entry.symbol
  return (entry.declaration, frameSize, callee)

theorem callThunk_eq (m : Method) (c : LogicalCall) :
    callThunk m c = (do
      let r ← prepareThunk m
      invoke r.2.2 r.1 r.2.1 c) := by
  simp only [callThunk, prepareThunk, bind_assoc, pure_bind]

/-- A thunk that is about to be called: its code is there, its address leads to it, and
the size of its frame is the one that is published. -/
structure Prepared (u : Module) (m : Method) (w : World) (s : Lowered) (frameSize : Option Nat)
    (callee : Word) : Prop where
  lower : u.layout.lower u.pool m = .ok s
  code : ∃ symbol f p target, m.thunkSymbol u.pool = .ok symbol ∧ w.link? symbol = some callee ∧
    w.module.function? symbol = some f ∧ u.Forwards m s f p target
  size : frameSize = if s.convention.isAsync then some s.frameLayout.size else none
  published : s.convention.isAsync = true → ∀ symbol, m.thunkSymbol u.pool = .ok symbol →
    w.module.globals.get? (asyncPointerSymbol symbol)
      = some (.asyncPointer symbol s.frameLayout.size)

theorem Prepared.getD_size {s : Lowered} {frameSize : Option Nat} {callee : Word}
    (h : Prepared u m w s frameSize callee) :
    frameSize.getD s.frameLayout.size = s.frameLayout.size := by
  rw [h.size]
  cases s.convention.isAsync with
  | true => rfl
  | false => rfl

/-- The size in the async function pointer is that of the standard frame. -/
theorem ends_publishedFrameSize (hw : u.Generated refs w.module) (hrefs : u.References refs)
    (hu : u.layout.frameEdits = []) (hm : m ∈ refs) {s : Lowered}
    (hs : u.layout.lower u.pool m = .ok s) :
    Step.Ends (publishedFrameSize m) w (fun size w' => ∃ v, w' = w.setModule v ∧
      u.Generated refs v ∧ (∀ e, w.module.thunks.get? m = some e → v.thunks.get? m = some e) ∧
      (s.convention.isAsync = true → ∀ symbol, m.thunkSymbol u.pool = .ok symbol →
        v.globals.get? (asyncPointerSymbol symbol)
          = some (.asyncPointer symbol s.frameLayout.size)) ∧
      size = if s.convention.isAsync then some s.frameLayout.size else none)
      fun _ _ => False := by
  have hconv := (Layout.lowers_of_lower hs).convention
  rw [publishedFrameSize, hconv]
  cases hasync : m.convention.isAsync with
  | false =>
    refine ⟨w.module, rfl, hw, fun _ h => h, ?_, rfl⟩
    intro hyes
    cases hyes
  | true =>
    simp only [if_true, Step.ends_bind, ends_withModule, Module.asyncPointer, hasync]
    refine (Module.ends_declareThunk hw hrefs hm).imp (fun entry v h => ?_)
      fun _ _ h => h.2 s hs
    obtain ⟨hv, hget, hold, hpointer⟩ := h
    have hdeclaration := (hv.thunks m entry hget).declaration
    rw [hs] at hdeclaration
    cases hdeclaration
    have hframe : entry.declaration.frame = some entry.declaration.frameLayout := by
      rcases Layout.frame_of_lower hu hs with ⟨hno, -⟩ | ⟨-, hframe, -⟩
      · rw [hconv, hasync] at hno
        cases hno
      · exact hframe
    rw [Step.ends_pure, Step.ends_get]
    rw [module_setModule, hpointer _ hframe]
    refine ⟨v, rfl, hv, fun e he => by rw [hget, hold e he], fun _ symbol hsymbol => ?_, rfl⟩
    rw [(hv.thunks m entry hget).symbol, Except.ok.injEq] at hsymbol
    subst hsymbol
    exact hpointer _ hframe

/-- Getting a thunk ready changes the module and gives the thunk an address; it is given
up if the thunk has no code, or if memory is exhausted. -/
theorem Grounded.ends_prepareThunk (h : Grounded u refs w) (hu : u.Coherent refs) (hm : m ∈ refs) :
    Step.Ends (prepareThunk m) w (fun r w' => Regenerates u refs w w' ∧
        Prepares w w' ∧ Prepared u m w' r.1 r.2.1 r.2.2)
      fun _ w' => Regenerates u refs w w' ∧
        (Exhausted w' ∨ ∀ s, u.layout.lower u.pool m = .ok s → ¬ u.Emittable m s) := by
  have hrefs := hu.references
  rw [prepareThunk, Step.ends_bind, ends_withModule]
  refine (Module.ends_declareThunk h.generated hrefs hm).imp (fun entry v₁ h₁ => ?_)
    fun _ v₁ h₁ => ?_
  case refine_2 =>
    rw [h₁.1]
    exact ⟨regenerates_setModule h.generated, .inr fun s hs => absurd hs (h₁.2 s)⟩
  obtain ⟨hv₁, hget₁, -, -⟩ := h₁
  have hthunk := hv₁.thunks m entry hget₁
  rw [Step.ends_bind, ends_withModule]
  refine (Module.ends_defineThunk hv₁ hrefs hu.frames hm).imp (fun f v₂ h₂ => ?_)
    fun _ v₂ h₂ => ?_
  case refine_2 => exact ⟨regenerates_setModule h₂.1, .inr h₂.2⟩
  obtain ⟨hv₂, entry₂, hget₂, hbody⟩ := h₂
  -- the entry that was defined is the one that was declared
  have hthunk₂ := hv₂.thunks m entry₂ hget₂
  have hsymbol : entry₂.symbol = entry.symbol := by
    have := hthunk₂.symbol.symm.trans hthunk.symbol
    exact Except.ok.inj this
  have hdeclaration : entry₂.declaration = entry.declaration :=
    Except.ok.inj (hthunk₂.declaration.symm.trans hthunk.declaration)
  rw [Step.ends_bind]
  refine (ends_publishedFrameSize (w := w.setModule v₂) hv₂ hrefs hu.frames hm
    hthunk.declaration).imp (fun size w₃ h₃ => ?_) fun _ _ h => h.elim
  obtain ⟨v₃, rfl, hv₃, hkept, hpublished, hsize⟩ := h₃
  have hget₃ := hkept entry₂ hget₂
  have hfunction : v₃.function? entry.symbol = some f := by
    rw [Module.function?, ← hsymbol, hv₃.bySymbol? hrefs hget₃, Option.bind_some, hbody]
    rfl
  obtain ⟨p, target, hforwards⟩ := hthunk₂.body f hbody
  rw [Step.ends_bind]
  refine ((h.setModule hv₃).ends_addressOf entry.symbol).imp (fun callee w₄ h₄ => ?_)
    fun _ w₄ h₄ => ⟨⟨v₃, hv₃, h₄.1⟩, .inl h₄.2⟩
  obtain ⟨hspares, hprepares, hlink⟩ := h₄
  have hmodule : w₄.module = v₃ := hspares.module
  refine ⟨⟨v₃, hv₃, hspares⟩, (prepares_setModule w v₃).trans hprepares, hthunk.declaration, ?_,
    hsize, hmodule ▸ hpublished⟩
  refine ⟨entry.symbol, f, p, target, hthunk.symbol, hlink, ?_, hdeclaration ▸ hforwards⟩
  rw [hmodule]
  exact hfunction

/-! ### Running a thunk -/

section Thunks

variable {s : Lowered} {frameSize : Option Nat} {callee : Word} {p : Pool} {target : Target}

/-- How deep the calls of a thunk may nest. -/
def innerDepth : Nat := maxCallDepth - 1

theorem call_eq (callee : Word) : call callee = callTo (innerDepth + 1) callee := rfl

/-- The code of a thunk that is about to be called, and what it does from then on. -/
structure Runs (u : Module) (m : Method) (w₀ : World) (s : Lowered) (callee : Word) (p : Pool)
    (target : Target) : Prop where
  pool : u.pool.Extends p
  place : Target.ofMethod u.hierarchy p u.options.signingKey m = .ok target
  flat : s.convention.isAsync = false → ∀ w parts, Continues w₀ w → parts.Fits s →
    call callee parts.toList w = Thunk.forwardFlat (callTo innerDepth) p m target s parts w
  async : s.convention.isAsync = true → ∀ w frame, Continues w₀ w →
    call callee [frame] w = Thunk.forwardAsync (callTo innerDepth) p m target s frame w

theorem Prepared.runs (h : Prepared u m w₀ s frameSize callee) (hground : Grounded u refs w₀)
    (hu : u.Coherent refs) (hm : m ∈ refs) (hcallee : callee.toNat < 2 ^ 48) :
    ∃ p target, Runs u m w₀ s callee p target := by
  obtain ⟨symbol, f, p, target, hsymbol, hlink, hfunction, hforwards⟩ := h.code
  have hnone := hground.not_implemented hu hm hsymbol
  have hcall : ∀ w args, Continues w₀ w →
      call callee args w = run (callTo innerDepth) f args w := by
    intro w args hw
    rw [call_eq]
    refine callTo_function hw.linked (hw.links _ _ hlink) hcallee ?_ ?_ _ _
    · rw [hw.implementations]
      exact hnone
    · rw [hw.module]
      exact hfunction
  have hknown : ∀ w, Continues w₀ w → ∀ c, c ∈ s.carriers ∨ c = s.result → c.KnownTo w := by
    intro w hw c hc
    refine (Layout.lowers_of_lower h.lower).knownTo (hu.references.known hm) ?_ ?_ hc
    · rw [hw.module]
      exact hground.generated.layout
    · rw [hw.module]
      exact hground.generated.pool
  refine ⟨p, target, hforwards.pool, hforwards.place, fun hs w parts hw hfits => ?_,
    fun hs w frame hw => ?_⟩
  · rw [hcall w _ hw]
    exact hforwards.flat hs _ w parts (keepsModule_callTo _)
      (fun c hc => hknown w hw c (.inl hc)) (hknown w hw _ (.inr rfl)) hfits
  · rw [hcall w _ hw]
    exact hforwards.async hs _ w frame

end Thunks

end World

end Dispatch
