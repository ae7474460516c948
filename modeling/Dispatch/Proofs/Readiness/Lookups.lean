import Dispatch.Proofs.Readiness

/-!
# Look-ups that are about to happen

Both ways to look a method up ask for symbols first: that of the method's descriptor, and
that of the look-up function or of the class's type descriptor.  Declaring them changes
the module and perhaps gives symbols addresses; the look-up itself only reads.

## Main definitions

* `World.prepareLookup`, `World.LookupReady` — a look-up function that is about to be
  called.
* `World.prepareQuestion`, `World.QuestionReady` — a question that the run-time system is
  about to be asked.

## Main results

* `World.ends_prepareLookup`, `World.ends_prepareQuestion` — getting a look-up ready.
* `World.LookupReady.call_eq` — calling a look-up function runs its code.
-/

namespace Dispatch

namespace World

variable {u : Module} {refs : List Method} {w w' : World} {m : Method} {className : String}
  {metadata callee descriptor typeDescriptor : Word}

/-! ### Descriptors -/

/-- Declare the descriptor of a method and ask for its address. -/
def descriptorOf (m : Method) : Run Word := do
  addressOf (← withModule (Module.declareDescriptor m))

/-- The word is the address of the method's descriptor. -/
def DescriptorAt (u : Module) (m : Method) (w : World) (a : Word) : Prop :=
  ∃ symbol, m.descriptorSymbol u.pool = .ok symbol ∧ w.link? symbol = some a ∧
    w.module.globals.get? symbol = some (.methodDescriptor m)

theorem DescriptorAt.prepares {a : Word} (h : DescriptorAt u m w a) (hw : Prepares w w')
    (hmodule : w'.module = w.module) : DescriptorAt u m w' a := by
  obtain ⟨symbol, hsymbol, hlink, hglobal⟩ := h
  refine ⟨symbol, hsymbol, hw.link hlink, ?_⟩
  rw [hmodule]
  exact hglobal

theorem ends_descriptorOf (h : Ready u refs w) (hu : u.Coherent refs) (hm : m ∈ refs) :
    Step.Ends (descriptorOf m) w (fun a w' => Ready u refs w' ∧ Prepares w w' ∧
        w'.module.lookups = w.module.lookups ∧ w'.module.thunks = w.module.thunks ∧
        DescriptorAt u m w' a)
      fun _ w' => Ready u refs w' ∧ (Exhausted w' ∨ ¬ u.Describes m) := by
  rw [descriptorOf, Step.ends_bind, ends_withModule]
  refine (Module.ends_declareDescriptor h.generated hu.references hm).imp
    (fun symbol v hv => ?_) fun _ v hv => ?_
  · obtain ⟨hgen, hthunks, hlookups, hsymbol, hglobal⟩ := hv
    refine ((h.setModule hgen).ends_addressOf symbol).imp (fun a w' h' => ?_)
      fun _ w' h' => ⟨h'.1, .inl h'.2⟩
    obtain ⟨hready, hprepares, hmodule, hlink⟩ := h'
    refine ⟨hready, (prepares_setModule w v).trans hprepares, ?_, ?_, symbol, hsymbol, hlink, ?_⟩
    · rw [hmodule]
      exact hlookups
    · rw [hmodule]
      exact hthunks
    · rw [hmodule]
      exact hglobal
  · rw [hv.1]
    exact ⟨h, .inr hv.2⟩

/-! ### Look-up functions -/

/-- The first part of a call of a look-up function: its address, and that of the method's
descriptor. -/
def prepareLookup (className : String) (m : Method) : Run (Word × Word) := do
  let function ← withModule (Module.defineLookup className)
  let descriptor ← descriptorOf m
  let callee ← addressOf function.name
  return (callee, descriptor)

/-- The second part: the call itself. -/
def runLookup (callee metadata descriptor : Word) : Run Word := do
  match ← call callee [metadata, descriptor] with
  | [entry] => return entry
  | results => fail (.arity "lookup function results" 1 results.length)

theorem callLookup_eq (className : String) (metadata : Word) (m : Method) :
    callLookup className metadata m = (do
      let r ← prepareLookup className m
      runLookup r.1 metadata r.2) := by
  have hrun : callLookup className metadata m = (do
      let function ← withModule (Module.defineLookup className)
      let descriptor ← addressOf (← withModule (Module.declareDescriptor m))
      let callee ← addressOf function.name
      runLookup callee metadata descriptor) := rfl
  simp only [hrun, prepareLookup, descriptorOf, bind_assoc, pure_bind]

/-- A look-up function that is about to be called: its address leads to its code. -/
structure LookupReady (u : Module) (className : String) (m : Method) (w : World)
    (callee descriptor : Word) (plan : LookupPlan) : Prop where
  planned : u.lookupPlan className = .ok plan
  code : w.module.function? (u.lookupSymbol className)
    = some (plan.code (u.lookupSymbol className))
  callee : w.link? (u.lookupSymbol className) = some callee
  descriptor : DescriptorAt u m w descriptor

/-- Getting a look-up function ready is given up only if there is no such class or no such
descriptor, or if memory is exhausted. -/
theorem ends_prepareLookup (h : Ready u refs w) (hu : u.Coherent refs) (hm : m ∈ refs) :
    Step.Ends (prepareLookup className m) w (fun r w' => Ready u refs w' ∧ Prepares w w' ∧
        ∃ plan, LookupReady u className m w' r.1 r.2 plan)
      fun _ w' => Ready u refs w' ∧ (Exhausted w' ∨ ¬ u.Describes m ∨
        ∀ decl, u.hierarchy.classNamed className ≠ .ok decl) := by
  rw [prepareLookup, Step.ends_bind, ends_withModule]
  refine (Module.ends_defineLookup h.generated hu.references hu.hierarchy).imp
    (fun f v hv => ?_) fun _ v hv => ⟨h.setModule hv.1, .inr (.inr hv.2)⟩
  obtain ⟨hgen, entry, hentry, hbody⟩ := hv
  -- the code is that of the plan, under the symbol of the entry
  have hlookup := hgen.lookups className entry hentry
  obtain ⟨plan, hplan, hcode⟩ := hlookup.body f hbody
  have hsymbol : entry.symbol = u.lookupSymbol className := hlookup.symbol
  rw [plan.function_eq, hsymbol] at hcode
  cases hcode
  have hfunction := hgen.function?_lookup hentry
  rw [hbody] at hfunction
  rw [Step.ends_bind]
  refine (ends_descriptorOf (h.setModule hgen) hu hm).imp (fun descriptor w₁ h₁ => ?_)
    fun _ w₁ h₁ => ⟨h₁.1, h₁.2.imp_right .inl⟩
  obtain ⟨hready₁, hprepares₁, hlookups, hthunks, hdescriptor⟩ := h₁
  rw [Step.ends_bind]
  refine (hready₁.ends_addressOf _).imp (fun callee w₂ h₂ => ?_)
    fun _ w₂ h₂ => ⟨h₂.1, .inl h₂.2⟩
  obtain ⟨hready₂, hprepares₂, hmodule, hlink⟩ := h₂
  refine ⟨hready₂, ((prepares_setModule w v).trans hprepares₁).trans hprepares₂, plan, hplan, ?_,
    hlink, ?_⟩
  · rw [hmodule, Module.function?, hlookups, hthunks]
    exact hfunction
  · exact hdescriptor.prepares hprepares₂ hmodule

/-- Calling a look-up function runs its code, unless an implementation is in the way. -/
theorem LookupReady.call_eq {plan : LookupPlan}
    (h : LookupReady u className m w callee descriptor plan) (hready : Ready u refs w)
    (hcallee : callee.toNat < 2 ^ 48)
    (hnone : w.machine.implementations.get? (u.lookupSymbol className) = none)
    (args : List Word) :
    call callee args w
      = run (callTo innerDepth) (plan.code (u.lookupSymbol className)) args w := by
  rw [World.call_eq]
  exact callTo_function hready.tabled.linked h.callee hcallee hnone h.code _ _

/-- Whatever it answers, a look-up function changes nothing. -/
theorem LookupReady.spared_runLookup {plan : LookupPlan}
    (h : LookupReady u className m w callee descriptor plan) (hready : Ready u refs w)
    (hnone : w.machine.implementations.get? (u.lookupSymbol className) = none) :
    Spared w.memory.next.toNat (runLookup callee metadata descriptor) w Anything := by
  have hcall : Spared w.memory.next.toNat (call callee [metadata, descriptor]) w Anything := by
    by_cases hcallee : callee.toNat < 2 ^ 48
    · rw [Spared, Step.Ends, h.call_eq hready hcallee hnone]
      exact spared_run (.inl (plan.onlyReads_function _)) hready.firm _
    · rw [World.call_eq, callTo_signed (Nat.not_lt.mp hcallee)]
      exact spared_fail _
  refine hcall.bind fun results w₂ _ _ => ?_
  split
  · exact spared_pure trivial
  · exact spared_fail _

/-! ### Questions to the run-time system -/

/-- The first part of a question to the run-time system: the address of the class's type
descriptor, and that of the method's descriptor. -/
def prepareQuestion (className : String) (m : Method) : Run (Word × Word) := do
  let symbol ← ((← get).module.hierarchy.typeDescriptor className).onMachine
  let typeDescriptor ← addressOf symbol
  let descriptor ← descriptorOf m
  return (typeDescriptor, descriptor)

theorem askRuntime_eq (className : String) (metadata : Word) (m : Method) :
    askRuntime className metadata m = (do
      let r ← prepareQuestion className m
      lookupClassMethod metadata r.2 r.1) := by
  simp only [askRuntime, prepareQuestion, descriptorOf, bind_assoc, pure_bind]

/-- The word is the address of the class's type descriptor. -/
def TypeAt (u : Module) (className : String) (w : World) (a : Word) : Prop :=
  w.link? (classSymbol u.hierarchy.module className .typeDescriptor) = some a

/-- Getting a question ready is given up only if there is no such class or no such
descriptor, or if memory is exhausted. -/
theorem ends_prepareQuestion (h : Ready u refs w) (hu : u.Coherent refs) (hm : m ∈ refs) :
    Step.Ends (prepareQuestion className m) w (fun r w' => Ready u refs w' ∧ Prepares w w' ∧
        TypeAt u className w' r.1 ∧ DescriptorAt u m w' r.2)
      fun _ w' => Ready u refs w' ∧ (Exhausted w' ∨ ¬ u.Describes m ∨
        ∀ decl, u.hierarchy.classNamed className ≠ .ok decl) := by
  simp only [prepareQuestion, Step.ends_bind, Step.ends_get, Step.ends_liftM,
    h.generated.hierarchy, Attempt.onMachine_eq_ok, Hierarchy.typeDescriptor]
  constructor
  · intro symbol hsymbol
    obtain ⟨decl, hdecl, hsymbol⟩ := Attempt.bind_eq_ok.mp hsymbol
    cases hsymbol
    refine (h.ends_addressOf _).imp (fun typeDescriptor w₁ h₁ => ?_)
      fun _ w₁ h₁ => ⟨h₁.1, .inl h₁.2⟩
    obtain ⟨hready₁, hprepares₁, -, htype⟩ := h₁
    refine (ends_descriptorOf hready₁ hu hm).imp (fun descriptor w₂ h₂ => ?_)
      fun _ w₂ h₂ => ⟨h₂.1, h₂.2.imp_right .inl⟩
    exact ⟨h₂.1, hprepares₁.trans h₂.2.1, h₂.2.1.link htype, h₂.2.2.2.2⟩
  · intro fault hfault
    refine ⟨h, .inr (.inr fun decl hdecl => ?_)⟩
    rw [hdecl] at hfault
    cases hfault

end World

end Dispatch
