import Dispatch.Options
import Dispatch.Code.Text
import Dispatch.Thunk.Body
import Dispatch.Thunk.Lookup
import Dispatch.Thunk.Registry

/-!
# Modules under generation

A module is its declarations together with what has been generated for them: the
dispatch thunks, the look-up functions, and the globals that go with them.  Asking
for the same thing twice gives the same answer.

## Main definitions

* `Global`, `Module`, `Generate` — the state of generation.
* `Module.declareThunk`, `Module.defineThunk`, `Module.emitThunks` — thunks.
* `Module.declareDescriptor`, `Module.asyncPointer` — globals.
* `Module.declareLookup`, `Module.defineLookup` — look-up functions.
* `Module.functions`, `Module.function?`, `Module.sortedGlobals`,
  `Module.functionOfPointer?` — the results.
-/

namespace Dispatch

/-- A constant global. -/
inductive Global where
  /-- The identity of a method; only its address matters. -/
  | methodDescriptor (method : Method)
  /-- The frame size of an asynchronous function, for callers that do not have its
  body. -/
  | asyncPointer (function : String) (contextSize : Nat)
  deriving DecidableEq, Repr, Inhabited

/-- A module and what has been generated for it. -/
structure Module where
  pool : Pool := Pool.new
  hierarchy : Hierarchy
  layout : Layout := {}
  options : Options := {}
  thunks : Registry Method Lowered := {}
  lookups : Registry String Unit := {}
  /-- The globals, by symbol. -/
  globals : Table String Global := {}
  deriving Inhabited

/-- A step of generation. -/
abbrev Generate := Step Module

namespace Module

/-- Run a step on the types of a module. -/
def withPool {α : Type} (step : Step Pool α) : Generate α :=
  step.zoom Module.pool fun pool u => { u with pool }

/-- Define a global, unless its symbol is already taken. -/
def defineGlobal (symbol : String) (g : Global) : Generate Unit :=
  modify fun u => { u with globals := u.globals.insertNew symbol g }

/-! ### Dispatch thunks -/

/-- What declaring a thunk fixes: its symbol and its native signature. -/
def thunkDeclaration (u : Module) (m : Method) : Attempt (String × Lowered) := do
  let symbol ← m.thunkSymbol u.pool
  let signature ← (u.layout.lower u.pool m).orTrap .lowerThunk
  return (symbol, signature)

/-- Define the async function pointer of a function that takes a frame. -/
def definePointer (symbol : String) : Option Frame → Generate Unit
  | none => return ()
  | some frame => defineGlobal (asyncPointerSymbol symbol) (.asyncPointer symbol frame.size)

/-- The entry point of a method's dispatch thunk.  The async function pointer is
there from the declaration on. -/
def declareThunk (m : Method) : Generate (Entry Lowered) := do
  let u ← get
  let (entry, thunks) ← u.thunks.declare m (u.thunkDeclaration m)
  set { u with thunks }
  definePointer entry.symbol entry.declaration.frame
  return entry

/-- Plan the body of a thunk.  It stays generic over its method's own parameters, so
each parameter is replaced by itself. -/
def planThunk (m : Method) (own : Lowered) : Generate ThunkPlan := do
  let map ← withPool (Subst.forwarding m.signature.generics.params)
  let signature ← withPool (m.signature.substitute map)
  if signature = m.signature then return { method := m, own, forwarded := own }
  else
    let u ← get
    let forwarded ← (u.layout.lower u.pool { m with signature }).orTrap .lowerForwarded
    return { method := m, own, forwarded }

/-- Generate a function after a plan.  Once it is entered, its async function pointer is
defined here too. -/
def emitPlanned (plan : ThunkPlan) (symbol : String) : Generate Function := do
  let ((convention, params), b) ←
    Step.run (Thunk.enter plan.own) (Builder.new symbol plan.method.convention)
  definePointer b.name convention.frame?
  let u ← get
  let target := Target.ofMethod u.hierarchy u.pool u.options.signingKey plan.method
  let (_, b) ← Step.run (Thunk.forward u.pool target plan convention params) b
  return b.finish

/-- Generate the body of a thunk. -/
def emitThunk (m : Method) (entry : Entry Lowered) : Generate Function := do
  let plan ← planThunk m entry.declaration
  emitPlanned plan entry.symbol

/-- The dispatch thunk of a method, generated on the first request. -/
def defineThunk (m : Method) : Generate Function := do
  let _ ← declareThunk m
  let u ← get
  let entry ← Attempt.require .thunkVanished (u.thunks.get? m)
  match entry.body with
  | some body => return body
  | none =>
    let emitted ← (emitThunk m entry).observe
    let u ← get
    let (body, thunks) := u.thunks.define m emitted
    set { u with thunks }
    body

/-- The dispatch thunks of several methods. -/
def emitThunks (methods : List Method) : Generate (List Function) := methods.mapM defineThunk

/-! ### Descriptors and async function pointers -/

/-- The symbol of a method's descriptor.  Overriding methods have none. -/
def declareDescriptor (m : Method) : Generate String := do
  let u ← get
  if !m.isWitness then
    if !(← (u.hierarchy.introduces m).orTrap .methodDescriptor) then
      throw (.trap (.noDescriptor m.selector))
  let symbol ← m.descriptorSymbol u.pool
  defineGlobal symbol (.methodDescriptor m)
  return symbol

/-- The symbol of the async function pointer of a method's thunk. -/
def asyncPointer (m : Method) : Generate String := do
  if m.convention.isAsync then
    let entry ← declareThunk m
    return asyncPointerSymbol entry.symbol
  else throw (.trap (.noAsyncPointer m.selector))

/-- The function that an async function pointer belongs to. -/
def functionOfPointer? (u : Module) (symbol : String) : Option String :=
  match u.globals.get? symbol with
  | some (.asyncPointer function _) => some function
  | _ => none

/-! ### Look-up functions -/

/-- The entry point of a class's look-up function. -/
def declareLookup (className : String) : Generate (Entry Unit) := do
  let u ← get
  let symbol := classSymbol u.hierarchy.module className .lookupFunction
  let (entry, lookups) ← u.lookups.declare className (pure (symbol, ()) : Attempt _)
  set { u with lookups }
  return entry

/-- What a look-up function knows about a method that its class introduces. -/
def candidate (c : ClassMethod) : Generate LookupCandidate := do
  let descriptor ← declareDescriptor c.method
  let u ← get
  let signing ← u.options.signingKey.mapM fun key =>
    (u.hierarchy.signing u.pool key c.method).orTrap .discriminator
  return { descriptor, implementation := c.implementation, signing }

/-- Plan the look-up function of a class.  A method that some class overrides may be
replaced in the table that the caller has, so only public methods that are never
overridden are known. -/
def planLookup (className : String) : Generate LookupPlan := do
  let u ← get
  let methods ← (u.hierarchy.classMethods className).orTrap .classMethods
  let known := methods.filter fun c => c.visibility == .isPublic && !c.overridden
  let candidates ← known.mapM candidate
  let typeDescriptor ← (u.hierarchy.typeDescriptor className).orTrap .typeDescriptor
  return { candidates, typeDescriptor }

/-- Generate the look-up function of a class. -/
def emitLookup (className : String) (entry : Entry Unit) : Generate Function := do
  let plan ← planLookup className
  plan.function entry.symbol

/-- The look-up function of a class, generated on the first request. -/
def defineLookup (className : String) : Generate Function := do
  let _ ← declareLookup className
  let u ← get
  let entry ← Attempt.require .lookupVanished (u.lookups.get? className)
  match entry.body with
  | some body => return body
  | none =>
    let emitted ← (emitLookup className entry).observe
    let u ← get
    let (body, lookups) := u.lookups.define className emitted
    set { u with lookups }
    body

/-! ### Results -/

/-- Every function, in the order of their symbols; functions with one symbol are in
the order of their texts. -/
def functions (u : Module) : List Function :=
  (u.thunks.bodies ++ u.lookups.bodies).mergeSort fun f g =>
    decide (f.name < g.name ∨ f.name = g.name ∧ f.text ≤ g.text)

/-- Every global with its symbol, in the order of the symbols. -/
def sortedGlobals (u : Module) : List (String × Global) :=
  u.globals.entries.mergeSort fun a b => decide (a.1 ≤ b.1)

/-- The body of the function with a symbol. -/
def function? (u : Module) (symbol : String) : Option Function :=
  ((u.thunks.bySymbol? symbol).bind Entry.body).or
    ((u.lookups.bySymbol? symbol).bind Entry.body)

end Module

end Dispatch
