import Dispatch.Thunk.Target

/-!
# Bodies of dispatch thunks

A dispatch thunk receives exactly the native arguments of its method, loads the
implementation from a table and forwards everything to it: arguments, results and
errors.  Values that came in by address are moved out of the caller's memory and
into memory of the thunk's own.

A body is made in stages: the entry, the arguments, the implementation, the call and
the return.  The convention is settled at the entry and decides how the later stages
go.  Many of them rely on what an earlier one found; each of these conditions has a
trap of its own.

## Main definitions

* `ConventionPlan`, `Thunk.enter` — the entry.
* `Thunk.prepare` — the arguments.
* `CallOutcome`, `Thunk.flatCall`, `Thunk.asyncCall` — the call.
* `Thunk.emitReturn` — the return.
* `Thunk.forward` — everything after the entry.
-/

namespace Dispatch

/-- Everything that the body of a thunk depends on. -/
structure ThunkPlan where
  method : Method
  /-- The signature that the thunk itself is called with. -/
  own : Lowered
  /-- The signature that it calls the implementation with. -/
  forwarded : Lowered
  deriving DecidableEq, Repr, Inhabited

/-- How a thunk gets its arguments and hands back control. -/
inductive ConventionPlan where
  | ordinary
  | coroutine
  | async (context : Var) (frame : Frame)
  deriving DecidableEq, Repr, Inhabited

/-- The context frame, if there is one. -/
def ConventionPlan.frame? : ConventionPlan → Option Frame
  | ordinary => none
  | coroutine => none
  | async _ frame => some frame

/-- What a forwarded call gave. -/
inductive CallOutcome where
  /-- The result was written to the address that the caller passed. -/
  | memory
  /-- The components of the result. -/
  | explosion (results : Explosion)
  /-- The native results of a coroutine. -/
  | coroutine (results : List Var)
  deriving DecidableEq, Repr, Inhabited

namespace Thunk

/-- Store consecutive words. -/
def storeWords (addr : Var) (offset : Nat) : List Var → Build Unit
  | [] => return ()
  | value :: rest => do
    Builder.store value addr offset
    storeWords addr (offset + wordBytes) rest

/-- Copy components to fresh memory; the answer is its address. -/
def spill (values : List Var) : Build Var := do
  let temp ← Builder.stackAlloc (← mulSize wordBytes values.length)
  storeWords temp 0 values
  return temp

/-! ### Entry and arguments -/

/-- Make the native parameters.  The one parameter of an asynchronous thunk is its context
frame, which is attached at once. -/
def enter (own : Lowered) : Build (ConventionPlan × Explosion) := do
  let params ← own.paramKinds.mapM Builder.param
  match own.convention with
  | .ordinary => return (.ordinary, .ofList params)
  | .yieldOnce => return (.coroutine, .ofList params)
  | .async => do
    let frame ← own.contextFrame
    match params with
    | [context] => do
      Builder.asyncEntry context frame.size
      return (.async context frame, .ofList params)
    | _ => throw (.trap .contextNotAlone)

/-- The arguments, from the native parameters or from the context frame. -/
def prepare (own : Lowered) (convention : ConventionPlan) (params : Explosion) :
    Build Arguments :=
  match convention with
  | .ordinary => Arguments.ofFlat own none params
  | .coroutine => Arguments.ofFlat own none params
  | .async context frame => Arguments.ofFrame own frame none context

/-! ### Calls of ordinary functions and coroutines -/

/-- Make the native words of a parameter, unless they were made for an earlier word. -/
def mapParam (s : Lowered) (params : List (List Var)) (index : Nat)
    (mapped : List (Option (List Var))) : Build (List (Option (List Var))) := do
  match ← Attempt.element mapped index with
  | some _ => return mapped
  | none => do
    let c ← Attempt.element s.carriers index
    match c.passing with
    | .direct schema => do
      let values ← Attempt.element params index
      let words ← Builder.toNative c.type schema.nativeKinds values
      return mapped.set index (some words)
    | .indirect _ => throw (.trap .wordsByAddress)
    | .address => throw (.trap .wordsByAddress)

/-- The argument for a native parameter of this role.  `params` are the variables of each
parameter, and `mapped` the native words that were made so far. -/
def roleArgument (s : Lowered) (args : Arguments) (params : List (List Var))
    (bindings : List Var) (mapped : List (Option (List Var))) :
    Role → Build (Var × List (Option (List Var)))
  | .resumeBuffer => do
    return (← Attempt.require .noResumeBuffer args.resumeBuffer, mapped)
  | .indirectReturn => do
    return (← Attempt.require .noResultDestination args.indirectReturn, mapped)
  | .param index word => do
    let mapped ← mapParam s params index mapped
    let words ← Attempt.require .wordsUnmapped (← Attempt.element mapped index)
    return (← Attempt.element words word, mapped)
  | .paramIndirect index => do return (← spill (← Attempt.element params index), mapped)
  | .paramAddress index => do
    return (← Attempt.element (← Attempt.element params index) 0, mapped)
  | .genericBinding index => do return (← Attempt.element bindings index, mapped)
  | .selfValue => return (args.receiver, mapped)
  | .errorSlot => do
    return (← Attempt.require .noErrorDestination args.errorDestination, mapped)
  | .selfMetadata => do
    return (← Attempt.require .noSelfMetadata (args.witness.map (·.metadata)), mapped)
  | .selfWitnessTable => do
    return (← Attempt.require .noCallWitness (args.witness.map (·.table)), mapped)
  | .context => throw (.trap .contextInCall)

/-- The arguments for all roles, in their order. -/
def roleArguments (s : Lowered) (args : Arguments) (params : List (List Var))
    (bindings : List Var) (mapped : List (Option (List Var))) : List Role → Build (List Var)
  | [] => return []
  | role :: rest => do
    let (value, mapped) ← roleArgument s args params bindings mapped role
    let others ← roleArguments s args params bindings mapped rest
    return value :: others

/-- Call with native arguments; the answer is the native results. -/
def nativeCall (s : Lowered) (function : Var) (args : Arguments) : Build (List Var) := do
  let (params, bindings) ← args.split s
  let native ← roleArguments s args params bindings (List.replicate params.length none)
    (s.params.map NativeParam.role)
  Builder.call function s.convention native s.results

/-- What the native results of a call are. -/
def received (s : Lowered) (results : List Var) : Build CallOutcome :=
  if s.convention.isCoroutine then return .coroutine results
  else if s.hasIndirectReturn then return .memory
  else match s.result.passing with
    | .direct schema =>
      if schema.components.isEmpty then return .explosion (.ofList [])
      else do
        let components ← Builder.fromNative s.result.type schema.components results
        return .explosion (.ofList components)
    | .indirect _ => throw (.trap .directByAddress)
    | .address => throw (.trap .directByAddress)

/-- Forward a call with native arguments. -/
def flatCall (s : Lowered) (function : Var) (args : Arguments) : Build CallOutcome := do
  received s (← nativeCall s function args)

/-! ### Calls of asynchronous functions -/

/-- Store a variable in a field, if the frame has the field; then there has to be the
variable. -/
def storeField (frame : Var) (missing : Trap) (value : Option Var) : Option Nat → Build Unit
  | none => return ()
  | some offset => do Builder.store (← Attempt.require missing value) frame offset

/-- Store the words of a witness.  A frame with one of the two fields only is given
neither. -/
def storeWitness (f : Frame) (frame : Var) (witness : Option WitnessVars) : Build Unit :=
  match f.selfMetadata, f.selfWitnessTable with
  | some metadata, some table => do
    let w ← Attempt.require .noWitnessMetadata witness
    Builder.store w.metadata frame metadata
    Builder.store w.table frame table
  | _, _ => return ()

/-- Store one argument in its field. -/
def frameArgument (frame : Var) (field : FrameField) (c : Carrier) (values : List Var) :
    Build Unit :=
  match field, c.passing with
  | .inline offset _, _ => storeWords frame offset values
  | .address offset, .indirect _ => do
    let temp ← spill values
    Builder.store temp frame offset
  | .address offset, _ => do Builder.store (← Attempt.element values 0) frame offset

/-- Store an argument in each field; the first field has this index. -/
def frameArguments (s : Lowered) (params : List (List Var)) (frame : Var) (index : Nat) :
    List FrameField → Build Unit
  | [] => return ()
  | field :: rest => do
    let values ← Attempt.element params index
    let c ← Attempt.element s.carriers index
    frameArgument frame field c values
    frameArguments s params frame (index + 1) rest

/-- What a called function left in its frame. -/
def leftIn (s : Lowered) (f : Frame) (frame : Var) : Build CallOutcome :=
  -- A result passed by address is already where the caller wants it.
  if s.hasIndirectReturn then return .memory
  else match f.results with
    | some (.inline offset components) => do
      return .explosion (.ofList (← Arguments.loadWords frame offset components))
    | some (.address _) => throw (.trap .resultByAddress)
    | none => return .explosion (.ofList [])

/-- Forward a call through a frame of its own. -/
def asyncCall (s : Lowered) (f : Frame) (function : Var) (args : Arguments) :
    Build CallOutcome := do
  let (params, bindings) ← args.split s
  let frame ← Builder.stackAlloc f.size
  Builder.store args.receiver frame f.localContext
  storeWitness f frame args.witness
  storeField frame .noErrorDestination args.errorDestination f.errorSlot
  storeField frame .noResultDestination args.indirectReturn f.indirectReturn
  frameArguments s params frame 0 f.args
  storeWords frame f.bindings bindings
  let _ ← Builder.call function s.convention [frame] []
  leftIn s f frame

/-! ### Everything after the entry -/

/-- Forward a call, the way its own signature says. -/
def forwardCall (s : Lowered) (function : Var) (args : Arguments) : Build CallOutcome :=
  match s.frame with
  | some f => asyncCall s f function args
  | none => flatCall s function args

/-- Hand back control and what the call gave. -/
def emitReturn (own : Lowered) : ConventionPlan → CallOutcome → Build Unit
  -- What a coroutine hands back goes to the caller as it is.
  | .coroutine, .coroutine results => Builder.terminate (.ret results)
  | .coroutine, _ => throw (.trap .coroutineOutcome)
  | .ordinary, .memory => Builder.terminate (.ret [])
  | .ordinary, .explosion results =>
    if results.size = 0 then Builder.terminate (.ret [])
    else match own.result.passing with
      | .direct schema => do
        let native ← Builder.toNative own.result.type schema.nativeKinds results.claimAll.1
        Builder.terminate (.ret native)
      | .indirect _ => throw (.trap .directByAddress)
      | .address => throw (.trap .directByAddress)
  | .ordinary, .coroutine _ => throw (.trap .ordinaryOutcome)
  | .async context frame, .explosion results => do
    if results.size ≠ 0 then
      let field ← Attempt.require .noResultField frame.results
      storeWords context field.offset results.claimAll.1
    Builder.terminate .asyncExit
  | .async _ _, _ => Builder.terminate .asyncExit

/-- Get the arguments and the implementation, call it and return. -/
def forward (p : Pool) (target : Attempt Target) (plan : ThunkPlan)
    (convention : ConventionPlan) (params : Explosion) : Build Unit := do
  let args ← prepare plan.own convention params
  let function ← (← target).resolve p plan.method args
  let outcome ← forwardCall plan.forwarded function args
  emitReturn plan.own convention outcome

end Thunk

end Dispatch
