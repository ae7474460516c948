import Dispatch.Machine.Interp

/-!
# Calls from outside

A call is described by logical values.  For the callee's signature the machine makes
the error slot and the place for the result, spills arguments that travel by
address, and builds the flat argument list or the context frame.  Afterwards it reads
back what happened.  A thunk and an implementation are called in the same way, so
their reports can be compared.

## Main definitions

* `LogicalCall`, `Report` — a call, and what it did.
* `World.callThunk`, `World.callImplementation` — the two kinds of call.
* `World.callLookup`, `World.askRuntime` — the two ways to look a method up.
-/

namespace Dispatch

/-- A call described by logical values. -/
structure LogicalCall where
  receiver : Word := 0
  args : List ArgValue := []
  bindings : List Word := []
  /-- The self metadata and the witness table, for protocol methods. -/
  witness : Option (Word × Word) := none
  /-- Words to reserve for a result that is never loaded. -/
  resultWords : Nat := 0
  deriving DecidableEq, Repr, Inhabited

/-- What a call did, as its caller sees it. -/
structure Report where
  /-- The components of the result, or the error word. -/
  result : Except Word (List Word)
  /-- What a coroutine handed back. -/
  continuation : Option Word
  resumeBuffer : Option Word
  indirectReturn : Option Word
  errorSlot : Option Word
  frame : Option Word
  /-- The address of every word that an argument was spilled to. -/
  spilled : List Word

/-- The outcome of a call before the error slot is looked at. -/
structure Returned where
  values : List Word := []
  continuation : Option Word := none
  resumeBuffer : Option Word := none
  frame : Option Word := none
  spilled : List Word := []
  deriving DecidableEq, Repr, Inhabited

/-- Were all spilled words taken? -/
def Report.spillsDrained (r : Report) (m : Memory) : Bool := r.spilled.all m.isDrained

namespace World

/-! ### Arguments -/

/-- The addresses of `count` words, the first of which has the index `start`. -/
def wordAddresses (base : Word) (start : Nat) : Nat → Attempt (List Word)
  | 0 => return []
  | count + 1 => do
    let first ← Memory.wordAddress base start
    let others ← wordAddresses base (start + 1) count
    return first :: others

/-- Copy words to fresh memory; the answer is its address, and that of each word. -/
def spill (words : List Word) : Run (Word × List Word) := do
  let base ← withMemory (Memory.allocWords words.length)
  withMemory (Memory.writeWords base words)
  return (base, ← wordAddresses base 0 words.length)

/-- The native words for argument `index`, and where it was spilled to.  A value
without native words is not looked at. -/
def flatArg (index : Nat) (arg : ArgValue) : Passing → Run (List Word × List Word)
  | .direct schema =>
    if schema.nativeKinds.isEmpty then return ([], [])
    else match arg with
      | .value words => do return (← schema.encode words, [])
      | .address _ => fail (.argumentShape index)
  | .indirect _ =>
    match arg with
    | .value words => do
      let (base, spilled) ← spill words
      return ([base], spilled)
    | .address _ => fail (.argumentShape index)
  | .address =>
    match arg with
    | .address word => return ([word], [])
    | .value _ => fail (.argumentShape index)

/-- The native words for all arguments, and where they were spilled to; the first has
this index. -/
def flatArgs (index : Nat) : List (Carrier × ArgValue) → Run (List Word × List Word)
  | [] => return ([], [])
  | (c, arg) :: rest => do
    let (native, spilled) ← flatArg index arg c.passing
    let (natives, spills) ← flatArgs (index + 1) rest
    return (native ++ natives, spilled ++ spills)

/-- The self metadata and the witness table as native words. -/
def flatWitness (s : Lowered) (c : LogicalCall) : Run (List Word) :=
  if s.witness then
    match c.witness with
    | some (metadata, table) => return [metadata, table]
    | none => fail (.argumentShape 0)
  else return []

/-- Words of a coroutine's resume buffer. -/
def resumeBufferWords : Nat := 4

/-! ### Flat calls -/

/-- Call with flat arguments. -/
def invokeFlatCall (callee : Word) (s : Lowered) (c : LogicalCall)
    (errorSlot indirectReturn : Option Word) : Run Returned := do
  let resumeBuffer ←
    if s.convention.isCoroutine then
      some <$> withMemory (Memory.allocWords resumeBufferWords)
    else pure none
  let (params, spilled) ← flatArgs 0 (s.carriers.zip c.args)
  let witness ← flatWitness s c
  let native := resumeBuffer.toList ++ indirectReturn.toList ++ params ++ c.bindings
    ++ [c.receiver] ++ errorSlot.toList ++ witness
  let results ← call callee native
  if results.length ≠ s.results.length then
    fail (.arity "native results" s.results.length results.length)
  let (continuation, direct) := popIf s.convention.isCoroutine results
  let values ← match s.result.passing with
    | .direct schema => (schema.decode direct 0 : Attempt _)
    | .indirect _ => pure []
    | .address => pure []
  return { values, continuation, resumeBuffer, spilled }

/-! ### Calls through a frame -/

/-- Write a field of a frame, if there are both. -/
def writeField (frame : Word) : Option Nat → Option Word → Run Unit
  | some offset, some value => do write (← addWord frame (UInt64.ofNat offset)) value
  | _, _ => return ()

/-- Write argument `index` to its field; the answer is where it was spilled to. -/
def frameArg (frame : Word) (index : Nat) (field : FrameField) (passing : Passing)
    (arg : ArgValue) : Run (List Word) :=
  match field, passing, arg with
  | .inline offset components, .direct _, .value words =>
    if words.length = components.length then do
      withMemory (Memory.writeWords (← addWord frame (UInt64.ofNat offset)) words)
      return []
    else fail (.argumentShape index)
  | .address offset, .indirect _, .value words => do
    let (base, spilled) ← spill words
    write (← addWord frame (UInt64.ofNat offset)) base
    return spilled
  | .address offset, .address, .address word => do
    write (← addWord frame (UInt64.ofNat offset)) word
    return []
  | _, _, _ => fail (.argumentShape index)

/-- Write all arguments to their fields; the first has this index. -/
def frameArgs (frame : Word) (index : Nat) :
    List (FrameField × Carrier × ArgValue) → Run (List Word)
  | [] => return []
  | (field, c, arg) :: rest => do
    let spilled ← frameArg frame index field c.passing arg
    let spills ← frameArgs frame (index + 1) rest
    return spilled ++ spills

/-- Write the self metadata and the witness table to a frame that has both. -/
def frameWitness (f : Frame) (frame : Word) (c : LogicalCall) : Run Unit :=
  match f.selfMetadata, f.selfWitnessTable with
  | some metadataOffset, some tableOffset =>
    match c.witness with
    | some (metadata, table) => do
      write (← addWord frame (UInt64.ofNat metadataOffset)) metadata
      write (← addWord frame (UInt64.ofNat tableOffset)) table
    | none => fail (.argumentShape 0)
  | _, _ => return ()

/-- Call with a context frame, of a size that may be published elsewhere. -/
def invokeAsyncCall (callee : Word) (s : Lowered) (f : Frame) (frameSize : Option Nat)
    (c : LogicalCall) (errorSlot indirectReturn : Option Word) : Run Returned := do
  let frame ← withMemory (Memory.alloc (frameSize.getD f.size))
  writeField frame f.errorSlot errorSlot
  writeField frame f.indirectReturn indirectReturn
  let spilled ← frameArgs frame 0 (f.args.zip (s.carriers.zip c.args))
  withMemory (Memory.writeWords (← addWord frame (UInt64.ofNat f.bindings)) c.bindings)
  write (← addWord frame (UInt64.ofNat f.localContext)) c.receiver
  frameWitness f frame c
  let results ← call callee [frame]
  if !results.isEmpty then fail (.arity "async native results" 0 results.length)
  let values ← match f.results, indirectReturn with
    | some (.inline offset components), none => do
      let base ← addWord frame (UInt64.ofNat offset)
      inMemory fun m => m.readWords base components.length
    | _, _ => pure []
  return { values, frame := some frame, spilled }

/-! ### Calls -/

/-- The words of the place for a result that is passed by address. -/
def resultWords (s : Lowered) (c : LogicalCall) : Nat :=
  match s.result.passing with
  | .direct _ => 0
  | .indirect schema => schema.components.length
  | .address => c.resultWords

/-- Allocate words if `present`. -/
def allocIf (present : Bool) (words : Nat) : Run (Option Word) :=
  if present then some <$> withMemory (Memory.allocWords words) else pure none

/-- The result of a call: an error word that is not zero, or the components. -/
def readResult (errorSlot indirectReturn : Option Word) (words : Nat) (values : List Word) :
    Run (Except Word (List Word)) := do
  let error ← match errorSlot with
    | some slot => read slot
    | none => pure 0
  -- The slot starts out as zero, so any other word is an error.
  if error ≠ 0 then return .error error
  else match indirectReturn with
    | some destination => do
      return .ok (← inMemory fun m => m.readWords destination words)
    | none => return .ok values

/-- Call a function pointer with a signature. -/
def invoke (callee : Word) (s : Lowered) (frameSize : Option Nat) (c : LogicalCall) :
    Run Report := do
  if c.args.length ≠ s.carriers.length then
    fail (.arity "logical arguments" s.carriers.length c.args.length)
  if c.bindings.length ≠ s.bindingCount then
    fail (.arity "generic bindings" s.bindingCount c.bindings.length)
  let words := resultWords s c
  let errorSlot ← allocIf s.throws 1
  let indirectReturn ← allocIf s.hasIndirectReturn words
  let returned ← match s.frame with
    | some f => invokeAsyncCall callee s f frameSize c errorSlot indirectReturn
    | none => invokeFlatCall callee s c errorSlot indirectReturn
  let result ← readResult errorSlot indirectReturn words returned.values
  return {
    result, errorSlot, indirectReturn
    continuation := returned.continuation
    resumeBuffer := returned.resumeBuffer
    frame := returned.frame
    spilled := returned.spilled }

/-- The frame size in the async function pointer of a method's thunk. -/
def publishedFrameSize (m : Method) : Run (Option Nat) := do
  if m.convention.isAsync then
    let symbol ← withModule (Module.asyncPointer m)
    match (← get).module.globals.get? symbol with
    | some (.asyncPointer _ contextSize) => return some contextSize
    | _ => return none
  else return none

/-- Call the dispatch thunk of a method, generating it if need be. -/
def callThunk (m : Method) (c : LogicalCall) : Run Report := do
  let entry ← withModule (Module.declareThunk m)
  let _ ← withModule (Module.defineThunk m)
  let frameSize ← publishedFrameSize m
  let callee ← addressOf entry.symbol
  invoke callee entry.declaration frameSize c

/-- Call an implementation directly. -/
def callImplementation (symbol : String) (c : LogicalCall) : Run Report := do
  match (← get).machine.implementations.get? symbol with
  | none => fail (.unknownCallee symbol)
  | some i =>
    let callee ← addressOf symbol
    invoke callee i.signature none c

/-! ### Look-ups -/

/-- The entry for a method in `metadata`, from the look-up function of a class. -/
def callLookup (className : String) (metadata : Word) (m : Method) : Run Word := do
  let function ← withModule (Module.defineLookup className)
  let descriptor ← addressOf (← withModule (Module.declareDescriptor m))
  let callee ← addressOf function.name
  match ← call callee [metadata, descriptor] with
  | [entry] => return entry
  | results => fail (.arity "lookup function results" 1 results.length)

/-- The entry for a method in `metadata`, from the run-time system. -/
def askRuntime (className : String) (metadata : Word) (m : Method) : Run Word := do
  let symbol ← ((← get).module.hierarchy.typeDescriptor className).onMachine
  let typeDescriptor ← addressOf symbol
  let descriptor ← addressOf (← withModule (Module.declareDescriptor m))
  lookupClassMethod metadata descriptor typeDescriptor

end World

end Dispatch
