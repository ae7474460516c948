import Dispatch.Machine.World

/-!
# Calling native implementations

The machine decodes the native arguments of an implementation's signature into an
invocation, runs the body, and encodes what it answers: in native results, in the
caller's frame, through the result address, or in the error slot.

## Main definitions

* `Schema.decode`, `Schema.encode` — unpacking and packing of running code, where a
  wrong count is an error of that code.
* `Incoming`, `World.decodeFlat`, `World.decodeFrame` — decoded arguments.
* `World.runBody` — run a body and store what it answers through memory.
* `World.invokeNative` — call an implementation.
-/

namespace Dispatch

namespace Schema

/-- The components of argument `index`, from its native words. -/
def decode (s : Schema) (native : List Word) (index : Nat) : Attempt (List Word) :=
  if s.isIndirect || native.length != s.nativeKinds.length then
    .error (.machine (.argumentShape index))
  else s.fromNative native

/-- The native words of a value, from its components. -/
def encode (s : Schema) (values : List Word) : Attempt (List Word) :=
  if s.isIndirect || values.length != s.components.length then
    .error (.machine
      (.arity "canonical components" s.components.length values.length))
  else s.toNative values

end Schema

/-- Decoded arguments of an implementation. -/
structure Incoming where
  invocation : Invocation
  errorSlot : Option Word
  indirectReturn : Option Word
  deriving DecidableEq, Repr, Inhabited

/-- Where the answer of an implementation went. -/
inductive Answer where
  /-- Through the result address. -/
  | stored
  /-- Into the error slot. -/
  | failed
  /-- Nowhere yet: components that are still to be encoded. -/
  | direct (words : List Word)
  deriving DecidableEq, Repr, Inhabited

/-- The first word if `present`, and the words after it. -/
def popIf (present : Bool) (words : List Word) : Option Word × List Word :=
  if present then (words.head?, words.tail) else (none, words)

namespace World

/-! ### Decoding -/

/-- Decode parameter `index` from the front of the native arguments. -/
def decodeParam (index : Nat) (native : List Word) :
    Passing → Run (ArgValue × List Word)
  | .direct schema => do
    let count := schema.nativeKinds.length
    let words ← schema.decode (native.take count) index
    return (.value words, native.drop count)
  | .indirect schema => do
    let words ← withMemory (Memory.takeWords (native.headD 0) schema.components.length)
    return (.value words, native.tail)
  | .address => return (.address (native.headD 0), native.tail)

/-- Decode parameters from the front of the native arguments; the first has this
index. -/
def decodeParams (index : Nat) (native : List Word) :
    List Carrier → Run (List ArgValue × List Word)
  | [] => return ([], native)
  | c :: rest => do
    let (first, native) ← decodeParam index native c.passing
    let (others, native) ← decodeParams (index + 1) native rest
    return (first :: others, native)

/-- Decode the native arguments of an ordinary function or coroutine. -/
def decodeFlat (s : Lowered) (native : List Word) : Run (Option Word × Incoming) := do
  let (resumeBuffer, native) := popIf s.convention.isCoroutine native
  let (indirectReturn, native) := popIf s.hasIndirectReturn native
  let (args, native) ← decodeParams 0 native s.carriers
  let bindings := native.take s.bindingCount
  let native := native.drop s.bindingCount
  let receiver := native.headD 0
  let (errorSlot, native) := popIf s.throws native.tail
  let witness := if s.witness then some (native.headD 0, native.tail.headD 0) else none
  return (resumeBuffer,
    { invocation := { receiver, args, bindings, witness }, errorSlot, indirectReturn })

/-- Read a field of a frame if it has one. -/
def readField (frame : Word) : Option Nat → Run (Option Word)
  | none => return none
  | some offset => do return some (← read (← addWord frame (UInt64.ofNat offset)))

/-- The self metadata and the witness table in a frame that has both. -/
def readWitness (f : Frame) (frame : Word) : Run (Option (Word × Word)) :=
  match f.selfMetadata, f.selfWitnessTable with
  | some metadata, some table => do
    let metadata ← read (← addWord frame (UInt64.ofNat metadata))
    let table ← read (← addWord frame (UInt64.ofNat table))
    return some (metadata, table)
  | _, _ => return none

/-- Decode parameter `index` from its field. -/
def decodeField (frame : Word) (index : Nat) (field : FrameField) (passing : Passing) :
    Run ArgValue :=
  match field, passing with
  | .inline offset components, .direct _ => do
    let base ← addWord frame (UInt64.ofNat offset)
    return .value (← inMemory fun m => m.readWords base components.length)
  | .address offset, .indirect schema => do
    let address ← read (← addWord frame (UInt64.ofNat offset))
    return .value (← withMemory (Memory.takeWords address schema.components.length))
  | .address offset, .address => do
    return .address (← read (← addWord frame (UInt64.ofNat offset)))
  | _, _ => fail (.argumentShape index)

/-- Decode parameters from their fields; the first has this index. -/
def decodeFields (frame : Word) (index : Nat) :
    List (FrameField × Carrier) → Run (List ArgValue)
  | [] => return []
  | (field, c) :: rest => do
    let first ← decodeField frame index field c.passing
    let others ← decodeFields frame (index + 1) rest
    return first :: others

/-- A frame has to be a region, and at least as large as its layout. -/
def checkFrame (frame : Word) (required : Nat) : Run Unit := do
  match (← get).machine.memory.regionSize? frame with
  | none => fail (.unmapped frame)
  | some actual =>
    if actual < required then fail (.frameTooSmall frame actual required)

/-- Decode the arguments in a context frame. -/
def decodeFrame (s : Lowered) (f : Frame) (frame : Word) : Run Incoming := do
  checkFrame frame f.size
  let witness ← readWitness f frame
  let receiver ← read (← addWord frame (UInt64.ofNat f.localContext))
  let base ← addWord frame (UInt64.ofNat f.bindings)
  let bindings ← inMemory fun m => m.readWords base f.bindingCount
  let errorSlot ← readField frame f.errorSlot
  let indirectReturn ← readField frame f.indirectReturn
  let args ← decodeFields frame 0 (f.args.zip s.carriers)
  return { invocation := { receiver, args, bindings, witness }, errorSlot, indirectReturn }

/-! ### Running -/

/-- Run a body, storing what it answers through memory.  The invocation is logged
first. -/
def runBody (i : Implementation) (incoming : Incoming) : Run Answer := do
  modify fun w =>
    { w with machine := { w.machine with
        log := w.machine.log ++ [(i.symbol, incoming.invocation)] } }
  match i.body incoming.invocation (← get).machine.memory with
  | .ok words =>
    match incoming.indirectReturn with
    | some destination =>
      withMemory (Memory.writeWords destination words)
      return .stored
    | none => return .direct words
  | .error error =>
    match incoming.errorSlot with
    | some slot =>
      write slot error
      return .failed
    | none => fail (.unhandledError i.symbol)

/-- The native results for an answer, after the resume buffer of a coroutine. -/
def encodeAnswer (s : Lowered) (resumeBuffer : List Word) : Answer → Attempt (List Word)
  | .stored => return resumeBuffer
  | .failed =>
    return resumeBuffer.take s.results.length
      ++ List.replicate (s.results.length - resumeBuffer.length) 0
  | .direct words =>
    match s.result.passing with
    | .direct schema => do return resumeBuffer ++ (← schema.encode words)
    | .indirect _ => return resumeBuffer
    | .address => return resumeBuffer

/-- Call an implementation with flat arguments. -/
def invokeFlat (i : Implementation) (native : List Word) : Run (List Word) := do
  let s := i.signature
  let (resumeBuffer, incoming) ← decodeFlat s native
  let answer ← runBody i incoming
  let results ← encodeAnswer s resumeBuffer.toList answer
  if results.length = s.results.length then return results
  else fail (.arity ("results of " ++ i.symbol) s.results.length results.length)

/-- Call an implementation with a context frame. -/
def invokeAsync (i : Implementation) (f : Frame) (frame : Word) : Run (List Word) := do
  let incoming ← decodeFrame i.signature f frame
  match ← runBody i incoming, f.results with
  | .direct words, some (.inline offset components) =>
    if words.length = components.length then
      withMemory (Memory.writeWords (← addWord frame (UInt64.ofNat offset)) words)
      return []
    else fail (.arity "async results" components.length words.length)
  | _, _ => return []

/-- Call an implementation. -/
def invokeNative (i : Implementation) (native : List Word) : Run (List Word) :=
  let expected := i.signature.params.length
  if native.length = expected then
    match i.signature.frame with
    | some f => invokeAsync i f (native.headD 0)
    | none => invokeFlat i native
  else fail (.arity i.symbol expected native.length)

end World

end Dispatch
