import Dispatch.Abi.Lowering
import Dispatch.Code.Builder
import Dispatch.Thunk.Explosion

/-!
# The arguments of a thunk

A thunk first recovers the logical arguments from its native parameters: the
components of each parameter, or its address, and the generic bindings.  From a flat
parameter list, trailing parameters come off the back and the rest is claimed from
the front.  From a context frame, every field is loaded from its offset.  Both end
in the same record, so what follows does not depend on how the arguments arrived.

Parameters and bindings are one stream.  Whoever passes them on cuts it up again by
its own signature, so a field with more or fewer components than its parameter moves
everything behind it.

## Main definitions

* `WitnessVars`, `Arguments` — the recovered arguments.
* `Arguments.ofFlat` — from a flat parameter list.
* `Arguments.ofFrame` — from a context frame.
* `Arguments.split` — the stream, cut up for a call.
-/

namespace Dispatch

/-- The self metadata and the witness table of a protocol call. -/
structure WitnessVars where
  metadata : Var
  table : Var
  deriving DecidableEq, Repr, Inhabited

/-- The arguments of a thunk, however they arrived. -/
structure Arguments where
  receiver : Var
  witness : Option WitnessVars
  indirectReturn : Option Var
  errorSlot : Option Var
  /-- Where errors of the calls that the thunk makes go. -/
  errorDestination : Option Var
  resumeBuffer : Option Var
  /-- The components of each parameter, or its address, and then the bindings. -/
  stream : Explosion
  deriving DecidableEq, Repr, Inhabited

/-- Take the last variable if `present`. -/
def Explosion.takeLastIf (e : Explosion) (present : Bool) : Attempt (Option Var × Explosion) :=
  if present then do
    let (value, rest) ← e.takeLast
    return (some value, rest)
  else return (none, e)

/-- Claim the next variable if `present`. -/
def Explosion.claimNextIf (e : Explosion) (present : Bool) : Attempt (Option Var × Explosion) :=
  if present then do
    let (value, rest) ← e.claimNext
    return (some value, rest)
  else return (none, e)

/-- Take the witness table and the self metadata off the back if `present`. -/
def Explosion.takeWitnessIf (e : Explosion) (present : Bool) :
    Attempt (Option WitnessVars × Explosion) :=
  if present then do
    let (table, rest) ← e.takeLast
    let (metadata, rest) ← rest.takeLast
    return (some ⟨metadata, table⟩, rest)
  else return (none, e)

namespace Arguments

/-- Let the errors of all calls go to a slot, if there is one.  They have one destination
only. -/
def installDestination (installed : Option Var) : Option Var → Attempt (Option Var)
  | none => return installed
  | some slot =>
    match installed with
    | none => return some slot
    | some _ => Attempt.trap .destinationTwice

/-! ### Flat parameter lists -/

/-- The components of one parameter, or its address, from the front of a flat list. -/
def flatParam (e : Explosion) (c : Carrier) : Build (List Var × Explosion) :=
  match c.passing with
  | .direct schema => do
    let (native, rest) ← e.claim schema.nativeKinds.length
    let components ← Builder.fromNative c.type schema.components native
    return (components, rest)
  | .indirect schema => do
    let (address, rest) ← e.claimNext
    let components ← Builder.loadTake schema.components address
    return (components, rest)
  | .address => do
    let (values, rest) ← e.claim 1
    return (values, rest)

/-- The same for all parameters, one after the other. -/
def flatParams (e : Explosion) : List Carrier → Build (List Var × Explosion)
  | [] => return ([], e)
  | c :: rest => do
    let (first, e) ← flatParam e c
    let (others, e) ← flatParams e rest
    return (first ++ others, e)

/-- The arguments of an ordinary function or coroutine.  Errors may have a destination
already. -/
def ofFlat (s : Lowered) (installed : Option Var) (e : Explosion) : Build Arguments := do
  -- What stands at a fixed distance from an end comes off first: the bindings are
  -- whatever is left between the parameters and the receiver.
  let (witness, e) ← e.takeWitnessIf s.witness
  let (errorSlot, e) ← e.takeLastIf s.throws
  let errorDestination ← installDestination installed errorSlot
  let (resumeBuffer, e) ← e.claimNextIf s.convention.isCoroutine
  let (receiver, e) ← e.takeLast
  let (indirectReturn, e) ← e.claimNextIf s.hasIndirectReturn
  let (params, e) ← flatParams e s.carriers
  if e.size = s.bindingCount then
    return {
      receiver, witness, indirectReturn, errorSlot, errorDestination, resumeBuffer
      stream := .ofList (params ++ e.pending) }
  else throw (.trap (.bindingsLeft e.size s.bindingCount))

/-! ### Context frames -/

/-- Load a field of a frame if it has one. -/
def loadField (context : Var) : Option Nat → Build (Option Var)
  | none => return none
  | some offset => do return some (← Builder.load .ptr context offset)

/-- Load consecutive words, one of each kind. -/
def loadWords (addr : Var) (offset : Nat) : List Scalar → Build (List Var)
  | [] => return []
  | kind :: rest => do
    let first ← Builder.load kind addr offset
    let others ← loadWords addr (offset + wordBytes) rest
    return first :: others

/-- The self metadata and the witness table, which a frame has both or neither of. -/
def frameWitness (f : Frame) (context : Var) : Build (Option WitnessVars) :=
  match f.selfMetadata, f.selfWitnessTable with
  | some metadata, some table => do
    let metadata ← Builder.load .ptr context metadata
    let table ← Builder.load .ptr context table
    return some ⟨metadata, table⟩
  | none, none => return none
  | _, _ => throw (.trap .halfWitness)

/-- The components of the parameter with this index, or its address, from its field. -/
def frameParam (context : Var) (index : Nat) (field : FrameField) (c : Carrier) :
    Build (List Var) :=
  match field, c.passing with
  | .inline offset components, .direct _ => loadWords context offset components
  | .address offset, .indirect schema => do
    let address ← Builder.load .ptr context offset
    Builder.loadTake schema.components address
  | .address offset, .address => do return [← Builder.load .ptr context offset]
  | _, _ => throw (.trap (.argumentField index))

/-- The same for all parameters, one after the other; the first has this index. -/
def frameParams (context : Var) (index : Nat) :
    List (FrameField × Carrier) → Build (List Var)
  | [] => return []
  | (field, c) :: rest => do
    let first ← frameParam context index field c
    let others ← frameParams context (index + 1) rest
    return first ++ others

/-- The arguments of an asynchronous function.  Errors may have a destination already. -/
def ofFrame (s : Lowered) (f : Frame) (installed : Option Var) (context : Var) :
    Build Arguments := do
  let receiver ← Builder.load .ptr context f.localContext
  let witness ← frameWitness f context
  if witness.isSome != s.witness then throw (.trap .witnessFields)
  let errorSlot ← loadField context f.errorSlot
  let indirectReturn ← loadField context f.indirectReturn
  if f.args.length ≠ s.carriers.length then throw (.trap .argumentFields)
  let params ← frameParams context 0 (f.args.zip s.carriers)
  let bindings ← loadWords context f.bindings (List.replicate f.bindingCount .ptr)
  let errorDestination ← installDestination installed errorSlot
  return {
    receiver, witness, indirectReturn, errorSlot, errorDestination, resumeBuffer := none
    stream := .ofList (params ++ bindings) }

/-! ### Cutting the stream up -/

/-- The variables of each parameter of a call, and its bindings.  What is left after
the parameters has to be as many as the call takes. -/
def split (s : Lowered) (args : Arguments) : Attempt (List (List Var) × List Var) := do
  let (params, rest) ← args.stream.claimEach (s.carriers.map fun c => c.passing.width)
  if rest.size = s.bindingCount then return (params, rest.pending)
  else Attempt.trap (.bindingsForwarded rest.size s.bindingCount)

end Arguments

end Dispatch
