import Dispatch.Word
import Dispatch.Convention

/-!
# What can go wrong

Every failing operation of the library names its cause.  There are three families.

* `AbiError`: a question about layouts or tables has no answer.
* `MachineError`: code that runs on the machine did something real hardware would
  trap on.
* `Trap`: a condition that the code generator relies on does not hold, or an
  arithmetic result does not fit.  A trap ends the request that met it; effects
  from before it stay.

`Fault` is their sum.  The wording of every cause is in the three `message`
functions and nowhere else.

## Main definitions

* `AbiError`, `MachineError`, `Trap`, `Fault` — the causes.
* `Fault.message` — the text of a cause.
* `Attempt` — a computation that may fail, `Step` — one that also keeps a state,
  and keeps it when it fails.
* `Attempt.orTrap` — treat a question without an answer as a broken condition.
* `Attempt.onMachine` — the same question asked while code runs.
-/

namespace Dispatch

/-- A type is named by its position in a pool. -/
abbrev TypeId := Nat

/-! ### Questions without an answer -/

/-- Why a question about layouts or tables has no answer. -/
inductive AbiError where
  /-- The type contains a generic parameter, so its values are never loaded. -/
  | addressOnly (type : TypeId)
  | unknownClass (name : String)
  | unknownProtocol (name : String)
  /-- The protocol exists and does not ask for the method. -/
  | notARequirement (protocol selector : String)
  /-- The class exists and does not declare the method. -/
  | unknownMethod (className selector : String)
  /-- A protocol method has no slot in a class table. -/
  | notAClassMethod (selector : String)
  /-- A class method has no slot in a witness table. -/
  | notAWitnessMethod (selector : String)
  /-- A conformance does not have one witness for each requirement. -/
  | witnessCount (type protocol : String) (expected found : Nat)
  deriving DecidableEq, Repr, Inhabited

/-- The text of a question without an answer. -/
def AbiError.message : AbiError → String
  | addressOnly type => s!"type t{type} is address-only and has no native schema"
  | unknownClass name => s!"unknown class `{name}`"
  | unknownProtocol name => s!"unknown protocol `{name}`"
  | notARequirement protocol selector =>
    s!"`{selector}` is not a requirement of protocol `{protocol}`"
  | unknownMethod className selector =>
    s!"`{selector}` is not declared by class `{className}`"
  | notAClassMethod selector =>
    s!"`{selector}` is protocol-dispatched and has no virtual table slot"
  | notAWitnessMethod selector =>
    s!"`{selector}` is a class method and has no witness table slot"
  | witnessCount type protocol expected found =>
    s!"conformance of `{type}` to `{protocol}` supplies {found} witnesses, expected {expected}"

/-! ### Errors of running code -/

/-- Why code that runs on the machine stopped. -/
inductive MachineError where
  | unmapped (address : Word)
  /-- The word was moved out and not written since. -/
  | useAfterTake (address : Word)
  /-- The callee, by its symbol or by its address, has no body. -/
  | unknownCallee (callee : String)
  | authFailure (value : Word) (expected : UInt16)
  | arity (what : String) (expected found : Nat)
  /-- The implementation raised an error and its caller gave no place for it. -/
  | unhandledError (symbol : String)
  | frameTooSmall (frame : Word) (actual required : Nat)
  | badDescriptor (descriptor : Word)
  /-- The argument does not have the shape that its parameter is passed in. -/
  | argumentShape (index : Nat)
  | unreachable (symbol : String)
  | metadata (cause : AbiError)
  deriving DecidableEq, Repr, Inhabited

/-- The text of an error of running code. -/
def MachineError.message : MachineError → String
  | unmapped address => "access to unmapped address " ++ hex address.toNat
  | useAfterTake address => "read of " ++ hex address.toNat ++ " after its value was taken"
  | unknownCallee callee =>
    s!"call to {callee}, which is neither a thunk nor a registered implementation"
  | authFailure value expected =>
    "pointer " ++ hex value.toNat ++ " failed authentication (expected tag "
      ++ hex4 expected.toNat ++ ")"
  | arity what expected found => s!"{what}: expected {expected} values, found {found}"
  | unhandledError symbol => s!"`{symbol}` raised an error but its caller passed no error slot"
  | frameTooSmall frame actual required =>
    "context frame at " ++ hex frame.toNat ++ s!" has {actual} bytes, {required} required"
  | badDescriptor descriptor =>
    "descriptor " ++ hex descriptor.toNat ++ " does not identify a method of the given class"
  | argumentShape index => s!"argument {index} does not match how its parameter is passed"
  | unreachable symbol => s!"reached unreachable code in `{symbol}`"
  | metadata cause => cause.message

/-! ### Broken conditions -/

/-- What the code generator was doing when it asked a question it must have an
answer to. -/
inductive Task where
  | lowerThunk
  | lowerForwarded
  | witnessSlot
  | virtualSlot
  | discriminator
  | classMethods
  | typeDescriptor
  | methodDescriptor
  deriving DecidableEq, Repr, Inhabited

/-- A task in words. -/
def Task.text : Task → String
  | lowerThunk => "lowering a dispatch thunk signature"
  | lowerForwarded => "lowering a substituted signature"
  | witnessSlot => "resolving a witness table slot"
  | virtualSlot => "resolving a virtual table slot"
  | discriminator => "computing a method discriminator"
  | classMethods => "listing class methods"
  | typeDescriptor => "resolving a type context descriptor"
  | methodDescriptor => "querying a method descriptor"

/-- A condition that does not hold. -/
inductive Trap where
  /-- The result of an operation on words or sizes does not fit. -/
  | overflow (operation : Overflow)
  /-- A walk along declarations, types or calls comes back to where it was, so it has
  no end. -/
  | endless
  /-- The interner never gave out this name. -/
  | foreignName (shard index : Nat)
  | shardRange
  | indexRange
  | shardFull (shard : Nat)
  /-- The pool never gave out this type. -/
  | foreignType (type : TypeId)
  | noReplacement (index covered : Nat)
  | asyncCoroutine
  | blockRange (block count : Nat)
  | emitAfterTerminator (block : Nat)
  | secondTerminator (block : Nat)
  | runtimeArity (found : Nat)
  | noNativeWords
  | nativeCount (found expected : Nat)
  | componentCount (found expected : Nat)
  | noContextFrame (convention : Convention)
  | claimPastEnd
  | claimTooMany (count size : Nat)
  | takeFromEmpty
  | bindingsLeft (found expected : Nat)
  | bindingsForwarded (found expected : Nat)
  /-- The frame has a field for one of self metadata and witness table only. -/
  | halfWitness
  | witnessFields
  | argumentFields
  | argumentField (index : Nat)
  | resultByAddress
  | noWitnessTable
  | indexBounds (index length : Nat)
  | destinationTwice
  | contextNotAlone
  | coroutineOutcome
  | ordinaryOutcome
  /-- A result passed by address stands where native words do. -/
  | directByAddress
  | noResultField
  | noResumeBuffer
  | noResultDestination
  | noErrorDestination
  /-- A parameter passed by address stands where native words do. -/
  | wordsByAddress
  | wordsUnmapped
  | contextInCall
  | noSelfMetadata
  | noCallWitness
  | noWitnessMetadata
  | thunkVanished
  | lookupVanished
  | noDescriptor (selector : String)
  | noAsyncPointer (selector : String)
  | noAnswer (task : Task) (cause : AbiError)
  deriving DecidableEq, Repr, Inhabited

/-- The text of a broken condition. -/
def Trap.message : Trap → String
  | overflow .add => "attempt to add with overflow"
  | overflow .sub => "attempt to subtract with overflow"
  | overflow .mul => "attempt to multiply with overflow"
  | endless => "the walk does not end"
  | foreignName shard index =>
    s!"Name(shard={shard}, local={index}) was not produced by this interner"
  | shardRange => "assertion failed: shard < 16"
  | indexRange => "assertion failed: local <= Self::MAX_LOCAL"
  | shardFull shard => s!"interner shard {shard} exceeded capacity"
  | foreignType type => s!"TypeId({type}) does not belong to this pool"
  | noReplacement index covered =>
    s!"generic parameter {index} has no replacement (map covers {covered})"
  | asyncCoroutine => "internal error: a function type cannot be both async and a coroutine"
  | blockRange block count => s!"BlockId {block} out of bounds (have {count} blocks)"
  | emitAfterTerminator block => s!"emitting into terminated block {block}"
  | secondTerminator block => s!"block {block} already terminated"
  | runtimeArity found =>
    "assertion `left == right` failed: relay_lookup_class_method arity\n"
      ++ s!"  left: {found}\n right: 3"
  | noNativeWords => "internal error: indirect values have no native words"
  | nativeCount found expected =>
    s!"internal error: native word count mismatch: {found} words for a {expected}-word schema"
  | componentCount found expected =>
    "internal error: canonical component count mismatch: "
      ++ s!"{found} values for {expected} components"
  | noContextFrame convention =>
    "internal error: " ++ convention.title ++ " signature has no context frame"
  | claimPastEnd => "internal error: claimed past the end of an explosion"
  | claimTooMany count size =>
    s!"internal error: claimed {count} values from an explosion of {size}"
  | takeFromEmpty => "internal error: took the last value of an empty explosion"
  | bindingsLeft found expected =>
    s!"internal error: {found} values left for {expected} generic bindings"
  | bindingsForwarded found expected =>
    s!"internal error: {found} binding words forwarded for {expected} generic bindings"
  | halfWitness => "internal error: context frame has half of the witness metadata"
  | witnessFields => "internal error: context frame witness fields disagree with the signature"
  | argumentFields => "internal error: context frame argument count disagrees with the signature"
  | argumentField index =>
    s!"internal error: frame field of parameter {index} disagrees with its passing"
  | resultByAddress => "internal error: async direct result stored by address"
  | noWitnessTable => "internal error: witness dispatch without a witness table"
  | indexBounds index length =>
    s!"index out of bounds: the len is {length} but the index is {index}"
  | destinationTwice => "internal error: error destination installed twice"
  | contextNotAlone => "internal error: async thunk takes more than its context"
  | coroutineOutcome => "internal error: coroutine call produced a non-coroutine outcome"
  | ordinaryOutcome => "internal error: ordinary call produced a coroutine outcome"
  | directByAddress => "internal error: direct results for a result passed by address"
  | noResultField => "internal error: async results with no result field in the frame"
  | noResumeBuffer => "internal error: coroutine call without a resume buffer"
  | noResultDestination => "internal error: indirect result without a destination"
  | noErrorDestination => "internal error: throwing call without an error destination"
  | wordsByAddress => "internal error: native words for a parameter passed by address"
  | wordsUnmapped => "internal error: parameter words were not mapped"
  | contextInCall => "internal error: context parameter in a non-async call"
  | noSelfMetadata => "internal error: witness call without self metadata"
  | noCallWitness => "internal error: witness call without a witness table"
  | noWitnessMetadata => "internal error: witness call without witness metadata"
  | thunkVanished => "internal error: dispatch thunk vanished after declaration"
  | lookupVanished => "internal error: lookup function vanished after declaration"
  | noDescriptor selector =>
    s!"internal error: `{selector}` overrides an inherited entry and has no method descriptor"
  | noAsyncPointer selector =>
    s!"internal error: `{selector}` is not async and has no async function pointer"
  | noAnswer task cause => "internal error: " ++ task.text ++ ": " ++ cause.message

/-! ### Faults -/

/-- Any failure of the library. -/
inductive Fault where
  | abi (cause : AbiError)
  | machine (cause : MachineError)
  | trap (cause : Trap)
  deriving DecidableEq, Repr, Inhabited

/-- The text of a fault. -/
def Fault.message : Fault → String
  | abi cause => cause.message
  | machine cause => cause.message
  | trap cause => cause.message

/-- A computation that yields a value or a fault. -/
abbrev Attempt := Except Fault

/-- A computation over a state of type `σ`.  A fault leaves the state as it is at
that moment: nothing is rolled back. -/
abbrev Step (σ : Type) := EStateM Fault σ

instance {σ : Type} : MonadLift Attempt (Step σ) where
  monadLift attempt := fun s =>
    match attempt with
    | .ok a => .ok a s
    | .error fault => .error fault s

namespace Attempt

/-- Fail with a broken condition. -/
def trap {α : Type} (cause : Trap) : Attempt α := .error (.trap cause)

/-- Fail with a question that has no answer. -/
def abi {α : Type} (cause : AbiError) : Attempt α := .error (.abi cause)

/-- The value of a checked operation. -/
def fits {α : Type} (operation : Overflow) : Option α → Attempt α
  | some a => .ok a
  | none => .error (.trap (.overflow operation))

/-- Something that has to be there. -/
def require {α : Type} (cause : Trap) : Option α → Attempt α
  | some a => .ok a
  | none => .error (.trap cause)

/-- The element at an index. -/
def element {α : Type} (l : List α) (index : Nat) : Attempt α :=
  require (.indexBounds index l.length) l[index]?

/-- A question that the code generator must have an answer to. -/
def orTrap {α : Type} (task : Task) : Attempt α → Attempt α
  | .error (.abi cause) => .error (.trap (.noAnswer task cause))
  | attempt => attempt

/-- A question asked by running code: having no answer is an error of that code. -/
def onMachine {α : Type} : Attempt α → Attempt α
  | .error (.abi cause) => .error (.machine (.metadata cause))
  | attempt => attempt

end Attempt

namespace Step

/-- Run a step on a part of a larger state. -/
def zoom {σ τ α : Type} (part : σ → τ) (put : τ → σ → σ) (step : Step τ α) : Step σ α :=
  fun s =>
    match step (part s) with
    | .ok a t => .ok a (put t s)
    | .error fault t => .error fault (put t s)

/-- Run a step on a state of its own. -/
def run {σ α : Type} (step : Step σ α) (s : σ) : Attempt (α × σ) :=
  match step s with
  | .ok a s => .ok (a, s)
  | .error fault _ => .error fault

/-- Run a step and give its outcome as a value; the state is kept either way. -/
def observe {σ α : Type} (step : Step σ α) : Step σ (Attempt α) :=
  fun s =>
    match step s with
    | .ok a s => .ok (.ok a) s
    | .error fault s => .ok (.error fault) s

end Step

/-- The sum of two words, or a trap. -/
def addWord (a b : Word) : Attempt Word := Attempt.fits .add (Word.add? a b)

/-- The product of two words, or a trap. -/
def mulWord (a b : Word) : Attempt Word := Attempt.fits .mul (Word.mul? a b)

/-- The sum of two sizes, or a trap. -/
def addSize (a b : Nat) : Attempt Nat := Attempt.fits .add (Size.add? a b)

/-- The difference of two sizes, or a trap. -/
def subSize (a b : Nat) : Attempt Nat := Attempt.fits .sub (Size.sub? a b)

/-- The product of two sizes, or a trap. -/
def mulSize (a b : Nat) : Attempt Nat := Attempt.fits .mul (Size.mul? a b)

end Dispatch
