import Dispatch.Method
import Dispatch.Abi.Frame

/-!
# The layout of a target

How many words a target passes in registers decides how every type crosses a call,
and with it the frame of every asynchronous method.

## Main definitions

* `Layout` — the parameters of a target.
* `Layout.schema`, `Layout.passing` — how the values of a type are passed.
* `Layout.standardFrame`, `Layout.frame` — the frame of a method's calls.
-/

namespace Dispatch

/-- The parameters of a target. -/
structure Layout where
  /-- The most native words that a value passed in registers may take. -/
  maxDirectWords : Nat := 4
  /-- How frames deviate from the standard ones. -/
  frameEdits : List FrameEdit := []
  deriving DecidableEq, Repr, Inhabited

namespace Layout

/-- The schema of a type without generic parameters. -/
def schema (l : Layout) (p : Pool) (type : TypeId) : Attempt Schema := do
  let components ← p.components type
  return .ofComponents components l.maxDirectWords

/-- How the values of a type are passed. -/
def passing (l : Layout) (p : Pool) (type : TypeId) : Attempt Passing := do
  if ← p.isAddressOnly type then return .address
  let schema ← l.schema p type
  return if schema.isIndirect then .indirect schema else .direct schema

/-- Lay out the arguments of a call, from left to right. -/
def frameArgs (l : Layout) (p : Pool) : List TypeId → Cursor (List FrameField)
  | [] => return []
  | type :: rest => do
    let passing ← l.passing p type
    let field ← Cursor.value passing
    let fields ← l.frameArgs p rest
    return field :: fields

/-- Lay out the standard frame of a method's calls. -/
def layOut (l : Layout) (p : Pool) (m : Method) : Cursor Frame := do
  let errorSlot ← Cursor.wordIf m.signature.throws
  let result ← l.passing p m.signature.result
  let indirectReturn ← Cursor.wordIf result.byAddress
  let args ← l.frameArgs p m.signature.params
  let bindingCount ← m.signature.generics.bindingCount
  let bindings ← Cursor.advance (← mulSize bindingCount wordBytes)
  let localContext ← Cursor.word
  let selfMetadata ← Cursor.wordIf m.isWitness
  let selfWitnessTable ← Cursor.wordIf m.isWitness
  let results ← Cursor.results result
  return {
    errorSlot, indirectReturn, args, bindings, bindingCount, localContext,
    selfMetadata, selfWitnessTable, results, size := ← get }

/-- The standard frame of a method's calls. -/
def standardFrame (l : Layout) (p : Pool) (m : Method) : Attempt Frame :=
  match l.layOut p m frameHeaderBytes with
  | .ok frame _ => .ok frame
  | .error fault _ => .error fault

/-- The frame of a method's calls. -/
def frame (l : Layout) (p : Pool) (m : Method) : Attempt Frame := do
  l.frameEdits.foldlM Frame.edit (← l.standardFrame p m)

end Layout

end Dispatch
