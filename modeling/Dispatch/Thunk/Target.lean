import Dispatch.Hierarchy.Slots
import Dispatch.Thunk.Arguments

/-!
# What a thunk calls

Where a method's implementation is found follows from where the method is declared:
in the receiver's witness table, or in the table of the receiver's class.

## Main definitions

* `Target`, `Target.ofMethod` — the place of a method's implementation.
* `Target.resolve` — the loads that get it.
-/

namespace Dispatch

/-- The place of a method's implementation. -/
inductive Target where
  /-- A word of the receiver's witness table. -/
  | witness (index : Nat)
  /-- An entry of the table of the receiver's class, and how it is signed. -/
  | virtual (slot : Slot) (signing : Option Signing)
  deriving DecidableEq, Repr, Inhabited

/-- How the table entries of a method are signed under a key. -/
def Hierarchy.signing (h : Hierarchy) (p : Pool) (key : Key) (m : Method) : Attempt Signing := do
  return ⟨key, ← h.methodDiscriminator p m⟩

namespace Target

/-- The place of a method's implementation, in code that signs with `key`. -/
def ofMethod (h : Hierarchy) (p : Pool) (key : Option Key) (m : Method) : Attempt Target := do
  if m.isWitness then
    return .witness (← (h.witnessIndex m).orTrap .witnessSlot)
  else
    let slot ← (h.slot m).orTrap .virtualSlot
    let signing ← key.mapM fun key => (h.signing p key m).orTrap .discriminator
    return .virtual slot signing

/-- Is the receiver itself the metadata that the table is in? -/
def receiverIsMetadata (p : Pool) (m : Method) : Attempt Bool :=
  match m.kind with
  | .onClass => return true
  | .onInstance => p.isMetatype m.signature.selfType

/-- Load the implementation. -/
def resolve (p : Pool) (m : Method) (args : Arguments) : Target → Build Var
  | witness index =>
    match args.witness with
    | some w => Builder.witnessMethod w.table index
    | none => throw (.trap .noWitnessTable)
  | virtual slot signing => do
    let metadata ←
      if ← receiverIsMetadata p m then pure args.receiver
      else Builder.heapMetadata args.receiver
    let loaded ← Builder.tableMethod metadata slot
    match signing with
    | some s => Builder.authenticate loaded s
    | none => return loaded

end Target

end Dispatch
