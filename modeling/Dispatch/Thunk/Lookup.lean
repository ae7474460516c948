import Dispatch.Code.Builder

/-!
# Look-up functions

A caller that cannot compute table offsets names a method by the address of its
descriptor.  The look-up function of a class takes metadata and a descriptor and
answers with the entry that the metadata's table holds.  It compares the descriptor
with those of the methods whose implementation is known, and asks the run-time
system about all others.

## Main definitions

* `LookupCandidate`, `LookupPlan` — what a look-up function knows.
* `LookupPlan.function` — the function.
-/

namespace Dispatch

/-- A method whose implementation a look-up function knows. -/
structure LookupCandidate where
  /-- The symbol of the method's descriptor. -/
  descriptor : String
  implementation : String
  /-- How the table entry is signed. -/
  signing : Option Signing
  deriving DecidableEq, Repr, Inhabited

/-- What a look-up function knows. -/
structure LookupPlan where
  /-- In table order. -/
  candidates : List LookupCandidate
  /-- The symbol of the type descriptor of the class. -/
  typeDescriptor : String
  deriving DecidableEq, Repr, Inhabited

namespace LookupPlan

/-- Answer for one candidate, and go on with the block for all others. -/
def tryCandidate (descriptor : Var) (c : LookupCandidate) : Build Unit := do
  let hit ← Builder.newBlock
  let miss ← Builder.newBlock
  let expected ← Builder.globalAddr c.descriptor
  let isEqual ← Builder.compareEq descriptor expected
  Builder.terminate (.branch isEqual hit miss)
  Builder.position hit
  let implementation ← Builder.globalAddr c.implementation
  let entry ← match c.signing with
    | some s => Builder.sign implementation s
    | none => pure implementation
  Builder.terminate (.ret [entry])
  Builder.position miss

/-- Try the candidates in order. -/
def tryCandidates (descriptor : Var) : List LookupCandidate → Build Unit
  | [] => return ()
  | c :: rest => do
    tryCandidate descriptor c
    tryCandidates descriptor rest

/-- The parameters and the body of a look-up function. -/
def emit (plan : LookupPlan) : Build Unit := do
  let metadata ← Builder.param .ptr
  let descriptor ← Builder.param .ptr
  -- Each candidate leaves the builder in the block for all that are not it.
  tryCandidates descriptor plan.candidates
  let typeDescriptor ← Builder.globalAddr plan.typeDescriptor
  let found ← Builder.callLookup [metadata, descriptor, typeDescriptor]
  Builder.terminate (.ret [found])

/-- The look-up function with a symbol. -/
def function (plan : LookupPlan) (symbol : String) : Attempt Function :=
  match plan.emit (Builder.new symbol .ordinary) with
  | .ok _ b => .ok b.finish
  | .error fault _ => .error fault

end LookupPlan

end Dispatch
