import Dispatch.Abi.Layout

/-!
# Native signatures

A method as the native calling convention sees it.  Ordinary functions and
coroutines take

```text
[resume buffer] [result address] params bindings self [error slot] [self metadata, witness table]
```

where the parts in brackets are there for coroutines, results passed by address,
methods that throw and protocol methods.  An asynchronous function takes its context
frame and returns nothing.

## Main definitions

* `Role`, `NativeParam` — what a native parameter carries.
* `Lowered` — a method's native signature; `Lowered.params`, `Lowered.results` — its
  native parameters and results.
* `Layout.lower` — the native signature of a method.
-/

namespace Dispatch

/-- What a native parameter carries. -/
inductive Role where
  | resumeBuffer
  | indirectReturn
  /-- A native word of a parameter that is passed in registers. -/
  | param (index word : Nat)
  /-- The address of the components of a parameter. -/
  | paramIndirect (index : Nat)
  /-- The address of a parameter that is never loaded. -/
  | paramAddress (index : Nat)
  | genericBinding (index : Nat)
  | selfValue
  | errorSlot
  | selfMetadata
  | selfWitnessTable
  | context
  deriving DecidableEq, Repr, Inhabited

/-- The name of a role. -/
def Role.text : Role → String
  | resumeBuffer => "resume_buffer"
  | indirectReturn => "indirect_return"
  | param index word => s!"param {index}.{word}"
  | paramIndirect index => s!"param_indirect {index}"
  | paramAddress index => s!"param_address {index}"
  | genericBinding index => s!"generic_binding {index}"
  | selfValue => "self"
  | errorSlot => "error_slot"
  | selfMetadata => "self_metadata"
  | selfWitnessTable => "self_witness_table"
  | context => "context"

/-- A native parameter. -/
structure NativeParam where
  role : Role
  kind : Scalar
  deriving DecidableEq, Repr, Inhabited

/-- A declared parameter or result with the way it is passed. -/
structure Carrier where
  type : TypeId
  passing : Passing
  deriving DecidableEq, Repr, Inhabited

/-- A method's native signature. -/
structure Lowered where
  convention : Convention
  /-- Is the method dispatched through a witness table? -/
  witness : Bool
  throws : Bool
  /-- The declared parameters. -/
  carriers : List Carrier
  result : Carrier
  bindingCount : Nat
  /-- The context frame of an asynchronous signature. -/
  frame : Option Frame
  deriving DecidableEq, Repr, Inhabited

namespace NativeParam

/-- A pointer parameter. -/
def ptr (role : Role) : NativeParam := ⟨role, .ptr⟩

/-- The native parameters of one declared parameter. -/
def ofPassing (index : Nat) : Passing → List NativeParam
  | .direct schema => schema.nativeKinds.zipIdx.map fun (kind, word) => ⟨.param index word, kind⟩
  | .indirect _ => [ptr (.paramIndirect index)]
  | .address => [ptr (.paramAddress index)]

end NativeParam

namespace Lowered

/-- Is the result written through an address? -/
def hasIndirectReturn (s : Lowered) : Bool := s.result.passing.byAddress

/-- The native parameters of an ordinary function or coroutine. -/
def flatParams (s : Lowered) : List NativeParam :=
  (if s.convention.isCoroutine then [.ptr .resumeBuffer] else [])
    ++ (if s.hasIndirectReturn then [.ptr .indirectReturn] else [])
    ++ s.carriers.zipIdx.flatMap (fun (c, index) => NativeParam.ofPassing index c.passing)
    ++ (List.range s.bindingCount).map (fun index => .ptr (.genericBinding index))
    ++ [.ptr .selfValue]
    ++ (if s.throws then [.ptr .errorSlot] else [])
    ++ (if s.witness then [.ptr .selfMetadata, .ptr .selfWitnessTable] else [])

/-- The native parameters. -/
def params (s : Lowered) : List NativeParam :=
  if s.convention.isAsync then [.ptr .context] else s.flatParams

/-- The kinds of the native words of a result passed in registers. -/
def resultKinds (s : Lowered) : List Scalar :=
  match s.result.passing with
  | .direct schema => schema.nativeKinds
  | .indirect _ => []
  | .address => []

/-- The kinds of the native results. -/
def results (s : Lowered) : List Scalar :=
  match s.convention with
  | .async => []
  | .ordinary => s.resultKinds
  | .yieldOnce => .ptr :: s.resultKinds

/-- The kinds of the native parameters. -/
def paramKinds (s : Lowered) : List Scalar := s.params.map NativeParam.kind

/-- The position of the first native parameter with a role. -/
def position (s : Lowered) (role : Role) : Option Nat :=
  s.params.findIdx? fun p => p.role == role

/-- The context frame of an asynchronous signature. -/
def contextFrame (s : Lowered) : Attempt Frame :=
  match s.frame with
  | some frame => .ok frame
  | none => Attempt.trap (.noContextFrame s.convention)

end Lowered

namespace Layout

/-- A parameter or result with the way the target passes it. -/
def carrier (l : Layout) (p : Pool) (type : TypeId) : Attempt Carrier := do
  return ⟨type, ← l.passing p type⟩

/-- The native signature of a method. -/
def lower (l : Layout) (p : Pool) (m : Method) : Attempt Lowered := do
  let carriers ← m.signature.params.mapM (l.carrier p)
  let result ← l.carrier p m.signature.result
  let bindingCount ← m.signature.generics.bindingCount
  let frame ← if m.convention.isAsync then some <$> l.frame p m else pure none
  return {
    convention := m.convention
    witness := m.isWitness
    throws := m.signature.throws
    carriers, result, bindingCount, frame }

end Layout

end Dispatch
