import Dispatch.Abi.Schema

/-!
# Context frames

An asynchronous function takes one native argument, the address of a frame that its
caller made.  The frame holds everything the ordinary convention passes in
registers:

```text
+0   header
     address of the error slot       (methods that throw)
     address of the result           (results passed by address)
     arguments                       (components, or an address)
     generic bindings
     receiver
     self metadata, witness table    (protocol methods)
     results                         (components)
```

A target may deviate from this order; `FrameEdit` lists the deviations.

## Main definitions

* `FrameField`, `Frame` — the fields and their byte offsets.
* `Cursor` — laying out one field after the other.
* `FrameEdit`, `Frame.edit` — deviations.
-/

namespace Dispatch

/-- A value in a frame. -/
inductive FrameField where
  /-- The components, a word each. -/
  | inline (offset : Nat) (components : List Scalar)
  /-- The address of the value. -/
  | address (offset : Nat)
  deriving DecidableEq, Repr, Inhabited

namespace FrameField

/-- Where the field starts. -/
def offset : FrameField → Nat
  | inline offset _ => offset
  | address offset => offset

/-- The bytes of the field. -/
def bytes : FrameField → Nat
  | inline _ components => components.length * wordBytes
  | address _ => wordBytes

end FrameField

/-- The layout of a frame: byte offsets of its fields. -/
structure Frame where
  errorSlot : Option Nat
  indirectReturn : Option Nat
  /-- One field for each parameter, in order. -/
  args : List FrameField
  bindings : Nat
  bindingCount : Nat
  /-- The receiver. -/
  localContext : Nat
  selfMetadata : Option Nat
  selfWitnessTable : Option Nat
  /-- The results; none for unit results and results passed by address. -/
  results : Option FrameField
  /-- The bytes of the whole frame. -/
  size : Nat
  deriving DecidableEq, Repr, Inhabited

/-! ### Laying out fields -/

/-- Bytes at the start of every frame that are not a field. -/
def frameHeaderBytes : Nat := 16

/-- Laying out a frame: the state is the offset where the next field goes. -/
abbrev Cursor := Step Nat

namespace Cursor

/-- Lay out a field of this many bytes; the answer is its offset. -/
def advance (bytes : Nat) : Cursor Nat := do
  let here ← get
  let next ← addSize here bytes
  set next
  return here

/-- Lay out a field of one word. -/
def word : Cursor Nat := advance wordBytes

/-- Lay out a field of one word if `present`. -/
def wordIf (present : Bool) : Cursor (Option Nat) :=
  if present then do return some (← word) else return none

/-- Lay out a value. -/
def value : Passing → Cursor FrameField
  | .direct schema => do
    let bytes ← mulSize schema.components.length wordBytes
    let offset ← advance bytes
    return .inline offset schema.components
  | .indirect _ => do return .address (← word)
  | .address => do return .address (← word)

/-- Lay out the results, if there are any to be stored in the frame. -/
def results : Passing → Cursor (Option FrameField)
  | .direct schema =>
    if schema.components.isEmpty then return none
    else do return some (← value (.direct schema))
  | .indirect _ => return none
  | .address => return none

end Cursor

/-! ### Deviations -/

/-- One deviation of a target from the standard frame. -/
inductive FrameEdit where
  | noSelfMetadata
  | noSelfWitnessTable
  | noErrorSlot
  | noIndirectReturn
  | noResults
  /-- The results are behind an address just after the header. -/
  | resultsAddress
  /-- The results are two words just after the header. -/
  | resultsTwo
  /-- One argument more than there are parameters. -/
  | extraArg
  | popArg
  /-- The first argument is stored the other way. -/
  | flipArg
  | noBindings
  | extraBinding
  | doubleSize
  | halfSize
  deriving DecidableEq, Repr, Inhabited

namespace FrameEdit

/-- Every deviation with its name. -/
def all : List (String × FrameEdit) :=
  [("no_self_metadata", noSelfMetadata), ("no_self_witness_table", noSelfWitnessTable),
   ("no_error_slot", noErrorSlot), ("no_indirect_return", noIndirectReturn),
   ("no_results", noResults), ("results_address", resultsAddress),
   ("results_two", resultsTwo), ("extra_arg", extraArg), ("pop_arg", popArg),
   ("flip_arg0", flipArg), ("no_bindings", noBindings), ("extra_binding", extraBinding),
   ("double_size", doubleSize), ("half_size", halfSize)]

/-- The deviation with a name. -/
def ofText? (s : String) : Option FrameEdit := all.lookup s

end FrameEdit

namespace FrameField

/-- The same place holding an address instead of components, and the other way
round, with one component. -/
def flip : FrameField → FrameField
  | inline offset _ => .address offset
  | address offset => .inline offset [.i64]

end FrameField

namespace Frame

/-- Change the layout of a frame by one deviation. -/
def edit (f : Frame) : FrameEdit → Attempt Frame
  | .noSelfMetadata => .ok { f with selfMetadata := none }
  | .noSelfWitnessTable => .ok { f with selfWitnessTable := none }
  | .noErrorSlot => .ok { f with errorSlot := none }
  | .noIndirectReturn => .ok { f with indirectReturn := none }
  | .noResults => .ok { f with results := none }
  | .resultsAddress => .ok { f with results := some (.address frameHeaderBytes) }
  | .resultsTwo => .ok { f with results := some (.inline frameHeaderBytes [.i64, .i64]) }
  | .extraArg => .ok { f with args := f.args ++ [.address frameHeaderBytes] }
  | .popArg => .ok { f with args := f.args.dropLast }
  | .flipArg => .ok { f with args := f.args.modify 0 FrameField.flip }
  | .noBindings => .ok { f with bindingCount := 0 }
  | .extraBinding => do return { f with bindingCount := ← addSize f.bindingCount 1 }
  | .doubleSize => do return { f with size := ← mulSize f.size 2 }
  | .halfSize => .ok { f with size := f.size / 2 }

end Frame

end Dispatch
