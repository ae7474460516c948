import Dispatch.Auth
import Dispatch.Types.Scalar

/-!
# Code

Generated functions are lists of basic blocks over word-sized variables.  They are
small and never loop; only look-up functions branch.

## Main definitions

* `Slot` — where an entry of a class table is.
* `Instr`, `Terminator`, `Block`, `Function` — code.
* `Instr.defs`, `Instr.uses`, `Terminator.uses`, `Terminator.successors` — which
  variables and blocks they mention.
-/

namespace Dispatch

/-- A variable of a function, by number. -/
abbrev Var := Nat

/-- A block of a function, by number. -/
abbrev BlockId := Nat

/-- Where the entry of a method is in the metadata of a class. -/
inductive Slot where
  /-- A word index from the start of the metadata. -/
  | fixed (word : Nat)
  /-- The entry with this index among those that the class itself adds.  Where these
  start, as a byte offset, is read at run time from the global `bounds`. -/
  | resilient (bounds : String) (index : Nat)
  deriving DecidableEq, Repr, Inhabited

/-- The routine of the run-time system that finds a method by its descriptor. -/
def lookupRoutine : String := "relay_lookup_class_method"

/-- An instruction.  Offsets are in bytes. -/
inductive Instr where
  | const (dst : Var) (value : Word)
  /-- The address of a global symbol. -/
  | globalAddr (dst : Var) (symbol : String)
  | load (dst addr : Var) (offset : Nat)
  | store (value addr : Var) (offset : Nat)
  /-- Move as many consecutive words as there are destinations out of memory. -/
  | loadTake (dsts : List Var) (addr : Var)
  /-- Fresh zeroed memory. -/
  | stackAlloc (dst : Var) (bytes : Nat)
  /-- The components of a value of the given type, from its native words. -/
  | fromNative (type : TypeId) (dsts srcs : List Var)
  /-- The native words of a value of the given type, from its components. -/
  | toNative (type : TypeId) (dsts srcs : List Var)
  /-- The metadata of an object's class. -/
  | heapMetadata (dst object : Var)
  /-- An entry of a witness table. -/
  | witnessMethod (dst table : Var) (index : Nat)
  /-- An entry of a class table. -/
  | tableMethod (dst metadata : Var) (slot : Slot)
  /-- Check a signed pointer and strip its tag. -/
  | authenticate (dst value : Var) (signing : Signing)
  | sign (dst value : Var) (signing : Signing)
  /-- One if the operands are equal, else zero. -/
  | compareEq (dst lhs rhs : Var)
  /-- Attach the context frame, which must have at least this many bytes. -/
  | asyncEntry (context : Var) (bytes : Nat)
  | call (callee : Var) (convention : Convention) (args results : List Var)
  /-- Call `lookupRoutine`. -/
  | callLookup (dst : Var) (args : List Var)
  deriving DecidableEq, Repr, Inhabited

namespace Instr

/-- The variables that an instruction writes. -/
def defs : Instr → List Var
  | const dst _ => [dst]
  | globalAddr dst _ => [dst]
  | load dst _ _ => [dst]
  | store _ _ _ => []
  | loadTake dsts _ => dsts
  | stackAlloc dst _ => [dst]
  | fromNative _ dsts _ => dsts
  | toNative _ dsts _ => dsts
  | heapMetadata dst _ => [dst]
  | witnessMethod dst _ _ => [dst]
  | tableMethod dst _ _ => [dst]
  | authenticate dst _ _ => [dst]
  | sign dst _ _ => [dst]
  | compareEq dst _ _ => [dst]
  | asyncEntry _ _ => []
  | call _ _ _ results => results
  | callLookup dst _ => [dst]

/-- The variables that an instruction reads. -/
def uses : Instr → List Var
  | const _ _ => []
  | globalAddr _ _ => []
  | load _ addr _ => [addr]
  | store value addr _ => [value, addr]
  | loadTake _ addr => [addr]
  | stackAlloc _ _ => []
  | fromNative _ _ srcs => srcs
  | toNative _ _ srcs => srcs
  | heapMetadata _ object => [object]
  | witnessMethod _ table _ => [table]
  | tableMethod _ metadata _ => [metadata]
  | authenticate _ value _ => [value]
  | sign _ value _ => [value]
  | compareEq _ lhs rhs => [lhs, rhs]
  | asyncEntry context _ => [context]
  | call callee _ args _ => callee :: args
  | callLookup _ args => args

/-- Is the instruction a call of a function value? -/
def isCall : Instr → Bool
  | call _ _ _ _ => true
  | _ => false

end Instr

/-- How control leaves a block. -/
inductive Terminator where
  /-- Return native result words. -/
  | ret (values : List Var)
  /-- Leave an asynchronous function; its results are in the caller's frame. -/
  | asyncExit
  /-- Go to the first block if the variable is not zero, else to the second. -/
  | branch (cond : Var) (thenBlock elseBlock : BlockId)
  | jump (target : BlockId)
  | unreachable
  deriving DecidableEq, Repr, Inhabited

namespace Terminator

/-- The variables that a terminator reads. -/
def uses : Terminator → List Var
  | ret values => values
  | branch cond _ _ => [cond]
  | _ => []

/-- The blocks that control can go to. -/
def successors : Terminator → List BlockId
  | branch _ thenBlock elseBlock => [thenBlock, elseBlock]
  | jump target => [target]
  | _ => []

end Terminator

/-- A basic block. -/
structure Block where
  id : BlockId
  body : List Instr
  terminator : Terminator
  deriving DecidableEq, Repr, Inhabited

/-- A native parameter of a function. -/
structure Param where
  var : Var
  kind : Scalar
  deriving DecidableEq, Repr, Inhabited

/-- A generated function; control enters at its first block. -/
structure Function where
  /-- The function's symbol. -/
  name : String
  convention : Convention
  params : List Param
  blocks : List Block
  /-- The kind of every variable, by number. -/
  varKinds : List Scalar
  deriving DecidableEq, Repr, Inhabited

namespace Function

/-- Control enters a function at this block. -/
def entry : BlockId := 0

/-- All instructions, block by block. -/
def instructions (f : Function) : List Instr := f.blocks.flatMap Block.body

/-- The number of calls of function values. -/
def callCount (f : Function) : Nat := (f.instructions.filter Instr.isCall).length

end Function

end Dispatch
