import Dispatch.Code.Basic

/-!
# Building functions

A builder is positioned at a block; instructions go to the end of that block until
it is terminated.  An operation first makes the variables it defines and then adds
its instruction, so when the block is already terminated the operation fails and
the variables stay without a definition.

Blocks and variables are numbered by natural numbers here, so a builder never runs out of
them.  In 32 bits the variable after the last one would be refused.

## Main definitions

* `Builder`, `Build` — a function under construction, and steps on it.
* `Builder.fresh`, `Builder.param`, `Builder.newBlock`, `Builder.position`,
  `Builder.emit`, `Builder.terminate` — the steps everything else is made of.
* `Builder.finish` — the function.
-/

namespace Dispatch

/-- A block under construction. -/
structure Draft where
  /-- The number that the block was given when it was added. -/
  id : BlockId
  body : List Instr := []
  terminator : Option Terminator := none
  deriving DecidableEq, Repr, Inhabited

/-- A finished block; a block that was never terminated cannot be left. -/
def Draft.finish (d : Draft) : Block := ⟨d.id, d.body, d.terminator.getD .unreachable⟩

/-- A function under construction. -/
structure Builder where
  name : String
  convention : Convention
  params : List Param := []
  /-- The blocks, in the order in which they were added. -/
  drafts : List Draft := [{ id := 0 }]
  /-- The block that instructions go to. -/
  current : BlockId := 0
  /-- The kinds of the variables made so far. -/
  varKinds : List Scalar := []
  deriving DecidableEq, Repr, Inhabited

/-- A step of building a function. -/
abbrev Build := Step Builder

namespace Builder

/-! ### Blocks and variables -/

/-- A builder with an empty entry block. -/
def new (name : String) (convention : Convention) : Builder := { name, convention }

/-- The block under construction at the current position. -/
def draft (b : Builder) : Draft := (b.drafts[b.current]?).getD { id := b.current }

/-- Has the current block a terminator? -/
def isTerminated (b : Builder) : Bool := b.draft.terminator.isSome

/-- Add an empty block at the end. -/
def newBlock : Build BlockId := modifyGet fun b =>
  (b.drafts.length, { b with drafts := b.drafts ++ [{ id := b.drafts.length }] })

/-- Go to a block. -/
def position (block : BlockId) : Build Unit := do
  let b ← get
  if block < b.drafts.length then set { b with current := block }
  else throw (.trap (.blockRange block b.drafts.length))

/-- A new variable. -/
def fresh (kind : Scalar) : Build Var := modifyGet fun b =>
  (b.varKinds.length, { b with varKinds := b.varKinds ++ [kind] })

/-- New variables, one of each kind. -/
def freshAll (kinds : List Scalar) : Build (List Var) := kinds.mapM fresh

/-- A new native parameter. -/
def param (kind : Scalar) : Build Var := do
  let var ← fresh kind
  modify fun b => { b with params := b.params ++ [⟨var, kind⟩] }
  return var

/-- Change the current block. -/
def modifyDraft (f : Draft → Draft) (b : Builder) : Builder :=
  { b with drafts := b.drafts.modify b.current f }

/-- Add an instruction to the current block. -/
def emit (instr : Instr) : Build Unit := do
  let b ← get
  if b.isTerminated then throw (.trap (.emitAfterTerminator b.current))
  else set (b.modifyDraft fun d => { d with body := d.body ++ [instr] })

/-- Terminate the current block. -/
def terminate (terminator : Terminator) : Build Unit := do
  let b ← get
  if b.isTerminated then throw (.trap (.secondTerminator b.current))
  else set (b.modifyDraft fun d => { d with terminator := some terminator })

/-- Add an instruction that defines one variable. -/
def define (kind : Scalar) (instr : Var → Instr) : Build Var := do
  let dst ← fresh kind
  emit (instr dst)
  return dst

/-- Add an instruction that defines several variables. -/
def defineAll (kinds : List Scalar) (instr : List Var → Instr) : Build (List Var) := do
  let dsts ← freshAll kinds
  emit (instr dsts)
  return dsts

/-! ### Instructions -/

/-- A constant. -/
def const (kind : Scalar) (value : Word) : Build Var := define kind (.const · value)

/-- The address of a symbol. -/
def globalAddr (symbol : String) : Build Var := define .ptr (.globalAddr · symbol)

/-- Load a word. -/
def load (kind : Scalar) (addr : Var) (offset : Nat) : Build Var :=
  define kind (.load · addr offset)

/-- Store a word. -/
def store (value addr : Var) (offset : Nat) : Build Unit := emit (.store value addr offset)

/-- Move consecutive words out of memory. -/
def loadTake (kinds : List Scalar) (addr : Var) : Build (List Var) :=
  defineAll kinds (.loadTake · addr)

/-- Fresh memory. -/
def stackAlloc (bytes : Nat) : Build Var := define .ptr (.stackAlloc · bytes)

/-- The components of a value, from its native words. -/
def fromNative (type : TypeId) (kinds : List Scalar) (srcs : List Var) : Build (List Var) :=
  defineAll kinds (.fromNative type · srcs)

/-- The native words of a value, from its components. -/
def toNative (type : TypeId) (kinds : List Scalar) (srcs : List Var) : Build (List Var) :=
  defineAll kinds (.toNative type · srcs)

/-- The metadata of an object's class. -/
def heapMetadata (object : Var) : Build Var := define .ptr (.heapMetadata · object)

/-- An entry of a witness table. -/
def witnessMethod (table : Var) (index : Nat) : Build Var :=
  define .ptr (.witnessMethod · table index)

/-- An entry of a class table. -/
def tableMethod (metadata : Var) (slot : Slot) : Build Var :=
  define .ptr (.tableMethod · metadata slot)

/-- Check a signed pointer. -/
def authenticate (value : Var) (signing : Signing) : Build Var :=
  define .ptr (.authenticate · value signing)

/-- Sign a pointer. -/
def sign (value : Var) (signing : Signing) : Build Var := define .ptr (.sign · value signing)

/-- Compare two words. -/
def compareEq (lhs rhs : Var) : Build Var := define .i8 (.compareEq · lhs rhs)

/-- Attach a context frame. -/
def asyncEntry (context : Var) (bytes : Nat) : Build Unit := emit (.asyncEntry context bytes)

/-- Call a function value. -/
def call (callee : Var) (convention : Convention) (args : List Var) (kinds : List Scalar) :
    Build (List Var) :=
  defineAll kinds (.call callee convention args ·)

/-- Call the look-up routine, which takes three arguments. -/
def callLookup (args : List Var) : Build Var := do
  if args.length = 3 then define .ptr (.callLookup · args)
  else throw (.trap (.runtimeArity args.length))

/-! ### The finished function -/

/-- The finished function. -/
def finish (b : Builder) : Function where
  name := b.name
  convention := b.convention
  params := b.params
  blocks := b.drafts.map Draft.finish
  varKinds := b.varKinds

end Builder

end Dispatch
