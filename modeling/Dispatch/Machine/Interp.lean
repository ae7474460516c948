import Dispatch.Machine.Native

/-!
# Running code

Functions run on a file of registers, one for each variable.  A call goes to the
native implementation behind the callee's symbol if there is one, and else to the
generated function with that symbol.

Generated code does not loop, so a function runs each of its blocks at most once.
Calls nest as deep as functions forward to functions; `maxCallDepth` bounds that.

## Main definitions

* `Registers` — the values of variables.
* `World.tableSlot`, `World.lookupClassMethod` — table walks at run time.
* `World.step`, `World.runBlocks`, `World.run` — instructions, blocks, functions.
* `World.call` — call a function pointer.
-/

namespace Dispatch

/-- The values of the variables of a running function. -/
structure Registers where
  value : Var → Word

namespace Registers

/-- All variables are zero. -/
def zero : Registers := ⟨fun _ => 0⟩

/-- Set a variable. -/
def set (r : Registers) (v : Var) (word : Word) : Registers :=
  ⟨fun v' => if v' = v then word else r.value v'⟩

@[simp]
theorem value_set (r : Registers) (v v' : Var) (word : Word) :
    (r.set v word).value v' = if v' = v then word else r.value v' := rfl

/-- The values of several variables. -/
def all (r : Registers) (vs : List Var) : List Word := vs.map r.value

/-- Set several variables, one after the other. -/
def setEach (r : Registers) : List (Var × Word) → Registers
  | [] => r
  | (v, word) :: rest => (r.set v word).setEach rest

/-- Set several variables to as many words; `what` names the words if the counts
differ. -/
def setAll (r : Registers) (vs : List Var) (words : List Word) (what : String) :
    Attempt Registers :=
  if vs.length = words.length then .ok (r.setEach (vs.zip words))
  else .error (.machine (.arity what vs.length words.length))

end Registers

/-- How deep calls may nest. -/
def maxCallDepth : Nat := 4096

/-- How many superclasses a look-up walks up at most. -/
def maxAncestry : Nat := 64

namespace World

/-! ### Table walks -/

/-- The address of a table entry in the metadata of a class. -/
def tableSlot (metadata : Word) : Slot → Run Word
  | .fixed word => addWord metadata (UInt64.ofNat (word * wordBytes))
  | .resilient bounds index => do
    let bounds ← addressOf bounds
    let start ← read bounds
    -- Bounds that nobody has filled in are zero.
    if start.toNat < tableHeaderWords * wordBytes then fail (.unmapped bounds)
    else
      let own ← addWord metadata start
      addWord own (UInt64.ofNat (index * wordBytes))

/-- Does the class with this metadata, or one of its superclasses, have the given
type descriptor?  The walk takes at most the given number of steps. -/
def descendsTo (m : Memory) (descriptor : Word) : Nat → Word → Attempt Bool
  | 0, metadata => .error (.machine (.unmapped metadata))
  | steps + 1, metadata =>
    if metadata = 0 then return false
    else do
      if (← m.read metadata) = descriptor then return true
      else
        let parent ← m.read (← addWord metadata (UInt64.ofNat wordBytes))
        descendsTo m descriptor steps parent

/-- Does the class with this metadata descend from the class with this type
descriptor? -/
def descendsFrom (m : Memory) (metadata descriptor : Word) : Attempt Bool :=
  descendsTo m descriptor maxAncestry metadata

/-- The entry that the table in `metadata` holds for the method with a descriptor,
exactly as stored.  The class has to descend from the one with the given type
descriptor. -/
def lookupClassMethod (metadata descriptor typeDescriptor : Word) : Run Word := do
  let w ← get
  match (w.nameAt? descriptor).bind w.module.globals.get? with
  | some (.methodDescriptor m) =>
    if ← inMemory fun memory => descendsFrom memory metadata typeDescriptor then
      let slot ← (w.module.hierarchy.slot m).onMachine
      read (← tableSlot metadata slot)
    else fail (.badDescriptor descriptor)
  | _ => fail (.badDescriptor descriptor)

/-! ### Instructions -/

/-- A function that calls a function pointer. -/
abbrev Caller := Word → List Word → Run (List Word)

/-- Run an instruction; `call` is used for calls. -/
def step (call : Caller) (r : Registers) : Instr → Run Registers
  | .const dst value => return r.set dst value
  | .globalAddr dst symbol => do return r.set dst (← addressOf symbol)
  | .load dst addr offset => do
    return r.set dst (← read (← addWord (r.value addr) (UInt64.ofNat offset)))
  | .store value addr offset => do
    write (← addWord (r.value addr) (UInt64.ofNat offset)) (r.value value)
    return r
  | .loadTake dsts addr => do
    let words ← withMemory (Memory.takeWords (r.value addr) dsts.length)
    r.setAll dsts words "load_take"
  | .stackAlloc dst bytes => do return r.set dst (← withMemory (Memory.alloc bytes))
  | .fromNative type dsts srcs => do
    let u := (← get).module
    let schema ← (u.layout.schema u.pool type).onMachine
    r.setAll dsts (← schema.decode (r.all srcs) 0) "map_from_native"
  | .toNative type dsts srcs => do
    let u := (← get).module
    let schema ← (u.layout.schema u.pool type).onMachine
    r.setAll dsts (← schema.encode (r.all srcs)) "map_to_native"
  | .heapMetadata dst object => do return r.set dst (← read (r.value object))
  | .witnessMethod dst table index => do
    let address ← addWord (r.value table) (UInt64.ofNat (index * wordBytes))
    return r.set dst (← read address)
  | .tableMethod dst metadata slot => do
    return r.set dst (← read (← tableSlot (r.value metadata) slot))
  | .authenticate dst value signing => do
    return r.set dst (← signing.check (r.value value))
  | .sign dst value signing => return r.set dst (signing.sign (r.value value))
  | .compareEq dst lhs rhs =>
    return r.set dst (if r.value lhs = r.value rhs then 1 else 0)
  | .asyncEntry context bytes => do
    checkFrame (r.value context) bytes
    return r
  | .call callee convention args results => do
    -- An asynchronous call suspends its caller, also when the call fails.
    if convention.isAsync then
      modify fun w =>
        { w with machine := { w.machine with suspensions := w.machine.suspensions + 1 } }
    let words ← call (r.value callee) (r.all args)
    r.setAll results words "call results"
  | .callLookup dst args => do
    match r.all args with
    | [metadata, descriptor, typeDescriptor] =>
      return r.set dst (← lookupClassMethod metadata descriptor typeDescriptor)
    | words => fail (.arity lookupRoutine 3 words.length)

/-- Run instructions one after the other. -/
def steps (call : Caller) (r : Registers) : List Instr → Run Registers
  | [] => return r
  | i :: rest => do
    let r ← step call r i
    steps call r rest

/-! ### Functions -/

/-- Run a function from a block on, through at most the given number of blocks. -/
def runBlocks (call : Caller) (f : Function) : Nat → BlockId → Registers → Run (List Word)
  | 0, _, _ => throw (.trap .endless)
  | count + 1, id, r => do
    match f.blocks[id]? with
    | none => fail (.unreachable f.name)
    | some block =>
      let r ← steps call r block.body
      match block.terminator with
      | .ret values => return r.all values
      | .asyncExit => return []
      | .branch cond thenBlock elseBlock =>
        runBlocks call f count (if r.value cond ≠ 0 then thenBlock else elseBlock) r
      | .jump target => runBlocks call f count target r
      | .unreachable => fail (.unreachable f.name)

/-- Run a function on native arguments; the answer is its native results. -/
def run (call : Caller) (f : Function) (args : List Word) : Run (List Word) := do
  let r ← Registers.zero.setAll (f.params.map Param.var) args f.name
  runBlocks call f f.blocks.length Function.entry r

/-- Call a function pointer, nesting calls at most the given number deep. -/
def callTo : Nat → Caller
  | 0, _, _ => throw (.trap .endless)
  | depth + 1, callee, args => do
    if Word.isSigned callee then fail (.authFailure callee 0)
    else
      let w ← get
      match w.nameAt? callee with
      | none => fail (.unknownCallee (hex callee.toNat))
      | some name =>
        -- A native implementation wins over a generated function.
        match w.machine.implementations.get? name with
        | some i => invokeNative i args
        | none =>
          match w.module.function? name with
          | some f => run (callTo depth) f args
          | none => fail (.unknownCallee name)

/-- Call a function pointer. -/
def call : Caller := callTo maxCallDepth

end World

end Dispatch
