import Dispatch.Module
import Dispatch.Machine.Memory

/-!
# The machine

The machine runs generated code against the tables of a module, laid out in memory.
Every symbol has a region of one word, made the first time its address is asked for;
a function pointer is such an address.  Implementations are native: they see logical
values, and the machine decodes arguments and encodes answers for them.

## Main definitions

* `ArgValue`, `Invocation`, `NativeBody`, `Implementation` — native implementations.
* `Machine`, `World`, `Run` — the state of the machine, with the module it runs.
* `World.addressOf`, `World.symbolAt?` — symbols and addresses.
* `World.instantiate`, `Module.boot` — laying out tables.
-/

namespace Dispatch

/-! ### Native implementations -/

/-- An argument as an implementation sees it. -/
inductive ArgValue where
  /-- The components of a value. -/
  | value (words : List Word)
  /-- The address of a value that is never loaded. -/
  | address (word : Word)
  deriving DecidableEq, Repr, Inhabited

namespace ArgValue

/-- The components, or the address as one word. -/
def words : ArgValue → List Word
  | value words => words
  | address word => [word]

/-- The first component; zero if there is none. -/
def scalar (v : ArgValue) : Word := v.words.headD 0

end ArgValue

/-- What a native implementation is called with. -/
structure Invocation where
  receiver : Word
  args : List ArgValue
  bindings : List Word
  /-- The self metadata and the witness table of a protocol call. -/
  witness : Option (Word × Word)
  deriving DecidableEq, Repr, Inhabited

/-- A native implementation: from the invocation and memory to the components of the
result, or to an error word. -/
abbrev NativeBody := Invocation → Memory → Except Word (List Word)

/-- An implementation that is installed behind a symbol. -/
structure Implementation where
  symbol : String
  /-- The native signature that callers use. -/
  signature : Lowered
  body : NativeBody

/-! ### State -/

/-- The state of the machine. -/
structure Machine where
  memory : Memory := {}
  /-- The address of every symbol that has one. -/
  symbols : Table String Word := {}
  /-- The method as which each implementation is called. -/
  signatures : Table String Method := {}
  /-- The implementations installed so far. -/
  implementations : Table String Implementation := {}
  /-- The metadata of every class. -/
  classes : Table String Word := {}
  /-- The witness table of every type and protocol. -/
  witnessTables : Table (String × String) Word := {}
  /-- How often an asynchronous call suspended its caller. -/
  suspensions : Nat := 0
  /-- The invocations of implementations, in order. -/
  log : List (String × Invocation) := []

/-- A machine and the module that it runs. -/
structure World where
  module : Module
  machine : Machine

/-- A step of running code. -/
abbrev Run := Step World

namespace World

/-- Run a step on memory. -/
def withMemory {α : Type} (step : Step Memory α) : Run α :=
  step.zoom (·.machine.memory) fun memory w => { w with machine := { w.machine with memory } }

/-- Run a step of generation. -/
def withModule {α : Type} (step : Generate α) : Run α :=
  step.zoom World.module fun module w => { w with module }

/-- Ask memory for an answer. -/
def inMemory {α : Type} (question : Memory → Attempt α) : Run α := do
  question (← get).machine.memory

/-- Read a word. -/
def read (address : Word) : Run Word := inMemory fun m => m.read address

/-- Write a word. -/
def write (address value : Word) : Run Unit := withMemory (Memory.write address value)

/-- Stop running code. -/
def fail {α : Type} (cause : MachineError) : Run α := throw (.machine cause)

/-! ### Symbols -/

/-- The address of a symbol. -/
def addressOf (symbol : String) : Run Word := do
  let w ← get
  match w.machine.symbols.get? symbol with
  | some address => return address
  | none =>
    let address ← withMemory (Memory.allocWords 1)
    modify fun w =>
      { w with machine := { w.machine with symbols := w.machine.symbols.insert symbol address } }
    return address

/-- The symbol with exactly this address. -/
def nameAt? (w : World) (address : Word) : Option String :=
  (w.machine.symbols.entries.find? fun e => e.2 == address).map (·.1)

/-- The symbol that a pointer leads to, whatever its tag. -/
def symbolAt? (w : World) (pointer : Word) : Option String := w.nameAt? (Word.strip pointer)

/-! ### Tables -/

/-- The word that the table of a class holds for an entry. -/
def tableWord (e : VTableEntry) : Run Word := do
  let address ← addressOf e.implementation
  let u := (← get).module
  match u.options.signingKey with
  | none => return address
  | some key =>
    let signing ← (u.hierarchy.signing u.pool key e.method).onMachine
    return signing.sign address

/-- Write the entries of a table, the first of which has the index `start`. -/
def writeEntries (base : Word) (start : Nat) : List VTableEntry → Run Unit
  | [] => return ()
  | e :: rest => do
    let word ← tableWord e
    write (← Memory.wordAddress base start) word
    writeEntries base (start + 1) rest

/-- Lay out the metadata of a class whose superclass has its metadata at `parent`. -/
def layOutClass (name : String) (parent : Word) : Run Word := do
  let h := (← get).module.hierarchy
  let table ← (h.vtable name).onMachine
  let base ← withMemory (Memory.allocWords table.words)
  let descriptor ← addressOf (← (h.typeDescriptor name).onMachine)
  write base descriptor
  write (← Memory.wordAddress base 1) parent
  writeEntries base tableHeaderWords table.entries
  let bounds ← addressOf (h.boundsSymbol name)
  write bounds (UInt64.ofNat (table.ownStart * wordBytes))
  modify fun w =>
    { w with machine := { w.machine with classes := w.machine.classes.insert name base } }
  return base

/-- The metadata of a class, laid out on the first request and after that of its
superclasses, in at most the given number of steps up. -/
def instantiateTo : Nat → String → Run Word
  | 0, _ => throw (.trap .endless)
  | steps + 1, name => do
    let w ← get
    match w.machine.classes.get? name with
    | some base => return base
    | none =>
      let decl ← (w.module.hierarchy.classNamed name).onMachine
      -- The metadata of a class names that of its superclass, which comes first.
      let parent ← match decl.superclass with
        | some superclass => instantiateTo steps superclass
        | none => pure 0
      layOutClass name parent

/-- The metadata of a class. -/
def instantiate (name : String) : Run Word := do
  instantiateTo ((← get).module.hierarchy.classes.length + 1) name

/-- Write witnesses, the first of which has the index `start`. -/
def writeWitnesses (base : Word) (start : Nat) : List String → Run Unit
  | [] => return ()
  | witness :: rest => do
    let address ← addressOf witness
    write (← Memory.wordAddress base start) address
    writeWitnesses base (start + 1) rest

/-- Lay out the witness table of a conformance. -/
def layOutConformance (c : Conformance) : Run Unit := do
  let base ← withMemory (Memory.allocWords (witnessHeaderWords + c.witnesses.length))
  let descriptor ← addressOf (c.type ++ ": " ++ c.protocol)
  write base descriptor
  writeWitnesses base witnessHeaderWords c.witnesses
  modify fun w =>
    { w with machine := { w.machine with
        witnessTables := w.machine.witnessTables.insert (c.type, c.protocol) base } }

/-- Lay out the tables of all classes, then those of all conformances. -/
def layOut : Run Unit := do
  let h := (← get).module.hierarchy
  h.classes.forM fun c => do let _ ← instantiate c.name
  h.conformances.forM layOutConformance

/-- Make an object of a class. -/
def newObject (className : String) : Run Word := do
  let metadata ← instantiate className
  let object ← withMemory (Memory.allocWords 2)
  write object metadata
  return object

/-! ### Implementations -/

/-- How the table entries of a method are signed, if they are. -/
def methodSigning (w : World) (m : Method) : Attempt (Option Signing) :=
  w.module.options.signingKey.mapM fun key =>
    (w.module.hierarchy.signing w.module.pool key m).onMachine

/-- Install a native implementation behind a symbol, which has to be that of a class
method or a witness. -/
def implement (symbol : String) (body : NativeBody) : Run Unit := do
  let w ← get
  match w.machine.signatures.get? symbol with
  | none => fail (.unknownCallee symbol)
  | some m =>
    let signature ← (w.module.layout.lower w.module.pool m).onMachine
    let _ ← addressOf symbol
    modify fun w =>
      { w with machine := { w.machine with
          implementations := w.machine.implementations.insert symbol
            { symbol, signature, body } } }

end World

/-- A one-line summary of a machine's state. -/
def Machine.text (m : Machine) : String :=
  "Machine \x7b symbols: " ++ toString m.symbols.size
    ++ ", implementations: " ++ toString m.implementations.size
    ++ ", classes: " ++ toString m.classes.size
    ++ ", suspensions: " ++ toString m.suspensions ++ ", .. \x7d"

/-- A new machine, with the tables of a module laid out in its memory. -/
def Module.boot (u : Module) : Attempt Machine := do
  let implementations ← u.hierarchy.implementations.onMachine
  let signatures := implementations.foldl (fun t (symbol, m) => t.insert symbol m) {}
  match World.layOut { module := u, machine := { signatures } } with
  | .ok _ w => return w.machine
  | .error fault _ => .error fault

end Dispatch
