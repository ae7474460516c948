import Dispatch.Code.Basic

/-!
# The text form of code

```text
fn f ordinary (%0: ptr, %1: ptr) {
bb0:
  %2 = load [%0 + 8]
  (%3) = call ordinary %2(%0, %1)
  return %3
}
```

## Main definitions

* `Instr.text`, `Terminator.text`, `Function.text` — the text of each part of a
  function, and of the whole.
-/

namespace Dispatch

/-- A variable, as text. -/
def Var.text (v : Var) : String := "%" ++ toString v

/-- Variables separated by commas. -/
def Var.listText (vs : List Var) : String := ", ".intercalate (vs.map Var.text)

/-- A block's label. -/
def BlockId.text (b : BlockId) : String := "bb" ++ toString b

/-- A slot, as the index between brackets. -/
def Slot.text : Slot → String
  | fixed word => toString word
  | resilient bounds index => "@" ++ bounds ++ " + " ++ toString index

/-- A key and a discriminator. -/
def Signing.text (s : Signing) : String := s.key.text ++ " " ++ hex4 s.discriminator.toNat

/-- An instruction. -/
def Instr.text : Instr → String
  | const dst value => dst.text ++ " = const " ++ hex value.toNat
  | globalAddr dst symbol => dst.text ++ " = global @" ++ symbol
  | load dst addr offset =>
    dst.text ++ " = load [" ++ addr.text ++ " + " ++ toString offset ++ "]"
  | store value addr offset =>
    "store " ++ value.text ++ " -> [" ++ addr.text ++ " + " ++ toString offset ++ "]"
  | loadTake dsts addr =>
    "(" ++ Var.listText dsts ++ ") = load_take [" ++ addr.text ++ "]"
  | stackAlloc dst bytes => dst.text ++ " = alloca " ++ toString bytes
  | fromNative type dsts srcs =>
    "(" ++ Var.listText dsts ++ ") = from_native t" ++ toString type ++ " ("
      ++ Var.listText srcs ++ ")"
  | toNative type dsts srcs =>
    "(" ++ Var.listText dsts ++ ") = to_native t" ++ toString type ++ " ("
      ++ Var.listText srcs ++ ")"
  | heapMetadata dst object => dst.text ++ " = heap_metadata " ++ object.text
  | witnessMethod dst table index =>
    dst.text ++ " = witness_method " ++ table.text ++ "[" ++ toString index ++ "]"
  | tableMethod dst metadata slot =>
    dst.text ++ " = vtable_method " ++ metadata.text ++ "[" ++ slot.text ++ "]"
  | authenticate dst value signing =>
    dst.text ++ " = auth " ++ value.text ++ " " ++ signing.text
  | sign dst value signing => dst.text ++ " = sign " ++ value.text ++ " " ++ signing.text
  | compareEq dst lhs rhs => dst.text ++ " = eq " ++ lhs.text ++ ", " ++ rhs.text
  | asyncEntry context bytes => "async_entry " ++ context.text ++ " size " ++ toString bytes
  | call callee convention args results =>
    "(" ++ Var.listText results ++ ") = call " ++ convention.text ++ " " ++ callee.text
      ++ "(" ++ Var.listText args ++ ")"
  | callLookup dst args =>
    dst.text ++ " = call_runtime " ++ lookupRoutine ++ "(" ++ Var.listText args ++ ")"

/-- A terminator. -/
def Terminator.text : Terminator → String
  | ret [] => "return"
  | ret values => "return " ++ Var.listText values
  | asyncExit => "async_exit"
  | branch cond thenBlock elseBlock =>
    "br " ++ cond.text ++ ", " ++ thenBlock.text ++ ", " ++ elseBlock.text
  | jump target => "jump " ++ target.text
  | unreachable => "unreachable"

/-- A block: its label, its instructions and its terminator, a line each. -/
def Block.text (b : Block) : String :=
  b.id.text ++ ":\n" ++ String.join (b.body.map fun i => "  " ++ i.text ++ "\n")
    ++ "  " ++ b.terminator.text ++ "\n"

/-- A parameter with its kind. -/
def Param.text (p : Param) : String := p.var.text ++ ": " ++ p.kind.text

/-- A function. -/
def Function.text (f : Function) : String :=
  "fn " ++ f.name ++ " " ++ f.convention.text ++ " ("
    ++ ", ".intercalate (f.params.map Param.text) ++ ") \x7b\n"
    ++ String.join (f.blocks.map Block.text) ++ "\x7d"

end Dispatch
