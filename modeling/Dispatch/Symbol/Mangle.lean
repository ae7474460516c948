import Dispatch.Method
import Dispatch.Symbol.Escape

/-!
# Symbols of methods and classes

Clients link against symbols instead of table offsets, so a symbol depends only on
what it names:

```text
_relay_<module>$<owner>[$<selector>$<signature>]$<entity>[$Tu]
```

The signature is three letters for the owner's kind, the method's kind and its
convention, then the parameter types, `_`, the result type, `t` and the error type
of a method that throws, and `g`, `r` with the two counts of a generic method.

## Main definitions

* `Entity`, `Entity.code` — what a symbol names.
* `Ty.code` — the letters of a type.
* `Method.thunkSymbol`, `Method.descriptorSymbol`, `Method.implementationSymbol` —
  the symbols of a method.
* `classSymbol`, `asyncPointerSymbol` — the other symbols.
-/

namespace Dispatch

/-- What a symbol names. -/
inductive Entity where
  | dispatchThunk
  | methodDescriptor
  | lookupFunction
  | typeDescriptor
  | tableBounds
  deriving DecidableEq, Repr, Inhabited

namespace Entity

/-- The two letters at the end of a symbol. -/
def code : Entity → List Char
  | dispatchThunk => ['T', 'j']
  | methodDescriptor => ['T', 'q']
  | lookupFunction => ['M', 'u']
  | typeDescriptor => ['M', 'n']
  | tableBounds => ['M', 'o']

end Entity

namespace Symbol

/-- How every symbol begins. -/
def mark : List Char := ['_', 'r', 'e', 'l', 'a', 'y', '_']

/-- Separates the parts of a symbol. -/
def separator : Char := '$'

/-- The letters after a function's symbol that name its async function pointer. -/
def asyncPointerCode : List Char := ['T', 'u']

/-- The decimal digits of a number. -/
def decimal (n : Nat) : List Char := Nat.toDigits 10 n

/-- A named type: a letter, the length of the escaped name, and that name. -/
def nominal (letter : Char) (name : String) : List Char :=
  let escaped := escape name
  letter :: (decimal escaped.length ++ escaped)

/-- The letter of a scalar. -/
def scalarLetter : Scalar → Char
  | .i8 => 'b'
  | .i16 => 'h'
  | .i32 => 'i'
  | .i64 => 'l'
  | .f32 => 'f'
  | .f64 => 'd'
  | .ptr => 'p'

/-- The symbol made of these parts. -/
def ofParts (parts : List (List Char)) : String :=
  String.ofList (mark ++ List.intercalate [separator] parts)

end Symbol

open Dispatch.Symbol

namespace Ty

mutual

/-- The letters of a type. -/
def code : Ty → List Char
  | .unit => ['v']
  | .scalar kind => [scalarLetter kind]
  | .tuple elements => 'T' :: (codes elements ++ ['E'])
  | .object className => nominal 'C' className
  | .metatype className => nominal 'M' className
  | .protocolSelf protocol => nominal 'P' protocol
  | .generic index => 'G' :: (decimal index ++ ['_'])

/-- The letters of several types, one type after the other. -/
def codes : List Ty → List Char
  | [] => []
  | t :: rest => t.code ++ codes rest

end

end Ty

namespace Generics

/-- The letters of a generic signature; none if it is empty. -/
def code (g : Generics) : List Char :=
  if g.isEmpty then []
  else 'g' :: (decimal g.params ++ 'r' :: decimal g.requirements)

end Generics

namespace Method

/-- The letter for the kind of owner. -/
def ownerLetter (m : Method) : Char :=
  match m.owner with
  | .ofClass _ => 'c'
  | .ofProtocol _ => 'p'

/-- The letter for what the method is called on. -/
def kindLetter (m : Method) : Char :=
  match m.kind with
  | .onInstance => 'i'
  | .onClass => 's'

/-- The letter for the method's convention. -/
def conventionLetter (m : Method) : Char :=
  match m.convention with
  | .ordinary => 'o'
  | .async => 'a'
  | .yieldOnce => 'y'

/-- The letters of an error type; none if the method does not throw. -/
def errorCode : Option Ty → List Char
  | none => []
  | some type => 't' :: type.code

/-- The signature part of a method's symbols. -/
def signatureCode (p : Pool) (m : Method) : Attempt (List Char) := do
  let params ← m.signature.params.mapM p.tree
  let result ← p.tree m.signature.result
  let error ← m.signature.error.mapM p.tree
  return [m.ownerLetter, m.kindLetter, m.conventionLetter] ++ Ty.codes params
    ++ '_' :: result.code ++ errorCode error ++ m.signature.generics.code

/-- The symbol of something that belongs to a method. -/
def entitySymbol (p : Pool) (m : Method) (entity : Entity) : Attempt String := do
  let signature ← m.signatureCode p
  return Symbol.ofParts
    [escape m.module, escape m.owner.name, escape m.selector, signature, entity.code]

/-- The symbol of a method's dispatch thunk. -/
def thunkSymbol (p : Pool) (m : Method) : Attempt String := m.entitySymbol p .dispatchThunk

/-- The symbol of a method's descriptor. -/
def descriptorSymbol (p : Pool) (m : Method) : Attempt String :=
  m.entitySymbol p .methodDescriptor

/-- The symbol of the implementation of a method that `implementor` provides: a
class, or the conforming type of a witness. -/
def implementationSymbol (p : Pool) (m : Method) (implementor : String) : Attempt String := do
  let signature ← m.signatureCode p
  return Symbol.ofParts [escape m.module, escape implementor, escape m.selector, signature]

end Method

/-- The symbol of something that belongs to a class. -/
def classSymbol (module className : String) (entity : Entity) : String :=
  Symbol.ofParts [escape module, escape className, entity.code]

/-- The symbol of the async function pointer of a function. -/
def asyncPointerSymbol (function : String) : String :=
  function ++ String.ofList (separator :: asyncPointerCode)

end Dispatch
