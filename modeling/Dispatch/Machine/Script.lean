import Dispatch.Machine.World

/-!
# Scripted implementations

Native implementations that can be written down as data: enough to see every
argument, to answer with a result or an error, and to read memory.

## Main definitions

* `Script` — an implementation as data, `Script.run` — the implementation.
-/

namespace Dispatch

/-- A native implementation as data. -/
inductive Script where
  /-- Answer with fixed words. -/
  | const (words : List Word)
  /-- Raise an error. -/
  | raise (error : Word)
  /-- Answer with the words of an argument. -/
  | arg (index : Nat)
  /-- Answer with the words of an argument, the last first. -/
  | reverse (index : Nat)
  /-- Answer with the sum of all words of all arguments. -/
  | sum
  /-- Answer with all words of all arguments. -/
  | concat
  /-- Answer with everything that the invocation holds. -/
  | everything
  /-- Answer with the receiver. -/
  | receiver
  /-- Answer with words of memory, from the address that an argument starts with. -/
  | copy (index count : Nat)
  /-- Raise an error if an argument starts with zero, and else do something. -/
  | unlessZero (index : Nat) (error : Word) (andThen : Script)
  deriving DecidableEq, Repr, Inhabited

namespace Invocation

/-- The words of an argument; none if there is no such argument. -/
def argWords (i : Invocation) (index : Nat) : List Word :=
  ((i.args[index]?).map ArgValue.words).getD []

/-- All words of all arguments. -/
def allWords (i : Invocation) : List Word := i.args.flatMap ArgValue.words

/-- Everything that the invocation holds. -/
def everything (i : Invocation) : List Word :=
  i.receiver :: i.allWords ++ i.bindings
    ++ i.witness.toList.flatMap fun (metadata, table) => [metadata, table]

end Invocation

namespace Script

/-- The error of a script that reads memory it cannot read. -/
def readError : Word := 0xbad

/-- The implementation. -/
def run : Script → NativeBody
  | const words, _, _ => .ok words
  | raise error, _, _ => .error error
  | arg index, i, _ => .ok (i.argWords index)
  | reverse index, i, _ => .ok (i.argWords index).reverse
  | sum, i, _ => .ok [i.allWords.foldl (· + ·) 0]
  | concat, i, _ => .ok i.allWords
  | everything, i, _ => .ok i.everything
  | receiver, i, _ => .ok [i.receiver]
  | copy index count, i, m =>
    match m.readWords ((i.argWords index).headD 0) count with
    | .ok words => .ok words
    | .error _ => .error readError
  | unlessZero index error andThen, i, m =>
    if (i.argWords index).headD 0 = 0 then .error error else andThen.run i m

end Script

end Dispatch
