/-!
# Calling conventions

How a function receives its arguments and hands back control.  There are no
asynchronous coroutines, so the two conventions that are not ordinary exclude
each other.
-/

namespace Dispatch

/-- A calling convention. -/
inductive Convention where
  /-- Arguments in registers, results returned directly. -/
  | ordinary
  /-- Arguments and results live in a context frame that the caller allocates. -/
  | async
  /-- A coroutine that yields once: a resume buffer comes first among the
  arguments and a continuation first among the results. -/
  | yieldOnce
  deriving DecidableEq, Repr, Inhabited

namespace Convention

/-- Does the convention pass everything through a context frame? -/
def isAsync : Convention → Bool
  | async => true
  | _ => false

/-- Does the convention take a resume buffer? -/
def isCoroutine : Convention → Bool
  | yieldOnce => true
  | _ => false

/-- The word for the convention in the text form of code. -/
def text : Convention → String
  | ordinary => "ordinary"
  | async => "async"
  | yieldOnce => "yield_once"

/-- Every convention. -/
def all : List Convention := [ordinary, async, yieldOnce]

/-- The convention with a name. -/
def ofText? (s : String) : Option Convention := all.find? fun c => c.text == s

@[simp]
theorem ofText?_text (c : Convention) : ofText? c.text = some c := by cases c <;> rfl

/-- The word for the convention in a report of an internal error. -/
def title : Convention → String
  | ordinary => "Ordinary"
  | async => "Asynchronous"
  | yieldOnce => "YieldingCoroutine"

end Convention

end Dispatch
