import Dispatch.Types.Pool

/-!
# Generic signatures and substitution

A generic method is passed one metadata word for each of its parameters and one
witness table for each of its requirements: its *bindings*.  A substitution gives a
replacement for each generic parameter; applying it interns the tuples it builds.

## Main definitions

* `Generics`, `Generics.bindingCount` — a generic signature and its binding words.
* `Subst`, `Subst.apply`, `Subst.forwarding` — replacements, their application, and
  the one that maps every parameter to itself.
-/

namespace Dispatch

/-- The generic parameters and conformance requirements of a method. -/
structure Generics where
  params : Nat := 0
  requirements : Nat := 0
  deriving DecidableEq, Repr, Inhabited

namespace Generics

/-- Has the signature neither parameters nor requirements? -/
def isEmpty (g : Generics) : Bool := g.params == 0 && g.requirements == 0

/-- The number of binding words passed after the parameters. -/
def bindingCount (g : Generics) : Attempt Nat := addSize g.params g.requirements

end Generics

/-- The replacement of each generic parameter, by index. -/
structure Subst where
  replacements : List TypeId := []
  deriving DecidableEq, Repr, Inhabited

namespace Subst

/-- Does the substitution replace nothing? -/
def isEmpty (s : Subst) : Bool := s.replacements.isEmpty

/-- The substitution that maps each of `count` parameters to itself. -/
def forwarding (count : Nat) : Step Pool Subst := do
  let replacements ← (List.range count).mapM fun index => Pool.intern (.generic index)
  return ⟨replacements⟩

/-- Apply the substitution to a type, down to the given depth.  Elements are
replaced from left to right, and the new tuple is interned after them.  An element
that comes later may be a tuple that was interned for an earlier one. -/
def applyTo (s : Subst) : Nat → TypeId → Step Pool TypeId
  | 0, _ => throw (.trap .endless)
  | depth + 1, id => do
    match ← (← get).shape id with
    | .generic index =>
      match s.replacements[index]? with
      | some replacement => return replacement
      | none => throw (.trap (.noReplacement index s.replacements.length))
    | .tuple elements =>
      let replaced ← elements.mapM (s.applyTo depth)
      Pool.intern (.tuple replaced)
    | _ => return id

/-- Apply the substitution to a type.  The types on the way down are those of the
pool and those that the walk adds, and ids are sizes, so there are never more of
them than that. -/
def apply (s : Subst) (id : TypeId) : Step Pool TypeId := do
  s.applyTo ((← get).maxDepth + Size.limit) id

end Subst

end Dispatch
