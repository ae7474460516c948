import Dispatch.Code.Basic

/-!
# Explosions

An explosion is a run of variables that are being used up: values are claimed from
the front, and trailing parameters are taken off the back.  Running past either end
is a broken condition.  What was claimed is remembered, so two explosions are equal
only if they also got to the same point in the same way.

## Main definitions

* `Explosion` — what was claimed and what is left.
* `Explosion.claimNext`, `Explosion.claim`, `Explosion.claimEach`,
  `Explosion.claimAll` — from the front.
* `Explosion.takeLast` — from the back.
* `Explosion.transfer` — from one explosion to another.
-/

namespace Dispatch

/-- A run of variables that are being used up. -/
structure Explosion where
  /-- The variables claimed so far, in order. -/
  claimed : List Var := []
  /-- The variables that are left. -/
  pending : List Var := []
  deriving DecidableEq, Repr, Inhabited

namespace Explosion

/-- An explosion of which nothing is claimed. -/
def ofList (values : List Var) : Explosion := ⟨[], values⟩

/-- Add a variable at the end. -/
def add (e : Explosion) (value : Var) : Explosion := { e with pending := e.pending ++ [value] }

/-- Add variables at the end. -/
def addAll (e : Explosion) (values : List Var) : Explosion :=
  { e with pending := e.pending ++ values }

/-- The number of variables that are left. -/
def size (e : Explosion) : Nat := e.pending.length

/-- Claim the next variable. -/
def claimNext (e : Explosion) : Attempt (Var × Explosion) :=
  match e.pending with
  | [] => Attempt.trap .claimPastEnd
  | value :: rest => .ok (value, ⟨e.claimed ++ [value], rest⟩)

/-- Claim the next `count` variables. -/
def claim (e : Explosion) (count : Nat) : Attempt (List Var × Explosion) :=
  if count ≤ e.size then
    let values := e.pending.take count
    .ok (values, ⟨e.claimed ++ values, e.pending.drop count⟩)
  else Attempt.trap (.claimTooMany count e.size)

/-- Claim runs of the given lengths, one after the other. -/
def claimEach (e : Explosion) : List Nat → Attempt (List (List Var) × Explosion)
  | [] => return ([], e)
  | count :: rest => do
    let (first, e) ← e.claim count
    let (others, e) ← e.claimEach rest
    return (first :: others, e)

/-- Claim everything that is left. -/
def claimAll (e : Explosion) : List Var × Explosion := (e.pending, ⟨e.claimed ++ e.pending, []⟩)

/-- Take the last variable that is left. -/
def takeLast (e : Explosion) : Attempt (Var × Explosion) :=
  match e.pending.getLast? with
  | none => Attempt.trap .takeFromEmpty
  | some value => .ok (value, { e with pending := e.pending.dropLast })

/-- Claim the next `count` variables for another explosion. -/
def transfer (e other : Explosion) (count : Nat) : Attempt (Explosion × Explosion) := do
  let (values, rest) ← e.claim count
  return (rest, other.addAll values)

end Explosion

end Dispatch
