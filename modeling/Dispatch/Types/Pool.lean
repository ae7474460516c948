import Dispatch.Fault
import Dispatch.Table
import Dispatch.Types.Scalar

/-!
# Types and the pool that holds them

Types are the handful of shapes that matter for passing arguments.  A `Pool` keeps
each shape once and hands out its position as the type's id, so equal ids are equal
types.  A table leads back from shapes to ids, and a pool cannot be built unless the
table agrees with the positions.  A `Shape` refers to the elements of a tuple by id; a
`Ty` is a type written out in full.

Ids are natural numbers here, so a pool never runs out of them.  In 32 bits the id after
the last one would be refused.

An id that the pool never gave out is not a type.  It may still stand inside a
tuple, and only a walk that reaches it fails.  Ids from elsewhere can even make a
tuple contain itself.  So a walk goes from left to right, looks no further than it
has to, and is bounded by the depth that a type of the pool can have.

## Main definitions

* `Shape`, `Pool`, `Pool.intern`, `Pool.shape` — hash-consed types.
* `Ty`, `Pool.tree` — types written out in full.
* `Pool.isAddressOnly`, `Pool.components`, `Pool.maxGeneric` — the three walks.
-/

namespace Dispatch

/-! ### Shapes and the pool -/

/-- One level of a type; elements of a tuple are named by id. -/
inductive Shape where
  | unit
  | scalar (kind : Scalar)
  /-- Flattened field by field when passed. -/
  | tuple (elements : List TypeId)
  /-- A reference to an instance of a class. -/
  | object (className : String)
  /-- A pointer to the metadata of a class. -/
  | metatype (className : String)
  /-- The receiver of a protocol requirement. -/
  | protocolSelf (protocol : String)
  /-- A generic parameter; its values are always passed by address. -/
  | generic (index : Nat)
  deriving DecidableEq, Repr, Inhabited

/-- The types known so far.  A type's id is its position, and the table leads from shapes
to ids. -/
structure Pool where
  shapes : List Shape
  ids : Table Shape TypeId
  /-- The table and the positions agree on every shape. -/
  agree : ∀ s, ids.get? s = shapes.idxOf? s

/-- The id that every pool gives a scalar. -/
def Scalar.typeId : Scalar → TypeId
  | i8 => 1
  | i16 => 2
  | i32 => 3
  | i64 => 4
  | f32 => 5
  | f64 => 6
  | ptr => 7

namespace Pool

/-- The number of types. -/
def size (p : Pool) : Nat := p.shapes.length

/-- The id of a shape that the pool holds. -/
def find? (p : Pool) (s : Shape) : Option TypeId := p.ids.get? s

/-- The table and the positions give a shape one id. -/
theorem find?_eq (p : Pool) (s : Shape) : p.find? s = p.shapes.idxOf? s := p.agree s

/-- Add a new shape at the end. -/
def add (p : Pool) (s : Shape) (h : p.find? s = none) : Pool where
  shapes := p.shapes ++ [s]
  ids := p.ids.insert s p.size
  agree t := by
    have hs : p.shapes.idxOf? s = none := p.agree s ▸ h
    rw [Table.get?_insert, idxOf?_concat, p.agree]
    split
    · next hst =>
      rw [← hst, hs]
      rfl
    · rw [Option.or_none]

@[simp]
theorem shapes_add (p : Pool) (s : Shape) (h : p.find? s = none) :
    (p.add s h).shapes = p.shapes ++ [s] := rfl

/-- The id of a shape, adding it unless it is there by now. -/
def enter (s : Shape) : Step Pool TypeId := fun p =>
  match h : p.find? s with
  | some id => .ok id p
  | none => .ok p.size (p.add s h)

/-- The id of a shape, adding it at the end if it is new. -/
def intern (s : Shape) : Step Pool TypeId := fun p =>
  match p.find? s with
  | some id => .ok id p
  | none => enter s p

/-- The pool without types. -/
def empty : Pool := ⟨[], {}, fun _ => rfl⟩

/-- A pool with more shapes, added one after the other unless they are there. -/
def extend (p : Pool) : List Shape → Pool
  | [] => p
  | s :: rest =>
    match h : p.find? s with
    | some _ => p.extend rest
    | none => (p.add s h).extend rest

/-- The pool with the unit type and the scalars. -/
def new : Pool :=
  empty.extend [.unit, .scalar .i8, .scalar .i16, .scalar .i32, .scalar .i64, .scalar .f32,
    .scalar .f64, .scalar .ptr]

instance : Inhabited Pool := ⟨new⟩

/-- The shape of a type. -/
def shape (p : Pool) (id : TypeId) : Attempt Shape :=
  match p.shapes[id]? with
  | some s => .ok s
  | none => Attempt.trap (.foreignType id)

/-- Is the type the metatype of a class? -/
def isMetatype (p : Pool) (id : TypeId) : Attempt Bool := do
  match ← p.shape id with
  | .metatype _ => return true
  | _ => return false

end Pool

/-! ### Types written out in full -/

/-- A type written out in full. -/
inductive Ty where
  | unit
  | scalar (kind : Scalar)
  | tuple (elements : List Ty)
  | object (className : String)
  | metatype (className : String)
  | protocolSelf (protocol : String)
  | generic (index : Nat)
  deriving Repr, Inhabited

namespace Ty

mutual

/-- The highest index of a generic parameter in the type. -/
def maxGeneric : Ty → Option Nat
  | .generic index => some index
  | .tuple elements => maxGenericOf elements
  | .unit => none
  | .scalar _ => none
  | .object _ => none
  | .metatype _ => none
  | .protocolSelf _ => none

/-- The highest index of a generic parameter in the types. -/
def maxGenericOf : List Ty → Option Nat
  | [] => none
  | t :: rest =>
    match t.maxGeneric, maxGenericOf rest with
    | some a, some b => some (max a b)
    | some a, none => some a
    | none, b => b

end

end Ty

namespace Pool

/-- How deep a walk may go.  The types on the way down are all different unless one
contains itself, and one step more finds an id that is not a type. -/
def maxDepth (p : Pool) : Nat := p.size + 1

/-- Write out a type down to the given depth. -/
def treeTo (p : Pool) : Nat → TypeId → Attempt Ty
  | 0, _ => Attempt.trap .endless
  | depth + 1, id => do
    match ← p.shape id with
    | .unit => return .unit
    | .scalar kind => return .scalar kind
    | .tuple elements => return .tuple (← elements.mapM (p.treeTo depth))
    | .object className => return .object className
    | .metatype className => return .metatype className
    | .protocolSelf protocol => return .protocolSelf protocol
    | .generic index => return .generic index

/-- Write out a type. -/
def tree (p : Pool) (id : TypeId) : Attempt Ty := p.treeTo p.maxDepth id

/-! ### Walks -/

/-- Does the type contain a generic parameter, down to the given depth?  The walk
stops at the first one. -/
def addressOnlyTo (p : Pool) : Nat → TypeId → Attempt Bool
  | 0, _ => Attempt.trap .endless
  | depth + 1, id => do
    match ← p.shape id with
    | .generic _ => return true
    | .tuple elements => elements.anyM (p.addressOnlyTo depth)
    | .unit => return false
    | .scalar _ => return false
    | .object _ => return false
    | .metatype _ => return false
    | .protocolSelf _ => return false

/-- Does the type contain a generic parameter? -/
def isAddressOnly (p : Pool) (id : TypeId) : Attempt Bool := p.addressOnlyTo p.maxDepth id

/-- The scalars of a type, down to the given depth.  The walk stops at the first
generic parameter, which has none. -/
def componentsTo (p : Pool) : Nat → TypeId → Attempt (List Scalar)
  | 0, _ => Attempt.trap .endless
  | depth + 1, id => do
    match ← p.shape id with
    | .unit => return []
    | .scalar kind => return [kind]
    | .tuple elements => return (← elements.mapM (p.componentsTo depth)).flatten
    | .object _ => return [.ptr]
    | .metatype _ => return [.ptr]
    | .protocolSelf _ => return [.ptr]
    | .generic _ => Attempt.abi (.addressOnly id)

/-- The scalars of a type, in field order. -/
def components (p : Pool) (id : TypeId) : Attempt (List Scalar) :=
  p.componentsTo p.maxDepth id

/-- The highest index of a generic parameter in a type. -/
def maxGeneric (p : Pool) (id : TypeId) : Attempt (Option Nat) := Ty.maxGeneric <$> p.tree id

end Pool

end Dispatch
