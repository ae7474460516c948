import Dispatch.Types.Subst

/-!
# Methods

A method is identified by where it is declared, its selector and its signature as
the calling convention sees it.  Two methods are the same exactly when every field
agrees; overloads differ in their signatures.

## Main definitions

* `Owner`, `MethodKind`, `Visibility` — where and how a method is declared.
* `Signature`, `Method` — a method and its types.
* `Signature.substitute` — apply a substitution to every type of a signature.
* `Convention.ofFlags` — the convention that a function type asks for.
-/

namespace Dispatch

/-- The class or protocol that declares a method. -/
inductive Owner where
  | ofClass (name : String)
  | ofProtocol (name : String)
  deriving DecidableEq, Repr, Inhabited

namespace Owner

/-- The name of the class or protocol. -/
def name : Owner → String
  | ofClass n => n
  | ofProtocol n => n

/-- Is the owner a protocol? -/
def isProtocol : Owner → Bool
  | ofClass _ => false
  | ofProtocol _ => true

end Owner

/-- What a method is called on. -/
inductive MethodKind where
  | onInstance
  /-- The receiver is the metadata of the class. -/
  | onClass
  deriving DecidableEq, Repr, Inhabited

/-- Who can link against a method. -/
inductive Visibility where
  | isPublic
  | isInternal
  | isPrivate
  deriving DecidableEq, Repr, Inhabited

namespace Visibility

/-- The word for a visibility. -/
def text : Visibility → String
  | isPublic => "public"
  | isInternal => "internal"
  | isPrivate => "private"

/-- Every visibility. -/
def all : List Visibility := [isPublic, isInternal, isPrivate]

/-- The visibility with a name. -/
def ofText? (s : String) : Option Visibility := all.find? fun v => v.text == s

@[simp]
theorem ofText?_text (v : Visibility) : ofText? v.text = some v := by cases v <;> rfl

end Visibility

/-- The function type of a method.  The receiver is not among `params`; it is always
the last logical parameter. -/
structure Signature where
  convention : Convention
  generics : Generics
  selfType : TypeId
  params : List TypeId
  result : TypeId
  /-- The error type of a method that throws. -/
  error : Option TypeId
  deriving DecidableEq, Repr, Inhabited

namespace Signature

/-- Does the method throw? -/
def throws (s : Signature) : Bool := s.error.isSome

/-- Apply a substitution to every type: the receiver, the parameters from left to
right, the result, the error. -/
def substitute (s : Signature) (map : Subst) : Step Pool Signature := do
  let selfType ← map.apply s.selfType
  let params ← s.params.mapM map.apply
  let result ← map.apply s.result
  let error ← s.error.mapM map.apply
  return { s with selfType, params, result, error }

end Signature

/-- A declared method. -/
structure Method where
  /-- The module that declares the owner. -/
  module : String
  owner : Owner
  selector : String
  kind : MethodKind
  signature : Signature
  deriving DecidableEq, Repr, Inhabited

namespace Method

/-- Are calls dispatched through a witness table? -/
def isWitness (m : Method) : Bool := m.owner.isProtocol

/-- The method's calling convention. -/
def convention (m : Method) : Convention := m.signature.convention

end Method

/-- The convention of a function type with these two properties. -/
def Convention.ofFlags (isAsync isCoroutine : Bool) : Attempt Convention :=
  match isAsync, isCoroutine with
  | false, false => .ok .ordinary
  | true, false => .ok .async
  | false, true => .ok .yieldOnce
  | true, true => Attempt.trap .asyncCoroutine

end Dispatch
