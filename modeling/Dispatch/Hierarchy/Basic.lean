import Dispatch.Symbol.Mangle
import Dispatch.Symbol.Digest
import Dispatch.Code.Basic

/-!
# Classes, protocols and conformances

The declarations of one module, and the walks along them: from a class to its root,
and from an overriding method to the one that introduced the table entry.  When a
name is declared twice, the later declaration counts.

Nothing stops declarations from going round in a circle.  Each walk is therefore
given more steps than there are declarations; a walk that uses them all has no end.

## Main definitions

* `MethodDecl`, `ClassDecl`, `ProtocolDecl`, `Conformance`, `Hierarchy`.
* `Hierarchy.ancestry` — the superclasses of a class, root first.
* `Hierarchy.introducing` — the method that introduced a table entry.
* `Hierarchy.addConformance` — checks that every requirement has a witness.
* `Hierarchy.implementations` — every implementation, with the method it is called as.
-/

namespace Dispatch

/-- A method declared in the body of a class. -/
structure MethodDecl where
  method : Method
  /-- The symbol of the implementation. -/
  implementation : String
  visibility : Visibility
  /-- The inherited method whose table entry this one replaces. -/
  overrides : Option Method
  deriving DecidableEq, Repr, Inhabited

/-- A class. -/
structure ClassDecl where
  name : String
  superclass : Option String
  /-- May later versions of the module add entries? -/
  resilient : Bool
  methods : List MethodDecl
  deriving DecidableEq, Repr, Inhabited

/-- A protocol. -/
structure ProtocolDecl where
  name : String
  requirements : List Method
  deriving DecidableEq, Repr, Inhabited

/-- The witnesses by which a type conforms to a protocol, one per requirement. -/
structure Conformance where
  type : String
  protocol : String
  /-- Symbols of implementations, in the order of the requirements. -/
  witnesses : List String
  deriving DecidableEq, Repr, Inhabited

/-- The declarations of a module, in order. -/
structure Hierarchy where
  module : String
  classes : List ClassDecl := []
  protocols : List ProtocolDecl := []
  conformances : List Conformance := []
  deriving DecidableEq, Repr, Inhabited

namespace Hierarchy

/-! ### Declaring -/

/-- Declare a class. -/
def addClass (h : Hierarchy) (c : ClassDecl) : Hierarchy := { h with classes := h.classes ++ [c] }

/-- Declare a protocol. -/
def addProtocol (h : Hierarchy) (p : ProtocolDecl) : Hierarchy :=
  { h with protocols := h.protocols ++ [p] }

/-- The class with a name. -/
def classNamed (h : Hierarchy) (name : String) : Attempt ClassDecl :=
  match h.classes.reverse.find? (·.name == name) with
  | some c => .ok c
  | none => Attempt.abi (.unknownClass name)

/-- The protocol with a name. -/
def protocolNamed (h : Hierarchy) (name : String) : Attempt ProtocolDecl :=
  match h.protocols.reverse.find? (·.name == name) with
  | some p => .ok p
  | none => Attempt.abi (.unknownProtocol name)

/-- Declare a conformance.  The protocol has to be known, and there has to be one
witness for each of its requirements. -/
def addConformance (h : Hierarchy) (c : Conformance) : Attempt Hierarchy := do
  let protocol ← h.protocolNamed c.protocol
  if protocol.requirements.length = c.witnesses.length then
    return { h with conformances := h.conformances ++ [c] }
  else
    Attempt.abi
      (.witnessCount c.type c.protocol protocol.requirements.length c.witnesses.length)

/-! ### Ancestry -/

/-- A class and its superclasses, root last, in at most the given number of steps. -/
def lineageTo (h : Hierarchy) : Nat → String → Attempt (List ClassDecl)
  | 0, _ => Attempt.trap .endless
  | steps + 1, name => do
    let decl ← h.classNamed name
    match decl.superclass with
    | none => return [decl]
    | some parent =>
      let above ← h.lineageTo steps parent
      return decl :: above

/-- The superclasses of a class, root first, and the class itself. -/
def ancestry (h : Hierarchy) (name : String) : Attempt (List ClassDecl) := do
  let lineage ← h.lineageTo (h.classes.length + 1) name
  return lineage.reverse

/-- Can the entries that the class adds move in a later version? -/
def isResilient (h : Hierarchy) (name : String) : Attempt Bool := do
  let ancestry ← h.ancestry name
  return ancestry.any (·.resilient)

/-! ### Declarations of methods -/

/-- The declaration of a method. -/
def declOf (h : Hierarchy) (m : Method) : Attempt MethodDecl :=
  match m.owner with
  | .ofProtocol _ => Attempt.abi (.notAClassMethod m.selector)
  | .ofClass name => do
    let owner ← h.classNamed name
    match owner.methods.find? (·.method == m) with
    | some decl => return decl
    | none => Attempt.abi (.unknownMethod name m.selector)

/-- The number of method declarations. -/
def declCount (h : Hierarchy) : Nat := (h.classes.flatMap (·.methods)).length

/-- Follow overrides up from a method, in at most the given number of steps. -/
def introducingTo (h : Hierarchy) : Nat → Method → Attempt Method
  | 0, _ => Attempt.trap .endless
  | steps + 1, m => do
    let decl ← h.declOf m
    match decl.overrides with
    | none => return decl.method
    | some base => h.introducingTo steps base

/-- The method that introduced the table entry of a method. -/
def introducing (h : Hierarchy) (m : Method) : Attempt Method :=
  h.introducingTo (h.declCount + 1) m

/-- Does the method have a table entry of its own, rather than replace one? -/
def introduces (h : Hierarchy) (m : Method) : Attempt Bool := do
  let decl ← h.declOf m
  return decl.overrides.isNone

/-- Every implementation, with the method whose native signature it is called with:
the methods of the classes first, then the witnesses. -/
def implementations (h : Hierarchy) : Attempt (List (String × Method)) := do
  let ofClasses ← (h.classes.flatMap (·.methods)).mapM fun decl => do
    return (decl.implementation, ← h.introducing decl.method)
  let ofConformances ← h.conformances.mapM fun c => do
    let protocol ← h.protocolNamed c.protocol
    return c.witnesses.zip protocol.requirements
  return ofClasses ++ ofConformances.flatten

end Hierarchy

end Dispatch
