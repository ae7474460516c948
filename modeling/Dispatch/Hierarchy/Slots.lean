import Dispatch.Hierarchy.Basic

/-!
# Table slots

The metadata of a class is two header words, its type descriptor and the metadata
of its superclass, followed by its table: the entries of its ancestors, root first,
and then those it adds itself.  An override changes the implementation of an entry
and keeps its place.  A witness table is one header word, followed by a witness for
each requirement.

## Main definitions

* `VTable`, `Hierarchy.vtable` — the table of a class.
* `Hierarchy.slot` — where a class method's entry is.
* `Hierarchy.witnessIndex` — where a requirement's witness is.
* `Hierarchy.methodDiscriminator` — what the entries of a method are signed with.
* `Hierarchy.classMethods` — the methods that a class introduces.
-/

namespace Dispatch

/-- Words before the first entry of a class table. -/
def tableHeaderWords : Nat := 2

/-- Words before the first entry of a witness table. -/
def witnessHeaderWords : Nat := 1

/-- An entry of a class table. -/
structure VTableEntry where
  /-- The method that introduced the entry. -/
  method : Method
  /-- The symbol of the implementation that the class uses. -/
  implementation : String
  deriving DecidableEq, Repr, Inhabited

/-- The table of a class. -/
structure VTable where
  entries : List VTableEntry := []
  /-- The word of the metadata where the class's own entries start. -/
  ownStart : Nat := tableHeaderWords
  deriving DecidableEq, Repr, Inhabited

namespace VTable

/-- The words of the metadata of a class with this table. -/
def words (t : VTable) : Nat := tableHeaderWords + t.entries.length

end VTable

/-- A method that a class introduces. -/
structure ClassMethod where
  method : Method
  implementation : String
  visibility : Visibility
  /-- Does some class of the module override the entry? -/
  overridden : Bool
  deriving DecidableEq, Repr, Inhabited

/-- Give the first entry that `base` introduced a new implementation. -/
def replaceEntry (base : Method) (implementation : String) : List VTableEntry → List VTableEntry
  | [] => []
  | e :: rest =>
    if e.method = base then { e with implementation } :: rest
    else e :: replaceEntry base implementation rest

namespace Hierarchy

/-! ### Class tables -/

/-- The entries after one more method declaration. -/
def addDecl (h : Hierarchy) (entries : List VTableEntry) (d : MethodDecl) :
    Attempt (List VTableEntry) :=
  match d.overrides with
  | none => return entries ++ [⟨d.method, d.implementation⟩]
  | some _ => do
    let base ← h.introducing d.method
    return replaceEntry base d.implementation entries

/-- The table of a class, from the table of its superclass. -/
def extendTable (h : Hierarchy) (t : VTable) (c : ClassDecl) : Attempt VTable := do
  let entries ← c.methods.foldlM h.addDecl t.entries
  return { entries, ownStart := tableHeaderWords + t.entries.length }

/-- The table of a class. -/
def vtable (h : Hierarchy) (name : String) : Attempt VTable := do
  let ancestry ← h.ancestry name
  ancestry.foldlM h.extendTable {}

/-- The symbol of the global that says where a class's own entries start. -/
def boundsSymbol (h : Hierarchy) (name : String) : String :=
  classSymbol h.module name .tableBounds

/-- Where the entry of a class method is. -/
def slot (h : Hierarchy) (m : Method) : Attempt Slot := do
  let base ← h.introducing m
  match base.owner with
  | .ofProtocol _ => Attempt.abi (.notAClassMethod m.selector)
  | .ofClass name =>
    let table ← h.vtable name
    match table.entries.findIdx? (·.method == base) with
    | none => Attempt.abi (.unknownMethod name m.selector)
    | some position =>
      let word := position + tableHeaderWords
      -- Where the own entries of a resilient class start is known at run time only.
      if ← h.isResilient name then
        return .resilient (h.boundsSymbol name) (← subSize word table.ownStart)
      else return .fixed word

/-! ### Witness tables -/

/-- The word of a witness table that holds the witness of a requirement. -/
def witnessIndex (h : Hierarchy) (m : Method) : Attempt Nat :=
  match m.owner with
  | .ofClass _ => Attempt.abi (.notAWitnessMethod m.selector)
  | .ofProtocol name => do
    let protocol ← h.protocolNamed name
    match protocol.requirements.findIdx? (· == m) with
    | some position => return position + witnessHeaderWords
    | none => Attempt.abi (.notARequirement name m.selector)

/-! ### Identities -/

/-- What the table entries of a method are signed with.  An override is signed like
the method it overrides. -/
def methodDiscriminator (h : Hierarchy) (p : Pool) (m : Method) : Attempt UInt16 := do
  let base ← if m.isWitness then pure m else h.introducing m
  return discriminator (← base.descriptorSymbol p)

/-- The symbol of a class's type descriptor. -/
def typeDescriptor (h : Hierarchy) (name : String) : Attempt String := do
  let _ ← h.classNamed name
  return classSymbol h.module name .typeDescriptor

/-! ### Members -/

/-- Does one of the declarations override the entry that `m` introduced? -/
def anyOverrides (h : Hierarchy) (m : Method) : List MethodDecl → Attempt Bool
  | [] => return false
  | d :: rest => do
    if d.overrides.isSome then
      if (← h.introducing d.method) = m then return true
      else h.anyOverrides m rest
    else h.anyOverrides m rest

/-- Does some class of the module override the entry that `m` introduced? -/
def isOverridden (h : Hierarchy) (m : Method) : Attempt Bool :=
  h.anyOverrides m (h.classes.flatMap (·.methods))

/-- The methods that a class introduces, in table order. -/
def classMethods (h : Hierarchy) (name : String) : Attempt (List ClassMethod) := do
  let decl ← h.classNamed name
  (decl.methods.filter (·.overrides.isNone)).mapM fun d => do
    return {
      method := d.method
      implementation := d.implementation
      visibility := d.visibility
      overridden := ← h.isOverridden d.method }

end Hierarchy

end Dispatch
