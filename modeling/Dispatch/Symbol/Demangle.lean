import Dispatch.Symbol.Mangle

/-!
# Reading symbols

A symbol is turned back into a description for people.  The last part says what is
named, and the first two or three parts are its path; parts in between are not
looked at.

## Main definitions

* `Entity.ofCode?`, `Entity.description`, `Entity.pathLength` — how each entity reads.
* `demangle` — the description of a symbol.
-/

namespace Dispatch

namespace Entity

/-- The entity that two letters name. -/
def ofCode? (cs : List Char) : Option Entity :=
  [dispatchThunk, methodDescriptor, lookupFunction, typeDescriptor, tableBounds].find?
    fun e => e.code == cs

@[simp]
theorem ofCode?_code (e : Entity) : ofCode? e.code = some e := by cases e <;> rfl

/-- An entity in words. -/
def description : Entity → String
  | dispatchThunk => "dispatch thunk for "
  | methodDescriptor => "method descriptor for "
  | lookupFunction => "method lookup function for "
  | typeDescriptor => "nominal type descriptor for "
  | tableBounds => "class metadata base offset for "

/-- How many parts of a symbol are the path of the entity. -/
def pathLength : Entity → Nat
  | dispatchThunk => 3
  | methodDescriptor => 3
  | lookupFunction => 2
  | typeDescriptor => 2
  | tableBounds => 2

end Entity

namespace Symbol

/-- The parts of a symbol, without the mark at its beginning. -/
def parts? (cs : List Char) : Option (List (List Char)) :=
  (mark.isPrefixOf? cs).map (List.splitOn separator)

/-- Describe the parts of a symbol that are left when the code of an async function
pointer has been taken off; the last part comes first. -/
def describe : List (List Char) → Option String
  | [] => none
  | code :: path => do
    let entity ← Entity.ofCode? code
    if path.length < entity.pathLength then none
    else
      let names ← (path.reverse.take entity.pathLength).mapM unescape
      return entity.description ++ ".".intercalate names

end Symbol

/-- The description of a symbol; `none` if it is not a symbol of ours, or names
nothing that has a description. -/
def demangle (symbol : String) : Option String := do
  let parts ← Symbol.parts? symbol.toList
  match parts.reverse with
  | [] => none
  | last :: rest =>
    if last = Symbol.asyncPointerCode then
      return "async function pointer to " ++ (← Symbol.describe rest)
    else Symbol.describe (last :: rest)

end Dispatch
