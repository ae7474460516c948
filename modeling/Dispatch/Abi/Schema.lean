import Dispatch.Fault
import Dispatch.Types.Scalar

/-!
# How values cross a call

A value has two machine-level forms.  Its *components* are its scalars in field
order, a word each.  Its *native* form is what a call passes in registers: small
integers that follow each other share a word, and everything else has a word of its
own.  A value that would need more native words than the target allows is passed by
the address of its components.

## Main definitions

* `Piece`, `NativeWord`, `Schema` — where each component goes.
* `Schema.ofComponents` — the schema of a list of components.
* `Schema.toNative`, `Schema.fromNative` — packing and unpacking.
* `Passing` — how the values of one type cross a call.
-/

namespace Dispatch

/-- A component at a bit offset of a native word. -/
structure Piece where
  /-- The component's position. -/
  component : Nat
  kind : Scalar
  shift : Nat
  deriving DecidableEq, Repr, Inhabited

/-- One native word: its kind and the components it holds. -/
structure NativeWord where
  kind : Scalar
  pieces : List Piece
  deriving DecidableEq, Repr, Inhabited

/-- How the values with given components are passed. -/
inductive Schema where
  /-- In registers. -/
  | direct (components : List Scalar) (words : List NativeWord)
  /-- By the address of the components in memory. -/
  | indirect (components : List Scalar)
  deriving DecidableEq, Repr, Inhabited

/-! ### Packing -/

/-- A native word of small integers that may still take more of them. -/
structure OpenWord where
  word : NativeWord
  /-- The bits in use, from the lowest. -/
  used : Nat
  deriving DecidableEq, Repr, Inhabited

namespace OpenWord

/-- A word that starts with the given component. -/
def start (component : Nat) (kind : Scalar) : OpenWord :=
  ⟨⟨kind, [⟨component, kind, 0⟩]⟩, kind.bits⟩

/-- Put a component above those that are there; the word is then a plain integer. -/
def push (w : OpenWord) (component : Nat) (kind : Scalar) : OpenWord :=
  ⟨⟨.i64, w.word.pieces ++ [⟨component, kind, w.used⟩]⟩, w.used + kind.bits⟩

end OpenWord

/-- The native words of the components from position `next` on, where `last` is the
word before them if it can take more small integers. -/
def packFrom (next : Nat) (last : Option OpenWord) : List Scalar → List NativeWord
  | [] => (last.map OpenWord.word).toList
  | kind :: rest =>
    if kind.packable then
      match last with
      | none => packFrom (next + 1) (some (OpenWord.start next kind)) rest
      | some w =>
        if w.used + kind.bits ≤ 64 then packFrom (next + 1) (some (w.push next kind)) rest
        else w.word :: packFrom (next + 1) (some (OpenWord.start next kind)) rest
    else
      (last.map OpenWord.word).toList
        ++ ⟨kind, [⟨next, kind, 0⟩]⟩ :: packFrom (next + 1) none rest

/-- The native words of a list of components. -/
def pack (components : List Scalar) : List NativeWord := packFrom 0 none components

namespace Schema

/-- The schema of values with these components, on a target that passes at most
`maxDirectWords` words in registers. -/
def ofComponents (components : List Scalar) (maxDirectWords : Nat) : Schema :=
  let words := pack components
  if words.length ≤ maxDirectWords then .direct components words else .indirect components

/-- Are the values passed by address? -/
def isIndirect : Schema → Bool
  | direct _ _ => false
  | indirect _ => true

/-- The components. -/
def components : Schema → List Scalar
  | direct components _ => components
  | indirect components => components

/-- The kinds of the native words; none if the values are passed by address. -/
def nativeKinds : Schema → List Scalar
  | direct _ words => words.map NativeWord.kind
  | indirect _ => []

/-- The bytes that the components take in memory. -/
def bytes (s : Schema) : Nat := s.components.length * wordBytes

end Schema

/-! ### Packing and unpacking values -/

namespace Piece

/-- The component that a native word holds at this place. -/
def read (piece : Piece) (word : Word) : Word :=
  (word >>> UInt64.ofNat piece.shift) &&& piece.kind.mask

/-- The bits of a native word that hold the component. -/
def write (piece : Piece) (values : List Word) : Word :=
  (values.getD piece.component 0 &&& piece.kind.mask) <<< UInt64.ofNat piece.shift

end Piece

namespace NativeWord

/-- The components that a native word holds. -/
def unpack (w : NativeWord) (word : Word) : List Word := w.pieces.map fun p => p.read word

/-- The native word of a value with these components. -/
def ofValues (w : NativeWord) (values : List Word) : Word :=
  w.pieces.foldl (fun word p => word ||| p.write values) 0

end NativeWord

namespace Schema

/-- The native words of a value that is passed in registers. -/
def words : Schema → Attempt (List NativeWord)
  | direct _ words => .ok words
  | indirect _ => Attempt.trap .noNativeWords

/-- The components of a value, from its native words. -/
def fromNative (s : Schema) (native : List Word) : Attempt (List Word) := do
  let words ← s.words
  if native.length = words.length then
    return (words.zip native).flatMap fun (w, word) => w.unpack word
  else Attempt.trap (.nativeCount native.length words.length)

/-- The native words of a value, from its components. -/
def toNative (s : Schema) (values : List Word) : Attempt (List Word) := do
  let words ← s.words
  if values.length = s.components.length then return words.map fun w => w.ofValues values
  else Attempt.trap (.componentCount values.length s.components.length)

end Schema

/-! ### Passing -/

/-- How the values of one type cross a call. -/
inductive Passing where
  /-- In native words. -/
  | direct (schema : Schema)
  /-- By the address of the components: the value can be loaded but is too large. -/
  | indirect (schema : Schema)
  /-- By an address that is never looked behind. -/
  | address
  deriving DecidableEq, Repr, Inhabited

namespace Passing

/-- Does an address cross the call instead of words? -/
def byAddress : Passing → Bool
  | direct _ => false
  | indirect _ => true
  | address => true

/-- The variables that a value passed this way stands for: its components, or its
address. -/
def width : Passing → Nat
  | direct schema => schema.components.length
  | indirect schema => schema.components.length
  | address => 1

/-- The word for a way of passing. -/
def text : Passing → String
  | direct _ => "direct"
  | indirect _ => "indirect"
  | address => "address"

end Passing

end Dispatch
