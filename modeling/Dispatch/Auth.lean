import Dispatch.Fault

/-!
# Pointer authentication

Entries of class tables can be signed.  A signed pointer carries a sixteen-bit tag
in its top bits, made from a key and the discriminator of the method; checking it
strips a matching tag and refuses anything else, unsigned pointers included.

## Main definitions

* `Key`, `Signing` — a key, and a key with a discriminator.
* `Signing.tag`, `Signing.sign`, `Signing.check` — tags, signing, checking.
* `Word.strip`, `Word.isSigned` — the address in a pointer, and whether it has a tag.
-/

namespace Dispatch

/-- A signing key. -/
inductive Key where
  | ia
  | ib
  | da
  | db
  deriving DecidableEq, Repr, Inhabited

namespace Key

/-- The key's name. -/
def text : Key → String
  | ia => "ia"
  | ib => "ib"
  | da => "da"
  | db => "db"

/-- Every key. -/
def all : List Key := [ia, ib, da, db]

/-- The key with a name. -/
def ofText? (s : String) : Option Key := all.find? fun k => k.text == s

@[simp]
theorem ofText?_text (k : Key) : ofText? k.text = some k := by cases k <;> rfl

/-- What the key adds to a discriminator. -/
def salt : Key → UInt16
  | ia => 0xA5A5
  | ib => 0x5A5A
  | da => 0x3C3C
  | db => 0xC3C3

end Key

/-- A key and the discriminator of a method. -/
structure Signing where
  key : Key
  discriminator : UInt16
  deriving DecidableEq, Repr, Inhabited

namespace Word

/-- Bits of a pointer that are an address; the tag is above them. -/
def addressBits : Nat := 48

/-- The address in a pointer, whatever its tag. -/
def strip (value : Word) : Word := value &&& Word.lowBits addressBits

/-- The tag of a pointer; zero if it is not signed. -/
def tagOf (value : Word) : UInt16 := (value >>> UInt64.ofNat addressBits).toUInt16

/-- Does the pointer carry a tag? -/
def isSigned (value : Word) : Bool := tagOf value != 0

end Word

namespace Signing

/-- The tag of pointers signed this way.  It is never zero, so that a signed pointer
can be told from a plain one. -/
def tag (s : Signing) : UInt16 :=
  let mixed := s.discriminator ^^^ s.key.salt
  if mixed = 0 then 1 else mixed

/-- Sign the address of a pointer. -/
def sign (s : Signing) (value : Word) : Word :=
  Word.strip value ||| (s.tag.toUInt64 <<< UInt64.ofNat Word.addressBits)

/-- Check a signed pointer and strip its tag. -/
def check (s : Signing) (value : Word) : Attempt Word :=
  if Word.tagOf value = s.tag then .ok (Word.strip value)
  else .error (.machine (.authFailure value s.tag))

end Signing

end Dispatch
