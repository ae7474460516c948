import Dispatch.Auth

/-!
# Options

How a module's code is generated: whether table entries are signed, and whether
batches are generated side by side.  Options are read from two texts, as they come
from a command line or an environment; blanks around a text do not count.

## Main definitions

* `isBlank`, `trimBlanks` — white space as Unicode defines it.
* `Key.parse?`, `Options`, `Options.ofTexts` — reading options.
-/

namespace Dispatch

/-- The ranges of code points with the Unicode property `White_Space`. -/
def blankRanges : List (Nat × Nat) :=
  [(0x9, 0xD), (0x20, 0x20), (0x85, 0x85), (0xA0, 0xA0), (0x1680, 0x1680),
   (0x2000, 0x200A), (0x2028, 0x2029), (0x202F, 0x202F), (0x205F, 0x205F),
   (0x3000, 0x3000)]

/-- Is the character white space? -/
def isBlank (c : Char) : Bool :=
  blankRanges.any fun (first, last) => first ≤ c.toNat && c.toNat ≤ last

/-- A text without the white space at its two ends. -/
def trimBlanks (s : String) : String :=
  String.ofList ((s.toList.dropWhile isBlank).reverse.dropWhile isBlank).reverse

/-- The key with a name, in letters of either case and with blanks around it. -/
def Key.parse? (s : String) : Option Key :=
  ofText? (String.ofList ((trimBlanks s).toList.map Char.toLower))

/-- How code is generated. -/
structure Options where
  /-- The key that table entries are signed with, if they are signed. -/
  signingKey : Option Key := none
  /-- Are batches generated side by side? -/
  parallel : Bool := true
  deriving DecidableEq, Repr, Inhabited

namespace Options

/-- The key that a text asks for; a text that names no key asks for none. -/
def keyOfText? (s : String) : Option Key :=
  if ["", "off", "none"].contains (trimBlanks s) then none else Key.parse? s

/-- The options that two texts ask for: the signing key, and whether to generate one
function at a time, which any text but `0` means. -/
def ofTexts (key serial : Option String) : Options where
  signingKey := key.bind keyOfText?
  parallel := match serial with
    | none => true
    | some s => trimBlanks s == "0"

/-- The same options, generating one function at a time. -/
def serial (o : Options) : Options := { o with parallel := false }

end Options

end Dispatch
