import Dispatch.Fault

/-!
# Memory

Memory is made of regions with unmapped gaps between them.  A word is read, written
or *taken*: taking moves its value out, and it cannot be read again before it is
written.  Words that were never written are zero.

## Main definitions

* `Region`, `Memory`, `Memory.alloc` — regions, placed one after the other.
* `Memory.read`, `Memory.write`, `Memory.take` — access to one word.
* `Memory.readWords`, `Memory.writeWords`, `Memory.takeWords` — to several.
-/

namespace Dispatch

/-- An allocated range of addresses. -/
structure Region where
  base : Word
  /-- The size that was asked for. -/
  bytes : Nat
  deriving DecidableEq, Repr, Inhabited

/-- Memory: what was written, and where that is allowed. -/
structure Memory where
  /-- The last value of every word that was written or taken, latest first; `none`
  if it was taken. -/
  cells : List (Word × Option Word) := []
  /-- The regions, latest first, so by falling address. -/
  regions : List Region := []
  /-- Where the next region goes. -/
  next : Word := 0x1000
  deriving DecidableEq, Repr, Inhabited

namespace Region

/-- Unmapped bytes after every region. -/
def gapBytes : Nat := 16

/-- Does the region hold the address?  An empty region holds its base. -/
def holds (r : Region) (address : Word) : Bool :=
  r.base ≤ address && address.toNat < r.base.toNat + max r.bytes 1

/-- The bytes set aside for a region: a whole number of words, at least one. -/
def extent (bytes : Nat) : Nat := (max bytes 1 + (wordBytes - 1)) / wordBytes * wordBytes

end Region

namespace Memory

/-! ### Regions -/

/-- The address some bytes further on, or a trap. -/
def advance (base : Word) (bytes : Nat) : Attempt Word :=
  Attempt.fits .add
    (if base.toNat + bytes < UInt64.size then some (base + UInt64.ofNat bytes) else none)

/-- Allocate a zeroed region; the answer is its base. -/
def alloc (bytes : Nat) : Step Memory Word := do
  let m ← get
  let past ← advance m.next (Region.extent bytes)
  let next ← advance past Region.gapBytes
  set { m with regions := ⟨m.next, bytes⟩ :: m.regions, next }
  return m.next

/-- The nearest region that does not start above an address. -/
def regionBelow? (m : Memory) (address : Word) : Option Region :=
  m.regions.find? fun r => r.base ≤ address

/-- Is the address inside a region? -/
def isMapped (m : Memory) (address : Word) : Bool :=
  (m.regionBelow? address).any fun r => r.holds address

/-- The size of the region that starts at an address. -/
def regionSize? (m : Memory) (base : Word) : Option Nat :=
  (m.regions.find? fun r => r.base == base).map Region.bytes

/-! ### Single words -/

/-- The last thing that happened to a word. -/
def cell? (m : Memory) (address : Word) : Option (Option Word) :=
  (m.cells.find? fun c => c.1 == address).map (·.2)

/-- Was the word taken and not written since? -/
def isDrained (m : Memory) (address : Word) : Bool := m.cell? address == some none

/-- Read a word. -/
def read (m : Memory) (address : Word) : Attempt Word :=
  if m.isMapped address then
    match m.cell? address with
    | none => .ok 0
    | some (some value) => .ok value
    | some none => .error (.machine (.useAfterTake address))
  else .error (.machine (.unmapped address))

/-- Write a word. -/
def write (address value : Word) : Step Memory Unit := do
  let m ← get
  if m.isMapped address then set { m with cells := (address, some value) :: m.cells }
  else throw (.machine (.unmapped address))

/-- Move a word out. -/
def take (address : Word) : Step Memory Word := do
  let m ← get
  let value ← m.read address
  set { m with cells := (address, none) :: m.cells }
  return value

/-! ### Several words -/

/-- The address of the word with an index, counting from `base`. -/
def wordAddress (base : Word) (index : Nat) : Attempt Word := do
  addWord base (← mulWord (UInt64.ofNat wordBytes) (UInt64.ofNat index))

/-- Read `count` words, the first of which has the index `start`. -/
def readFrom (m : Memory) (base : Word) (start : Nat) : Nat → Attempt (List Word)
  | 0 => return []
  | count + 1 => do
    let first ← m.read (← wordAddress base start)
    let others ← m.readFrom base (start + 1) count
    return first :: others

/-- Read consecutive words. -/
def readWords (m : Memory) (base : Word) (count : Nat) : Attempt (List Word) :=
  m.readFrom base 0 count

/-- Write words, the first of which has the index `start`. -/
def writeFrom (base : Word) (start : Nat) : List Word → Step Memory Unit
  | [] => return ()
  | value :: rest => do
    write (← wordAddress base start) value
    writeFrom base (start + 1) rest

/-- Write consecutive words. -/
def writeWords (base : Word) (values : List Word) : Step Memory Unit := writeFrom base 0 values

/-- Move out `count` words, the first of which has the index `start`. -/
def takeFrom (base : Word) (start : Nat) : Nat → Step Memory (List Word)
  | 0 => return []
  | count + 1 => do
    let first ← take (← wordAddress base start)
    let others ← takeFrom base (start + 1) count
    return first :: others

/-- Move out consecutive words. -/
def takeWords (base : Word) (count : Nat) : Step Memory (List Word) := takeFrom base 0 count

/-- The bytes of a region of `words` words; only the low 32 bits of the count matter. -/
def bytesOfWords (words : Nat) : Attempt Nat := mulSize (words % Size.limit) wordBytes

/-- Allocate a region of whole words. -/
def allocWords (words : Nat) : Step Memory Word := do alloc (← bytesOfWords words)

end Memory

end Dispatch
