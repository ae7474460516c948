import Dispatch.Fault
import Dispatch.Table

/-!
# Interned names

An interner gives every distinct string a *name*: one of sixteen shards, chosen by
the first eight bytes of the string, and a position in that shard.  Names are
packed into 32 bits, four for the shard and twenty-eight for the position.  The
empty string is interned from the start and is name zero.

A shard holds its strings twice: in order of arrival, which leads from a name to its
string, and in an index, which leads back.  A string that the index does not know is
*entered*.  Entering looks it up once more, as others may have been faster, and adds
it only then; a counter beside the shards keeps the number of strings.

## Main definitions

* `Name` — a shard and a position, packed; `Name.ofParts`, `Name.shard`, `Name.index`.
* `Shard` — some strings and their index; `Shard.add`.
* `Interner` — the shards; `Interner.intern`, `Interner.lookup`, `Interner.size`.
-/

namespace Dispatch

/-- The packed form of a shard number (four bits) and a position (28 bits). -/
structure Name where
  raw : Nat
  deriving DecidableEq, Repr, Inhabited

namespace Name

/-- Number of shards. -/
def shardCount : Nat := 16

/-- The bits of a position. -/
def indexBits : Nat := 28

/-- Positions in a shard are below this bound. -/
def indexLimit : Nat := 0x10000000

/-- The name of the empty string. -/
def empty : Name := ⟨0⟩

/-- The shard of a name. -/
def shard (n : Name) : Nat := n.raw >>> indexBits

/-- The position of a name in its shard. -/
def index (n : Name) : Nat := n.raw &&& (indexLimit - 1)

/-- Pack a shard number and a position. -/
def pack (shard index : Nat) : Name := ⟨shard <<< indexBits ||| index⟩

/-- Pack a shard number and a position, refusing what does not fit. -/
def ofParts (shard index : Nat) : Attempt Name :=
  if shard < shardCount then
    if index < indexLimit then .ok (pack shard index) else Attempt.trap .indexRange
  else Attempt.trap .shardRange

/-- The text that identifies a name in reports. -/
def text (n : Name) : String :=
  "Name(shard=" ++ toString n.shard ++ ", local=" ++ toString n.index ++ ")"

/-- The two parts do not overlap, so packing is a sum. -/
theorem raw_pack {s i : Nat} (h : i < indexLimit) : (pack s i).raw = s * indexLimit + i := by
  have hor : s <<< 28 + i = s <<< 28 ||| i := Nat.shiftLeft_add_eq_or_of_lt h s
  rw [pack, indexBits, ← hor, Nat.shiftLeft_eq]
  rfl

@[simp]
theorem shard_pack {s i : Nat} (h : i < indexLimit) : (pack s i).shard = s := by
  rw [shard, raw_pack h, indexBits, Nat.shiftRight_eq_div_pow]
  simp only [indexLimit] at *
  omega

@[simp]
theorem index_pack {s i : Nat} (h : i < indexLimit) : (pack s i).index = i := by
  have hmask : (pack s i).raw &&& (indexLimit - 1) = (pack s i).raw % indexLimit :=
    Nat.and_two_pow_sub_one_eq_mod _ indexBits
  rw [index, hmask, raw_pack h, Nat.mul_add_mod_of_lt h]

/-- Four bits and twenty-eight make 32. -/
theorem raw_pack_lt {s i : Nat} (hs : s < shardCount) (hi : i < indexLimit) :
    (pack s i).raw < UInt32.size := by
  rw [raw_pack hi]
  simp only [shardCount, indexLimit, UInt32.size] at *
  omega

theorem ofParts_eq_ok {s i : Nat} (hs : s < shardCount) (hi : i < indexLimit) :
    ofParts s i = .ok (pack s i) := by
  rw [ofParts, if_pos hs, if_pos hi]

end Name

/-- Some of the strings interned so far. -/
structure Shard where
  /-- The strings, in order of arrival. -/
  strings : List String := []
  /-- Where each of them is. -/
  positions : Table String Nat := {}

/-- Add a string at the end of a shard. -/
def Shard.add (shard : Shard) (s : String) : Shard where
  strings := shard.strings ++ [s]
  positions := shard.positions.insert s shard.strings.length

/-- The strings interned so far, shard by shard. -/
structure Interner where
  shards : Vector Shard 16
  /-- How many strings were added, counted in a machine word. -/
  total : Word

namespace Interner

/-- An interner that holds the empty string only. -/
def new : Interner := ⟨(Vector.replicate 16 {}).set 0 (Shard.add {} ""), 1⟩

/-- One step of the shard hash, on 32 bits. -/
def hashByte (h : UInt32) (b : UInt8) : UInt32 := h * 31 + b.toUInt32

/-- The shard of a string: a hash of its first eight bytes. -/
def shardOf (s : String) : Fin 16 :=
  Fin.ofNat 16 ((s.toUTF8.data.toList.take 8).foldl hashByte 0).toNat

/-- The position of a string in its shard. -/
def find? (t : Interner) (s : String) : Option Nat := t.shards[shardOf s].positions.get? s

/-- Add a string to its shard. -/
def add (t : Interner) (s : String) : Interner where
  shards := t.shards.set (shardOf s) (t.shards[shardOf s].add s)
  total := t.total + 1

/-- Add a string unless it is there by now; the answer is its name. -/
def enter (s : String) : Step Interner Name := do
  let t ← get
  match t.find? s with
  | some k => Name.ofParts (shardOf s) k
  | none =>
    let k := t.shards[shardOf s].strings.length
    if k < Name.indexLimit then
      set (t.add s)
      Name.ofParts (shardOf s) k
    else throw (.trap (.shardFull (shardOf s)))

/-- The name of a string, interning it if it is new. -/
def intern (s : String) : Step Interner Name := do
  match (← get).find? s with
  | some k => Name.ofParts (shardOf s) k
  | none => enter s

/-- The string of a name. -/
def lookup (t : Interner) (n : Name) : Attempt String :=
  match (t.shards[n.shard]?).bind (·.strings[n.index]?) with
  | some s => .ok s
  | none => Attempt.trap (.foreignName n.shard n.index)

/-- The number of strings, the empty one included. -/
def size (t : Interner) : Nat := t.total.toNat

end Interner

end Dispatch
