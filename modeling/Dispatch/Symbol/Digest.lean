import Dispatch.Symbol.Escape

/-!
# Discriminators

A discriminator is sixteen bits of a hash of a symbol.  Modules that are compiled
apart have to agree on it, so the hash is fixed: a multiply-and-fold hash of the
UTF-8 bytes that mixes two 64-bit lanes, sixteen bytes at a time.

## Main definitions

* `Digest.hash` — the 64-bit hash of a byte string.
* `discriminator` — the sixteen bits a symbol is known by.
-/

namespace Dispatch

namespace Digest

/-- The low half of a product xor its high half. -/
def mix (x y : UInt64) : UInt64 :=
  let product := x.toNat * y.toNat
  UInt64.ofNat product ^^^ UInt64.ofNat (product / UInt64.size)

/-- The number that bytes spell, the least significant first. -/
def littleEndian (bytes : List UInt8) : UInt64 :=
  bytes.foldr (fun b n => n * 256 + b.toUInt64) 0

/-- Bytes `start` to `start + count`, as a number. -/
def load (bytes : List UInt8) (start count : Nat) : UInt64 :=
  littleEndian ((bytes.drop start).take count)

/-- The two lanes of the hash. -/
structure Lanes where
  first : UInt64
  second : UInt64
  deriving DecidableEq, Repr, Inhabited

/-- The lanes before any byte. -/
def Lanes.start : Lanes := ⟨0x243f6a8885a308d3, 0x13198a2e03707344⟩

/-- Take in two numbers, one per lane. -/
def Lanes.fold (s : Lanes) (a b : UInt64) : Lanes := ⟨s.first ^^^ a, s.second ^^^ b⟩

/-- Take in sixteen bytes, given as two numbers. -/
def Lanes.block (s : Lanes) (a b : UInt64) : Lanes :=
  ⟨s.second, mix (s.first ^^^ a) (0xa4093822299f31d0 ^^^ b)⟩

/-- Take in the first `count` blocks of sixteen bytes. -/
def Lanes.blocks : Nat → List UInt8 → Lanes → Lanes
  | 0, _, s => s
  | count + 1, bytes, s =>
    blocks count (bytes.drop 16) (s.block (load bytes 0 8) (load bytes 8 8))

/-- Take in a whole byte string. -/
def lanes (bytes : List UInt8) : Lanes :=
  let n := bytes.length
  if n = 0 then Lanes.start
  else if n < 4 then
    Lanes.start.fold (load bytes 0 1) (load bytes (n - 1) 1 * 256 + load bytes (n / 2) 1)
  else if n < 8 then Lanes.start.fold (load bytes 0 4) (load bytes (n - 4) 4)
  else if n ≤ 16 then Lanes.start.fold (load bytes 0 8) (load bytes (n - 8) 8)
  else
    (Lanes.start.blocks ((n - 1) / 16) bytes).fold (load bytes (n - 16) 8)
      (load bytes (n - 8) 8)

/-- Rotate a word to the left. -/
def rotateLeft (x : UInt64) (count : UInt64) : UInt64 :=
  (x <<< count) ||| (x >>> (64 - count))

/-- The hash of a byte string. -/
def hash (bytes : List UInt8) : UInt64 :=
  let s := lanes bytes
  let folded := mix s.first s.second ^^^ UInt64.ofNat bytes.length
  rotateLeft (folded * 0xf1357aea2e62a9c5) 26

end Digest

/-- The sixteen bits that a symbol is known by: the four quarters of its hash, xored. -/
def discriminator (symbol : String) : UInt16 :=
  let h := Digest.hash (Symbol.bytesOf symbol)
  (h ^^^ (h >>> 16) ^^^ (h >>> 32) ^^^ (h >>> 48)).toUInt16

end Dispatch
