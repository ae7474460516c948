/-!
# Machine words and their written forms

A *word* is the 64-bit unit that registers, memory cells and frame fields hold.
Addresses are words too.  Sizes and offsets are natural numbers that have to stay
below `2 ^ 32`; both kinds of sum are *checked*, so a result that does not fit is
reported instead of wrapping around.

## Main definitions

* `Word` — a 64-bit machine word, `wordBytes` — the bytes it occupies.
* `Word.add?`, `Word.mul?`, `Size.add?`, `Size.sub?`, `Size.mul?` — checked
  arithmetic; `none` is an overflow.
* `Word.lowBits` — a mask.
* `hex`, `hex4` — a number in hexadecimal, bare or filled up to four digits.

## Main results

* `Word.add?_eq_some_iff`, `Word.mul?_eq_some_iff` — a checked sum or product is that
  of the values, when it fits.
* `Size.add?_eq_some_iff`, `Size.sub?_eq_some_iff`, `Size.mul?_eq_some_iff` — the same
  for sizes.
-/

namespace Dispatch

/-- A 64-bit machine word: an address, a component of a value, a table entry. -/
abbrev Word := UInt64

/-- Bytes in a machine word. -/
def wordBytes : Nat := 8

/-! ### Checked arithmetic -/

/-- The arithmetic operation whose result did not fit. -/
inductive Overflow where
  | add
  | sub
  | mul
  deriving DecidableEq, Repr, Inhabited

namespace Word

/-- The word in which exactly the lowest `count` bits are set. -/
def lowBits (count : Nat) : Word := UInt64.ofNat ((1 <<< count) - 1)

/-- The sum of two words, if it is below `2 ^ 64`. -/
def add? (a b : Word) : Option Word :=
  if a.toNat + b.toNat < UInt64.size then some (a + b) else none

/-- The product of two words, if it is below `2 ^ 64`. -/
def mul? (a b : Word) : Option Word :=
  if a.toNat * b.toNat < UInt64.size then some (a * b) else none

/-- A checked sum is the sum of the values, and fails exactly when that does not
fit in a word. -/
theorem add?_eq_some_iff {a b c : Word} :
    add? a b = some c ↔ a.toNat + b.toNat = c.toNat := by
  unfold add?
  constructor
  · intro h
    split at h
    · rename_i hlt
      cases h
      rw [UInt64.toNat_add, Nat.mod_eq_of_lt hlt]
    · cases h
  · intro h
    have hlt : a.toNat + b.toNat < UInt64.size := h ▸ c.toNat_lt
    rw [if_pos hlt, Option.some.injEq, ← UInt64.toNat_inj, UInt64.toNat_add,
      Nat.mod_eq_of_lt hlt, h]

/-- A checked product is the product of the values, and fails exactly when that does
not fit in a word. -/
theorem mul?_eq_some_iff {a b c : Word} :
    mul? a b = some c ↔ a.toNat * b.toNat = c.toNat := by
  unfold mul?
  constructor
  · intro h
    split at h
    · rename_i hlt
      cases h
      rw [UInt64.toNat_mul, Nat.mod_eq_of_lt hlt]
    · cases h
  · intro h
    have hlt : a.toNat * b.toNat < UInt64.size := h ▸ c.toNat_lt
    rw [if_pos hlt, Option.some.injEq, ← UInt64.toNat_inj, UInt64.toNat_mul,
      Nat.mod_eq_of_lt hlt, h]

end Word

namespace Size

/-- Sizes, offsets and counts are below this bound. -/
def limit : Nat := UInt32.size

/-- The sum of two sizes, if it is below `limit`. -/
def add? (a b : Nat) : Option Nat := if a + b < limit then some (a + b) else none

/-- The difference of two sizes, if it is not negative. -/
def sub? (a b : Nat) : Option Nat := if b ≤ a then some (a - b) else none

/-- The product of two sizes, if it is below `limit`. -/
def mul? (a b : Nat) : Option Nat := if a * b < limit then some (a * b) else none

theorem add?_eq_some_iff {a b c : Nat} : add? a b = some c ↔ a + b = c ∧ c < limit := by
  unfold add?
  split
  · next h => simp only [Option.some.injEq]; constructor <;> intro h' <;> omega
  · next h => simp only [reduceCtorEq, false_iff]; omega

theorem sub?_eq_some_iff {a b c : Nat} : sub? a b = some c ↔ a = c + b := by
  unfold sub?
  split
  · next h => simp only [Option.some.injEq]; omega
  · next h => simp only [reduceCtorEq, false_iff]; omega

theorem mul?_eq_some_iff {a b c : Nat} : mul? a b = some c ↔ a * b = c ∧ c < limit := by
  unfold mul?
  split
  · next h =>
    simp only [Option.some.injEq]
    constructor
    · intro hc
      exact ⟨hc, hc ▸ h⟩
    · exact fun hc => hc.1
  · next h =>
    simp only [reduceCtorEq, false_iff]
    rintro ⟨rfl, hlt⟩
    exact h hlt

end Size

/-! ### Hexadecimal -/

/-- `n` in lowercase hexadecimal after `0x`, without leading zeros. -/
def hex (n : Nat) : String := "0x" ++ String.ofList (Nat.toDigits 16 n)

/-- `n` in lowercase hexadecimal after `0x`, with leading zeros up to four digits. -/
def hex4 (n : Nat) : String :=
  let digits := Nat.toDigits 16 n
  "0x" ++ String.ofList (List.replicate (4 - digits.length) '0' ++ digits)

end Dispatch
