import Mathlib.Algebra.Ring.Nat
import Dispatch.Auth

/-!
# Signed pointers

The tag of a signed pointer and its address are apart from each other, so each can be
had back.

A key has one discriminator for each sixteen-bit number, but one tag less, since no tag is
zero.  So two of the discriminators have to share their tag, and pointers signed with one of
these pass for pointers signed with the other.  All others are told apart.

## Main definitions

* `Key.Twins` — the two discriminators that share a tag.
* `Key.KeepsApart` — what checking a pointer says about how it was signed.

## Main statements

* `Signing.toNat_sign` — a signed pointer as a number.
* `Signing.check_sign` — checking a pointer undoes signing it.
* `Word.strip_of_lt`, `Word.isSigned_of_lt` — an address is a pointer without a tag.
* `Signing.tag_eq_tag_iff` — discriminators with the same tag.
* `Key.keepsApart` — only the twins of a key are taken for each other.
-/

namespace Dispatch

namespace Word

theorem toNat_strip (v : Word) : (strip v).toNat = v.toNat % 2 ^ 48 := by
  rw [strip, UInt64.toNat_and, show (lowBits addressBits).toNat = 2 ^ 48 - 1 by decide,
    Nat.and_two_pow_sub_one_eq_mod]

theorem toNat_tagOf (v : Word) : (tagOf v).toNat = v.toNat / 2 ^ 48 := by
  have hlt := v.toNat_lt
  have hshift : (UInt64.ofNat addressBits).toNat % 64 = 48 := by decide
  rw [tagOf, UInt64.toNat_toUInt16, UInt64.toNat_shiftRight, hshift, Nat.shiftRight_eq_div_pow]
  exact Nat.mod_eq_of_lt (by omega)

/-- A word below `2 ^ 48` is its own address. -/
theorem strip_of_lt {v : Word} (h : v.toNat < 2 ^ 48) : strip v = v := by
  rw [← UInt64.toNat_inj, toNat_strip, Nat.mod_eq_of_lt h]

theorem isSigned_of_lt {v : Word} (h : v.toNat < 2 ^ 48) : isSigned v = false := by
  have htag : tagOf v = 0 := by
    rw [← UInt16.toNat_inj, toNat_tagOf, Nat.div_eq_of_lt h]
    rfl
  rw [isSigned, htag]
  rfl

end Word

namespace Signing

/-- The number of a signed pointer: its tag, and its address below. -/
theorem toNat_sign (s : Signing) (v : Word) :
    (s.sign v).toNat = s.tag.toNat * 2 ^ 48 + v.toNat % 2 ^ 48 := by
  have htag := s.tag.toNat_lt
  have hlow : v.toNat % 2 ^ 48 < 2 ^ 48 := Nat.mod_lt _ (by decide)
  have hshift : (UInt64.ofNat Word.addressBits).toNat % 64 = 48 := by decide
  rw [sign, UInt64.toNat_or, Word.toNat_strip, UInt64.toNat_shiftLeft, hshift,
    UInt16.toNat_toUInt64, Nat.or_comm, Nat.shiftLeft_eq, Nat.mod_eq_of_lt (by omega),
    ← Nat.shiftLeft_eq, ← Nat.shiftLeft_add_eq_or_of_lt hlow]

theorem strip_sign (s : Signing) (v : Word) : Word.strip (s.sign v) = Word.strip v := by
  rw [← UInt64.toNat_inj, Word.toNat_strip, Word.toNat_strip, toNat_sign]
  omega

theorem tagOf_sign (s : Signing) (v : Word) : Word.tagOf (s.sign v) = s.tag := by
  rw [← UInt16.toNat_inj, Word.toNat_tagOf, toNat_sign]
  omega

/-- Checking a signed pointer gives its address. -/
theorem check_sign (s : Signing) (v : Word) : s.check (s.sign v) = .ok (Word.strip v) := by
  rw [check, tagOf_sign, if_pos rfl, strip_sign]

theorem tag_ne_zero (s : Signing) : s.tag ≠ 0 := by
  simp only [tag]
  split
  · decide
  · assumption

/-- Without the tag that is asked for a pointer is refused. -/
theorem check_of_ne {s : Signing} {v : Word} (hne : Word.tagOf v ≠ s.tag) :
    s.check v = .error (.machine (.authFailure v s.tag)) := by
  rw [check, if_neg hne]

end Signing

/-! ### Discriminators that share a tag -/

namespace Key

/-- The discriminator that would be left without a tag, and the one whose tag it is given. -/
def Twins (k : Key) (d d' : UInt16) : Prop :=
  (d = k.salt ∧ d' = k.salt ^^^ 1) ∨ (d = k.salt ^^^ 1 ∧ d' = k.salt)

instance (k : Key) (d d' : UInt16) : Decidable (k.Twins d d') :=
  inferInstanceAs (Decidable (_ ∨ _))

theorem mixed_eq_zero_iff {k : Key} {d : UInt16} : d ^^^ k.salt = 0 ↔ d = k.salt :=
  UInt16.xor_eq_zero_iff

theorem mixed_eq_one_iff {k : Key} {d : UInt16} : d ^^^ k.salt = 1 ↔ d = k.salt ^^^ 1 := by
  constructor
  · intro heq
    rw [← heq, UInt16.xor_comm, UInt16.xor_assoc, UInt16.xor_self, UInt16.xor_zero]
  · rintro rfl
    rw [UInt16.xor_comm, ← UInt16.xor_assoc, UInt16.xor_self, UInt16.zero_xor]

theorem twins_iff {k : Key} {d d' : UInt16} : k.Twins d d' ↔
    (d ^^^ k.salt = 0 ∧ d' ^^^ k.salt = 1) ∨ (d ^^^ k.salt = 1 ∧ d' ^^^ k.salt = 0) := by
  simp only [Twins, mixed_eq_zero_iff, mixed_eq_one_iff]

end Key

/-- Of one key, no discriminators but the twins have the same tag. -/
theorem Signing.tag_eq_tag_iff {k : Key} {d d' : UInt16} :
    tag ⟨k, d⟩ = tag ⟨k, d'⟩ ↔ d = d' ∨ k.Twins d d' := by
  have hmixed : d ^^^ k.salt = d' ^^^ k.salt ↔ d = d' := UInt16.xor_left_inj k.salt
  rw [← hmixed, Key.twins_iff]
  simp only [tag]
  generalize d ^^^ k.salt = n
  generalize d' ^^^ k.salt = n'
  -- which of the two tags had to be replaced
  by_cases hn : n = 0 <;> by_cases hn' : n' = 0
  · simp [hn, hn']
  · simp [hn, hn', eq_comm]
  · simp [hn, hn']
  · simp [hn, hn']

/-- What checking a pointer says about how it was signed, if the key was `k`. -/
structure Key.KeepsApart (k : Key) : Prop where
  /-- A pointer that was signed with another discriminator is refused, unless that is the
  twin of the one it is checked with. -/
  other : ∀ d d' v, d ≠ d' → ¬ k.Twins d d' →
    Signing.check ⟨k, d'⟩ (Signing.sign ⟨k, d⟩ v) =
      .error (.machine (.authFailure (Signing.sign ⟨k, d⟩ v) (Signing.tag ⟨k, d'⟩)))
  twin : ∀ d d' v, k.Twins d d' →
    Signing.check ⟨k, d'⟩ (Signing.sign ⟨k, d⟩ v) = .ok (Word.strip v)
  /-- With the same discriminator the answer is the address. -/
  own : ∀ d v, Signing.check ⟨k, d⟩ (Signing.sign ⟨k, d⟩ v) = .ok (Word.strip v) ∧
    (Word.strip v).toNat = v.toNat % 2 ^ 48
  /-- A pointer that was not signed is refused. -/
  plain : ∀ d v, v.toNat < 2 ^ 48 →
    Signing.check ⟨k, d⟩ v = .error (.machine (.authFailure v (Signing.tag ⟨k, d⟩)))

/-- Checking tells discriminators apart, the twins of the key excepted. -/
theorem Key.keepsApart (k : Key) : k.KeepsApart where
  other d d' v hne htwins := by
    refine Signing.check_of_ne ?_
    rw [Signing.tagOf_sign, ne_eq, Signing.tag_eq_tag_iff, not_or]
    exact ⟨hne, htwins⟩
  twin d d' v htwins := by
    have htag : Signing.tag ⟨k, d⟩ = Signing.tag ⟨k, d'⟩ := Signing.tag_eq_tag_iff.mpr (.inr htwins)
    rw [Signing.check, Signing.tagOf_sign, if_pos htag, Signing.strip_sign]
  own d v := ⟨Signing.check_sign ⟨k, d⟩ v, Word.toNat_strip v⟩
  plain d v hv := by
    have htag : Word.tagOf v = 0 := by
      simpa [Word.isSigned] using Word.isSigned_of_lt hv
    refine Signing.check_of_ne ?_
    rw [htag]
    exact (Signing.tag_ne_zero _).symm

/-- The discriminators 7 and 8 of one key. -/
theorem Key.keepsApart_neighbours :
    Signing.check ⟨.ia, 8⟩ (Signing.sign ⟨.ia, 7⟩ 0x4000) =
      .error (.machine (.authFailure 0xA5A2000000004000 0xA5AD)) :=
  Key.ia.keepsApart.other 7 8 0x4000 (by decide) (by decide)

/-- The discriminator that is the salt of its key takes the tag of its neighbour, and either
of them is taken for the other. -/
theorem Key.twins_meet :
    (0xA5A5 : UInt16) ≠ 0xA5A4 ∧
      Signing.sign ⟨.ia, 0xA5A5⟩ 0x4000 = 0x1000000004000 ∧
      Signing.check ⟨.ia, 0xA5A4⟩ (Signing.sign ⟨.ia, 0xA5A5⟩ 0x4000) = .ok 0x4000 := by
  decide

end Dispatch
