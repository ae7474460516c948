import Mathlib.Data.Nat.Init
import Mathlib.Tactic.Set
import Dispatch.Proofs.Packing

/-!
# Packing is a bijection on the bits in use

A piece holds a range of the bits of its native word.  The ranges of one word have no
bit in common and every component has one, so the components and the bits that some
piece holds determine each other: unpacking what was packed gives the components cut to
their widths, and packing what was unpacked gives the native words with every other bit
cleared.

## Main definitions

* `Piece.Holds`, `NativeWord.Holds` — the bits of a native word that are in use.
* `NativeWord.trim` — a native word with every other bit cleared.
* `Arranged` — how packing lays components out in native words.

## Main results

* `arranged_pack` — packing lays them out so.
* `Schema.ofComponents_lossless` — packing and unpacking undo each other.
-/

namespace Dispatch

/-! ### The bits in use -/

/-- The piece occupies this bit of its word. -/
def Piece.Holds (p : Piece) (bit : Nat) : Prop := p.shift ≤ bit ∧ bit < p.shift + p.kind.bits

instance (p : Piece) (bit : Nat) : Decidable (p.Holds bit) :=
  inferInstanceAs (Decidable (_ ∧ _))

namespace NativeWord

/-- Some piece occupies this bit of the word. -/
def Holds (w : NativeWord) (bit : Nat) : Prop := ∃ p ∈ w.pieces, p.Holds bit

instance (w : NativeWord) (bit : Nat) : Decidable (w.Holds bit) :=
  inferInstanceAs (Decidable (∃ p ∈ w.pieces, p.Holds bit))

/-- The word with every bit outside the pieces cleared. -/
def trim (w : NativeWord) (word : Word) : Word :=
  UInt64.ofNat (Nat.ofBits fun bit : Fin 64 => decide (w.Holds bit) && word.toNat.testBit bit)

/-- The word is a component of its own, or an integer made of several. -/
def KindFits (w : NativeWord) : Prop :=
  (∃ p, w.pieces = [p] ∧ w.kind = p.kind) ∨ (2 ≤ w.pieces.length ∧ w.kind = .i64)

end NativeWord

/-- How native words hold components. -/
structure Arranged (components : List Scalar) (words : List NativeWord) : Prop where
  /-- Every component is in exactly one piece, and the pieces are in component order. -/
  order : (words.flatMap NativeWord.pieces).map Piece.component = List.range components.length
  /-- A piece has its component's kind, and thus its width. -/
  kinds : ∀ w ∈ words, ∀ p ∈ w.pieces, components[p.component]? = some p.kind
  /-- The pieces of one word have no bit in common. -/
  apart : ∀ w ∈ words, w.pieces.Pairwise fun p q => ∀ bit, ¬ (p.Holds bit ∧ q.Holds bit)
  within : ∀ w ∈ words, ∀ bit, w.Holds bit → bit < 64
  /-- Several pieces make a plain integer; a single one keeps its kind. -/
  kind : ∀ w ∈ words, w.KindFits

/-! ### How packing arranges components -/

theorem OpenWord.kindFits_push {w : OpenWord} (h : w.word.KindFits) (next : Nat)
    (kind : Scalar) : (w.push next kind).word.KindFits := by
  right
  have hpieces : w.word.pieces.length ≠ 0 := by
    rcases h with ⟨p, hp, -⟩ | ⟨hlen, -⟩
    · simp [hp]
    · omega
  simp only [OpenWord.push, List.length_append, List.length_singleton, and_true]
  omega

theorem kindFits_pack (components : List Scalar) : ∀ w ∈ pack components, w.KindFits :=
  forall_packFrom (Q := fun w => w.word.KindFits)
    (fun _ _ => .inl ⟨_, rfl, rfl⟩) (fun _ next kind hw _ => OpenWord.kindFits_push hw next kind)
    (fun _ hw => hw) components 0 none (by simp)

namespace Piece.SideBySide

/-- Every bit of pieces that lie side by side is between the ends. -/
theorem holds {start stop : Nat} {ps : List Piece} (h : SideBySide start ps stop) :
    ∀ p ∈ ps, ∀ bit, p.Holds bit → start ≤ bit ∧ bit < stop := by
  induction ps generalizing start with
  | nil => simp
  | cons q ps ih =>
    obtain ⟨hshift, hrest⟩ := h
    intro p hp bit hbit
    rcases List.mem_cons.mp hp with rfl | hp
    · have hle := hrest.le
      simp only [Piece.Holds] at hbit
      omega
    · have := ih hrest p hp bit hbit
      omega

/-- Pieces that lie side by side have no bit in common. -/
theorem pairwise {start stop : Nat} {ps : List Piece} (h : SideBySide start ps stop) :
    ps.Pairwise fun p q => ∀ bit, ¬ (p.Holds bit ∧ q.Holds bit) := by
  induction ps generalizing start with
  | nil => exact List.Pairwise.nil
  | cons p ps ih =>
    obtain ⟨hshift, hrest⟩ := h
    refine List.pairwise_cons.mpr ⟨?_, ih hrest⟩
    intro q hq bit hbit
    have hlow := hbit.1.2
    have := hrest.holds q hq bit hbit.2
    omega

end Piece.SideBySide

theorem arranged_pack (components : List Scalar) : Arranged components (pack components) where
  order := by
    have h := congrArg (List.map Prod.snd) (Schema.pieces_pack components)
    simpa [Function.comp_def, List.range_eq_range'] using h
  kinds := by
    intro w hw p hp
    have hmem : (p.kind, p.component) ∈ components.zipIdx := by
      rw [← Schema.pieces_pack]
      exact List.mem_map.mpr ⟨p, List.mem_flatMap.mpr ⟨w, hw, hp⟩, rfl⟩
    simpa [List.mem_zipIdx_iff_getElem?] using hmem
  apart := by
    intro w hw
    obtain ⟨stop, -, hside⟩ := Schema.tidy_pack components w hw
    exact hside.pairwise
  within := by
    intro w hw bit hbit
    obtain ⟨stop, hstop, hside⟩ := Schema.tidy_pack components w hw
    obtain ⟨p, hp, hbit⟩ := hbit
    have := hside.holds p hp bit hbit
    omega
  kind := kindFits_pack components

/-! ### Packing what was unpacked -/

theorem Piece.testBit_write {p : Piece} (h : p.shift + p.kind.bits ≤ 64) (values : List Word)
    (bit : Nat) :
    (p.write values).toNat.testBit bit
      = (decide (p.Holds bit) && (values.getD p.component 0).toNat.testBit (bit - p.shift)) := by
  rw [p.toNat_write values h, Nat.testBit_mul_two_pow, Nat.testBit_mod_two_pow]
  by_cases hlow : p.shift ≤ bit
  · have hiff : bit - p.shift < p.kind.bits ↔ bit < p.shift + p.kind.bits := by omega
    simp [Piece.Holds, hlow, hiff]
  · simp [Piece.Holds, hlow]

theorem Piece.testBit_read {p : Piece} (h : p.shift < 64) (word : Word) (bit : Nat) :
    (p.read word).toNat.testBit bit
      = (decide (bit < p.kind.bits) && word.toNat.testBit (p.shift + bit)) := by
  rw [p.toNat_read word h, Nat.testBit_mod_two_pow, Nat.testBit_div_two_pow, Nat.add_comm]

namespace NativeWord

theorem testBit_ofValues (w : NativeWord) (values : List Word) (bit : Nat) :
    (w.ofValues values).toNat.testBit bit
      = w.pieces.any fun p => (p.write values).toNat.testBit bit := by
  have hfold : ∀ (ps : List Piece) (word : Word),
      (ps.foldl (fun word p => word ||| p.write values) word).toNat.testBit bit
        = (word.toNat.testBit bit || ps.any fun p => (p.write values).toNat.testBit bit) := by
    intro ps
    induction ps with
    | nil => simp
    | cons p ps ih =>
      intro word
      simp [ih, Bool.or_assoc]
  simpa [ofValues] using hfold w.pieces 0

theorem testBit_trim (w : NativeWord) (word : Word) {bit : Nat} (h : bit < 64) :
    (w.trim word).toNat.testBit bit = (decide (w.Holds bit) && word.toNat.testBit bit) := by
  rw [trim, UInt64.toNat_ofNat_of_lt' (Nat.ofBits_lt_two_pow _), Nat.testBit_ofBits_lt _ _ h]

/-- Packing the components that were read from a word gives the word, trimmed. -/
theorem ofValues_eq_trim {w : NativeWord} {word : Word} {values : List Word}
    (hwithin : ∀ p ∈ w.pieces, p.shift + p.kind.bits ≤ 64)
    (hread : ∀ p ∈ w.pieces, values.getD p.component 0 = p.read word) :
    w.ofValues values = w.trim word := by
  apply UInt64.eq_of_toBitVec_eq
  apply BitVec.eq_of_getLsbD_eq
  intro bit hbit
  have hpiece : ∀ p ∈ w.pieces, (p.write values).toNat.testBit bit
      = (decide (p.Holds bit) && word.toNat.testBit bit) := by
    intro p hp
    have hpos := p.kind.bits_pos
    have hle := hwithin p hp
    rw [Piece.testBit_write hle, hread p hp, Piece.testBit_read (by omega)]
    by_cases hold : p.Holds bit
    · obtain ⟨hlow, hhigh⟩ := hold
      have hin : bit - p.shift < p.kind.bits := by omega
      have hsum : p.shift + (bit - p.shift) = bit := by omega
      simp [hin, hsum]
    · simp [hold]
  have hbits : (w.ofValues values).toNat.testBit bit = (w.trim word).toNat.testBit bit := by
    rw [testBit_ofValues, testBit_trim w word hbit, Bool.eq_iff_iff, List.any_eq_true,
      Bool.and_eq_true, decide_eq_true_eq]
    constructor
    · rintro ⟨p, hp, hset⟩
      rw [hpiece p hp, Bool.and_eq_true, decide_eq_true_eq] at hset
      exact ⟨⟨p, hp, hset.1⟩, hset.2⟩
    · rintro ⟨⟨p, hp, hold⟩, hset⟩
      exact ⟨p, hp, by simp [hpiece p hp, hold, hset]⟩
  exact hbits

end NativeWord

/-- Where every component has a piece of its own, in order, the component read from a
piece is found at its position. -/
theorem Arranged.getD_unpack {components : List Scalar} {words : List NativeWord}
    (h : Arranged components words) {native : List Word} (hn : native.length = words.length)
    {w : NativeWord} {word : Word} (hw : (w, word) ∈ words.zip native) {p : Piece}
    (hp : p ∈ w.pieces) :
    ((words.zip native).flatMap fun (w, word) => w.unpack word).getD p.component 0
      = p.read word := by
  -- the pieces, each with the word it is read from, in the order of the components
  set sites := (words.zip native).flatMap fun (w, word) => w.pieces.map fun p => (p, word)
    with hsites
  have hvalues : ((words.zip native).flatMap fun (w, word) => w.unpack word)
      = sites.map fun site => site.1.read site.2 := by
    simp [hsites, List.map_flatMap, NativeWord.unpack, Function.comp_def]
  have hfirst : sites.map Prod.fst = words.flatMap NativeWord.pieces := by
    have hzip : (words.zip native).map Prod.fst = words := List.map_fst_zip (by omega)
    conv => rhs; rw [← hzip]
    simp [hsites, List.map_flatMap, List.flatMap_map, Function.comp_def]
  have hrange : sites.map (fun site => site.1.component) = List.range components.length := by
    rw [← h.order, ← hfirst, List.map_map]
    rfl
  have hmem : (p, word) ∈ sites :=
    List.mem_flatMap.mpr ⟨(w, word), hw, List.mem_map.mpr ⟨p, hp, rfl⟩⟩
  obtain ⟨i, hi, hsite⟩ := List.getElem_of_mem hmem
  have hcomponent : p.component = i := by
    have hget : (sites.map fun site => site.1.component)[i]? = some p.component := by
      simp [hi, hsite]
    rw [hrange] at hget
    obtain ⟨_, heq⟩ := List.getElem?_eq_some_iff.mp hget
    simpa using heq.symm
  rw [hvalues, hcomponent, List.getD_eq_getElem?_getD]
  simp [hi, hsite]

namespace Schema

/-- Packing what was unpacked gives the native words, each with the bits outside its
pieces cleared. -/
theorem Packed.toNative_fromNative {s : Schema} (h : s.Packed) {native : List Word}
    (hn : native.length = (Dispatch.pack s.components).length) :
    ∃ values, s.fromNative native = .ok values ∧
      s.toNative values
        = .ok (List.zipWith NativeWord.trim (Dispatch.pack s.components) native) := by
  have harr := arranged_pack s.components
  refine ⟨_, h.fromNative hn, ?_⟩
  set values := ((Dispatch.pack s.components).zip native).flatMap
    fun (w, word) => w.unpack word with hvalues
  have hdecode : s.decode native 0 = .ok values :=
    h.decode (by rw [hn, h.nativeKinds, List.length_map]) 0
  have hlen : values.length = s.components.length := h.length_decode hdecode
  rw [h.toNative hlen, pack]
  congr 1
  apply List.ext_getElem
  · simp [hn]
  · intro i hi hi'
    simp only [List.length_map] at hi
    simp only [List.getElem_map, List.getElem_zipWith]
    have hw : (Dispatch.pack s.components)[i] ∈ Dispatch.pack s.components :=
      List.getElem_mem hi
    have hzip : ((Dispatch.pack s.components)[i], native[i])
        ∈ (Dispatch.pack s.components).zip native := by
      have hlt : i < ((Dispatch.pack s.components).zip native).length := by simp [hi, hn]
      have := List.getElem_mem hlt
      rwa [List.getElem_zip] at this
    apply NativeWord.ofValues_eq_trim
    · intro p hp
      have hpos := p.kind.bits_pos
      have hlast : p.Holds (p.shift + p.kind.bits - 1) := ⟨by omega, by omega⟩
      have := harr.within _ hw _ ⟨p, hp, hlast⟩
      omega
    · intro p hp
      exact harr.getD_unpack hn hzip hp

/-- Unpacking what was packed gives the components, cut to their widths. -/
theorem Packed.fromNative_toNative {s : Schema} (h : s.Packed) {values : List Word}
    (hv : values.length = s.components.length) :
    ∃ native, s.toNative values = .ok native ∧
      s.fromNative native = .ok (Scalar.clip s.components values) := by
  refine ⟨s.pack values, h.toNative hv, ?_⟩
  rw [h.fromNative (by simp [pack]), Schema.pack, unpack_pack s.components hv]

/-- **Packing is a lossless bijection on the bits in use.**  Components are passed in
registers exactly when they take no more native words than the target allows; each of
these words then holds its pieces apart, every component has one piece, in order, and
packing and unpacking undo each other up to the bits that nothing holds.  Neither
fails on lists of the right length. -/
theorem ofComponents_lossless (components : List Scalar) (maxDirectWords : Nat) :
    ((ofComponents components maxDirectWords).isIndirect = false
        ↔ (Dispatch.pack components).length ≤ maxDirectWords) ∧
      ∀ kinds words, ofComponents components maxDirectWords = .direct kinds words →
        kinds = components ∧ words = Dispatch.pack components ∧ Arranged components words ∧
        (∀ values : List Word, values.length = components.length →
          ∃ native, (ofComponents components maxDirectWords).toNative values = .ok native ∧
            (ofComponents components maxDirectWords).fromNative native
              = .ok (Scalar.clip components values)) ∧
        (∀ native : List Word, native.length = words.length →
          ∃ values, (ofComponents components maxDirectWords).fromNative native = .ok values ∧
            (ofComponents components maxDirectWords).toNative values
              = .ok (List.zipWith NativeWord.trim words native)) := by
  constructor
  · simp only [ofComponents]
    split <;> simp_all [isIndirect]
  · intro kinds words hdirect
    have hpacked : (ofComponents components maxDirectWords).Packed :=
      packed_ofComponents (by rw [hdirect]; rfl)
    have hkinds : kinds = components := by
      simp only [ofComponents] at hdirect
      split at hdirect
      · exact (Schema.direct.inj hdirect).1.symm
      · cases hdirect
    subst hkinds
    have hwords : words = Dispatch.pack kinds := by
      have heq := hpacked
      rw [hdirect] at heq
      exact (Schema.direct.inj heq).2
    subst hwords
    rw [hdirect] at hpacked ⊢
    exact ⟨rfl, rfl, arranged_pack kinds, fun values hv => hpacked.fromNative_toNative hv,
      fun native hn => hpacked.toNative_fromNative hn⟩

/-- A byte and two halves share a word, in which the top bits are free; the double in
between has a word of its own. -/
theorem lossless_byte_halves_double :
    (∃ native, (ofComponents [.i8, .i16, .i32, .f64, .i8] 3).toNative [0x1ff, 2, 3, 4, 5]
        = .ok native ∧
      (ofComponents [.i8, .i16, .i32, .f64, .i8] 3).fromNative native
        = .ok [0xff, 2, 3, 4, 5]) ∧
      ∃ values, (ofComponents [.i8, .i16, .i32, .f64, .i8] 3).fromNative
          [0xffffffffffffffff, 6, 0x107] = .ok values ∧
        (ofComponents [.i8, .i16, .i32, .f64, .i8] 3).toNative values
          = .ok [0xffffffffffffff, 6, 7] := by
  have h := (ofComponents_lossless [.i8, .i16, .i32, .f64, .i8] 3).2 _ _ rfl
  obtain ⟨values, hfrom, hto⟩ := h.2.2.2.2 [0xffffffffffffffff, 6, 0x107] rfl
  have htrim : List.zipWith NativeWord.trim (Dispatch.pack [.i8, .i16, .i32, .f64, .i8])
      [0xffffffffffffffff, 6, 0x107] = [0xffffffffffffff, 6, 7] := by decide +kernel
  rw [htrim] at hto
  exact ⟨h.2.2.2.1 [0x1ff, 2, 3, 4, 5] rfl, values, hfrom, hto⟩

end Schema

end Dispatch
