import Mathlib.Algebra.Ring.Nat
import Dispatch.Machine.Native

/-!
# Packing loses nothing

The pieces of a native word lie side by side from the lowest bit up, so every
component can be cut out again.  What comes back is the component with the bits that
its scalar does not have cleared; packing that again gives the same words.

## Main definitions

* `Scalar.clip` — components cut to the widths of their scalars.
* `Piece.SideBySide` — pieces that follow each other without gap or overlap.
* `Schema.Packed` — a schema that passes its components in the words `pack` makes.

## Main results

* `NativeWord.unpack_ofValues` — one word gives its components back.
* `Schema.Packed.decode_encode`, `Schema.pack_clip` — a whole value does.
* `Schema.pack_zeros` — zeros are packed as zeros.
-/

namespace Dispatch

namespace Scalar

/-- Components cut to the widths of their scalars. -/
def clip (kinds : List Scalar) (values : List Word) : List Word :=
  List.zipWith (fun kind value => value &&& kind.mask) kinds values

theorem length_clip {kinds : List Scalar} {values : List Word}
    (h : values.length = kinds.length) : (clip kinds values).length = kinds.length := by
  simp [clip, h]

theorem clip_clip (kinds : List Scalar) (values : List Word) :
    clip kinds (clip kinds values) = clip kinds values := by
  induction kinds generalizing values with
  | nil => rfl
  | cons kind rest ih =>
    cases values with
    | nil => rfl
    | cons v vs =>
      have hrest := ih vs
      simp only [clip] at hrest
      simp only [clip, List.zipWith_cons_cons, UInt64.and_assoc, UInt64.and_self, hrest]

theorem clip_zeros (kinds : List Scalar) :
    clip kinds (List.replicate kinds.length 0) = List.replicate kinds.length 0 := by
  induction kinds with
  | nil => rfl
  | cons kind rest ih =>
    have hrest := ih
    simp only [clip] at hrest
    simp only [clip, List.length_cons, List.replicate_succ, List.zipWith_cons_cons, hrest,
      UInt64.zero_and]

theorem toNat_mask (s : Scalar) : s.mask.toNat = 2 ^ s.bits - 1 := by
  cases s <;> rfl

theorem toNat_and_mask (s : Scalar) (v : Word) : (v &&& s.mask).toNat = v.toNat % 2 ^ s.bits := by
  rw [UInt64.toNat_and, toNat_mask, Nat.and_two_pow_sub_one_eq_mod]

theorem and_mask_and_mask (s : Scalar) (v : Word) : v &&& s.mask &&& s.mask = v &&& s.mask := by
  rw [UInt64.and_assoc, UInt64.and_self]

end Scalar

namespace Piece

/-- Pieces that occupy the bits from `start` up to `stop`, each just above the one
before. -/
def SideBySide : Nat → List Piece → Nat → Prop
  | start, [], stop => start = stop
  | start, p :: rest, stop => p.shift = start ∧ SideBySide (start + p.kind.bits) rest stop

theorem SideBySide.append {start mid stop : Nat} {ps qs : List Piece}
    (h : SideBySide start ps mid) (h' : SideBySide mid qs stop) :
    SideBySide start (ps ++ qs) stop := by
  induction ps generalizing start with
  | nil =>
    cases h
    exact h'
  | cons p ps ih => exact ⟨h.1, ih h.2⟩

theorem SideBySide.le {start stop : Nat} {ps : List Piece} (h : SideBySide start ps stop) :
    start ≤ stop := by
  induction ps generalizing start with
  | nil => exact Nat.le_of_eq h
  | cons p ps ih =>
    have := ih h.2
    omega

theorem toNat_write (p : Piece) (values : List Word) (h : p.shift + p.kind.bits ≤ 64) :
    (p.write values).toNat
      = (values.getD p.component 0).toNat % 2 ^ p.kind.bits * 2 ^ p.shift := by
  have hb := p.kind.bits_pos
  have hs : (UInt64.ofNat p.shift).toNat = p.shift :=
    UInt64.toNat_ofNat_of_lt' (by simp only [UInt64.size]; omega)
  have hlt : (values.getD p.component 0).toNat % 2 ^ p.kind.bits * 2 ^ p.shift < 2 ^ 64 := by
    calc (values.getD p.component 0).toNat % 2 ^ p.kind.bits * 2 ^ p.shift
        < 2 ^ p.kind.bits * 2 ^ p.shift :=
          Nat.mul_lt_mul_of_pos_right (Nat.mod_lt _ (Nat.two_pow_pos _)) (Nat.two_pow_pos _)
      _ = 2 ^ (p.kind.bits + p.shift) := (Nat.pow_add 2 _ _).symm
      _ ≤ 2 ^ 64 := Nat.pow_le_pow_right (by omega) (by omega)
  rw [write, UInt64.toNat_shiftLeft, Scalar.toNat_and_mask, hs,
    Nat.mod_eq_of_lt (show p.shift < 64 by omega), Nat.shiftLeft_eq, Nat.mod_eq_of_lt hlt]

theorem toNat_read (p : Piece) (word : Word) (h : p.shift < 64) :
    (p.read word).toNat = word.toNat / 2 ^ p.shift % 2 ^ p.kind.bits := by
  have hs : (UInt64.ofNat p.shift).toNat = p.shift :=
    UInt64.toNat_ofNat_of_lt' (by simp only [UInt64.size]; omega)
  rw [read, Scalar.toNat_and_mask, UInt64.toNat_shiftRight, hs, Nat.mod_eq_of_lt h,
    Nat.shiftRight_eq_div_pow]

/-- Writing pieces above `start` keeps the bits below, and each piece reads back. -/
theorem read_foldl_write (values : List Word) :
    ∀ (ps : List Piece) (start stop : Nat) (word : Word), SideBySide start ps stop → stop ≤ 64 →
      word.toNat < 2 ^ start →
      (ps.foldl (fun word p => word ||| p.write values) word).toNat % 2 ^ start = word.toNat ∧
        ∀ p ∈ ps, p.read (ps.foldl (fun word p => word ||| p.write values) word)
          = values.getD p.component 0 &&& p.kind.mask := by
  intro ps
  induction ps with
  | nil =>
    intro start stop word _ _ hw
    exact ⟨Nat.mod_eq_of_lt hw, by simp⟩
  | cons p ps ih =>
    intro start stop word h hstop hw
    obtain ⟨hshift, hrest⟩ := h
    have hle := hrest.le
    have hb := p.kind.bits_pos
    have hwrite := toNat_write p values (by omega)
    rw [hshift] at hwrite
    have hmod : (values.getD p.component 0).toNat % 2 ^ p.kind.bits < 2 ^ p.kind.bits :=
      Nat.mod_lt _ (Nat.two_pow_pos _)
    have hor : (word ||| p.write values).toNat
        = word.toNat
          + 2 ^ start * ((values.getD p.component 0).toNat % 2 ^ p.kind.bits) := by
      rw [UInt64.toNat_or, hwrite, Nat.or_comm, ← Nat.shiftLeft_eq,
        ← Nat.shiftLeft_add_eq_or_of_lt hw, Nat.shiftLeft_eq, Nat.mul_comm, Nat.add_comm]
    have hlt : (word ||| p.write values).toNat < 2 ^ (start + p.kind.bits) := by
      rw [hor, Nat.pow_add]
      calc word.toNat + 2 ^ start * ((values.getD p.component 0).toNat % 2 ^ p.kind.bits)
          < 2 ^ start + 2 ^ start * ((values.getD p.component 0).toNat % 2 ^ p.kind.bits) := by
            omega
        _ = 2 ^ start * ((values.getD p.component 0).toNat % 2 ^ p.kind.bits + 1) := by
            rw [Nat.mul_add, Nat.mul_one, Nat.add_comm]
        _ ≤ 2 ^ start * 2 ^ p.kind.bits := Nat.mul_le_mul_left _ hmod
    obtain ⟨hlow, hreads⟩ := ih (start + p.kind.bits) stop _ hrest hstop hlt
    have hcut : ∀ n : Nat, n % 2 ^ (start + p.kind.bits) / 2 ^ start
        = n / 2 ^ start % 2 ^ p.kind.bits := by
      intro n
      rw [Nat.pow_add, Nat.mod_mul_right_div_self]
    simp only [List.foldl_cons]
    refine ⟨?_, ?_⟩
    · have hdvd : 2 ^ start ∣ 2 ^ (start + p.kind.bits) := Nat.pow_dvd_pow 2 (by omega)
      rw [← Nat.mod_mod_of_dvd _ hdvd, hlow, hor, Nat.add_mul_mod_self_left,
        Nat.mod_eq_of_lt hw]
    · intro q hq
      rcases List.mem_cons.mp hq with rfl | hq
      · rw [← UInt64.toNat_inj, toNat_read _ _ (by omega), Scalar.toNat_and_mask, hshift,
          ← hcut, hlow, hor, Nat.add_mul_div_left _ _ (Nat.two_pow_pos _),
          Nat.div_eq_of_lt hw, Nat.zero_add]
      · exact hreads q hq

end Piece

namespace NativeWord

/-- The pieces of the word lie side by side, from the lowest bit up. -/
def Tidy (w : NativeWord) : Prop := ∃ stop, stop ≤ 64 ∧ Piece.SideBySide 0 w.pieces stop

/-- A native word gives the components that it holds back, cut to their widths. -/
theorem unpack_ofValues {w : NativeWord} (h : w.Tidy) (values : List Word) :
    w.unpack (w.ofValues values)
      = w.pieces.map fun p => values.getD p.component 0 &&& p.kind.mask := by
  obtain ⟨stop, hstop, hside⟩ := h
  have hread := (Piece.read_foldl_write values w.pieces 0 stop 0 hside hstop (by simp)).2
  exact List.map_congr_left hread

end NativeWord

/-! ### What `pack` makes -/

/-- The word that is still open is tidy up to the bits in use. -/
def OpenWord.Tidy (w : OpenWord) : Prop :=
  w.used ≤ 64 ∧ Piece.SideBySide 0 w.word.pieces w.used

theorem OpenWord.tidy_start (next : Nat) (kind : Scalar) : (OpenWord.start next kind).Tidy :=
  ⟨kind.bits_le, rfl, Nat.zero_add _⟩

theorem OpenWord.Tidy.push {w : OpenWord} (h : w.Tidy) (next : Nat) {kind : Scalar}
    (hfit : w.used + kind.bits ≤ 64) : (w.push next kind).Tidy :=
  ⟨hfit, h.2.append ⟨rfl, rfl⟩⟩

theorem OpenWord.Tidy.word {w : OpenWord} (h : w.Tidy) : w.word.Tidy := ⟨_, h⟩

/-- What holds of every word that packing keeps open holds of every word that it makes: a
component that shares its word with no other is a word just opened. -/
theorem forall_packFrom {Q : OpenWord → Prop} {P : NativeWord → Prop}
    (hstart : ∀ next kind, Q (OpenWord.start next kind))
    (hpush : ∀ w next kind, Q w → w.used + kind.bits ≤ 64 → Q (w.push next kind))
    (hword : ∀ w, Q w → P w.word) :
    ∀ (kinds : List Scalar) (next : Nat) (last : Option OpenWord),
      (∀ w ∈ last, Q w) → ∀ w ∈ packFrom next last kinds, P w := by
  have hlast : ∀ last : Option OpenWord, (∀ w ∈ last, Q w) →
      ∀ w ∈ (last.map OpenWord.word).toList, P w := by
    intro last hq w hw
    cases last with
    | none => simp at hw
    | some o =>
      simp only [Option.map_some, Option.toList_some, List.mem_singleton] at hw
      rw [hw]
      exact hword o (hq o rfl)
  intro kinds
  induction kinds with
  | nil => intro next last hq; exact hlast last hq
  | cons kind kinds ih =>
    intro next last hq w hw
    have hopen : ∀ o ∈ some (OpenWord.start next kind), Q o := by
      intro o ho
      cases ho
      exact hstart next kind
    unfold packFrom at hw
    split at hw
    · cases last with
      | none => exact ih _ _ hopen w hw
      | some o =>
        simp only at hw
        split at hw
        · next hfit =>
          apply ih _ _ _ w hw
          intro o' ho'
          cases ho'
          exact hpush o next kind (hq o rfl) hfit
        · rcases List.mem_cons.mp hw with rfl | hw
          · exact hword o (hq o rfl)
          · exact ih _ _ hopen w hw
    · rcases List.mem_append.mp hw with hw | hw
      · exact hlast last hq w hw
      · rcases List.mem_cons.mp hw with rfl | hw
        · exact hword _ (hstart next kind)
        · exact ih _ none (by simp) w hw

/-- Every word that packing makes is tidy. -/
theorem tidy_packFrom : ∀ (kinds : List Scalar) (next : Nat) (last : Option OpenWord),
    (∀ w ∈ last, w.Tidy) → ∀ w ∈ packFrom next last kinds, w.Tidy :=
  forall_packFrom OpenWord.tidy_start (fun _ next _ hw hfit => hw.push next hfit)
    fun _ hw => hw.word

/-- Packing keeps the components in order, each once. -/
theorem pieces_packFrom : ∀ (kinds : List Scalar) (next : Nat) (last : Option OpenWord),
    ((packFrom next last kinds).flatMap NativeWord.pieces).map (fun p => (p.kind, p.component))
      = ((last.map OpenWord.word).toList.flatMap NativeWord.pieces).map
          (fun p => (p.kind, p.component))
        ++ kinds.zipIdx next := by
  intro kinds
  induction kinds with
  | nil => intro next last; simp [packFrom]
  | cons kind kinds ih =>
    intro next last
    unfold packFrom
    split
    · cases last with
      | none => simp [ih, OpenWord.start]
      | some o =>
        simp only
        split
        · simp [ih, OpenWord.push]
        · simp [ih, OpenWord.start]
    · cases last with
      | none => simp [ih]
      | some o => simp [ih]

namespace Schema

/-- The schema passes its components in the words that packing makes. -/
def Packed (s : Schema) : Prop := s = .direct s.components (pack s.components)

variable {s : Schema} {values native : List Word}

theorem packed_ofComponents {components : List Scalar} {limit : Nat}
    (h : (ofComponents components limit).isIndirect = false) :
    (ofComponents components limit).Packed := by
  simp only [ofComponents] at *
  split at h
  · next hle =>
    simp only [hle, if_true]
    rfl
  · simp [isIndirect] at h

theorem Packed.nativeKinds (h : s.Packed) :
    s.nativeKinds = (pack s.components).map NativeWord.kind := by
  rw [h]
  rfl

theorem Packed.isIndirect (h : s.Packed) : s.isIndirect = false := by
  rw [h]
  rfl

/-- The native words of a value. -/
def pack (s : Schema) (values : List Word) : List Word :=
  (Dispatch.pack s.components).map fun w => w.ofValues values

theorem Packed.length_pack (h : s.Packed) (values : List Word) :
    (s.pack values).length = s.nativeKinds.length := by
  rw [h.nativeKinds]
  simp [pack]

theorem Packed.words (h : s.Packed) : s.words = .ok (Dispatch.pack s.components) := by
  rw [h]
  rfl

theorem Packed.toNative (h : s.Packed) (hv : values.length = s.components.length) :
    s.toNative values = .ok (s.pack values) := by
  simp only [Schema.toNative, h.words, bind, Except.bind, hv, if_true, pure, Except.pure, pack]

theorem Packed.fromNative (h : s.Packed)
    (hn : native.length = (Dispatch.pack s.components).length) :
    s.fromNative native
      = .ok (((Dispatch.pack s.components).zip native).flatMap
          fun (w, word) => w.unpack word) := by
  simp only [Schema.fromNative, h.words, bind, Except.bind, hn, if_true, pure, Except.pure]

theorem Packed.encode (h : s.Packed) (hv : values.length = s.components.length) :
    s.encode values = .ok (s.pack values) := by
  simp only [Schema.encode, h.isIndirect, hv, Bool.false_or, bne_self_eq_false,
    Bool.false_eq_true, if_false, h.toNative hv]

theorem Packed.decode (h : s.Packed) (hn : native.length = s.nativeKinds.length) (index : Nat) :
    s.decode native index
      = .ok (((Dispatch.pack s.components).zip native).flatMap
          fun (w, word) => w.unpack word) := by
  have hlen : native.length = (Dispatch.pack s.components).length := by
    rw [hn, h.nativeKinds, List.length_map]
  simp only [Schema.decode, h.isIndirect, hn, bne_self_eq_false, Bool.or_self,
    Bool.false_eq_true, if_false, h.fromNative hlen]

theorem Packed.decode_error (h : s.Packed) (hn : native.length ≠ s.nativeKinds.length)
    (index : Nat) : ∃ f, s.decode native index = .error f := by
  simp only [Schema.decode, h.isIndirect, bne_iff_ne.mpr hn, Bool.false_or, if_true]
  exact ⟨_, rfl⟩

theorem pieces_pack (components : List Scalar) :
    ((Dispatch.pack components).flatMap NativeWord.pieces).map (fun p => (p.kind, p.component))
      = components.zipIdx := by
  have h := pieces_packFrom components 0 none
  simpa [Dispatch.pack] using h

theorem tidy_pack (components : List Scalar) : ∀ w ∈ Dispatch.pack components, w.Tidy :=
  tidy_packFrom components 0 none (by simp)

/-- The number of components that come out of native words does not depend on them. -/
theorem Packed.length_decode (h : s.Packed) {words : List Word} {index : Nat}
    (hd : s.decode native index = .ok words) : words.length = s.components.length := by
  by_cases hn : native.length = s.nativeKinds.length
  · rw [h.decode hn, Except.ok.injEq] at hd
    have hlen : (Dispatch.pack s.components).length = native.length := by
      rw [hn, h.nativeKinds, List.length_map]
    have hflat : ∀ (ws : List NativeWord) (ns : List Word), ws.length = ns.length →
        ((ws.zip ns).flatMap fun (w, word) => w.unpack word).length
          = (ws.flatMap NativeWord.pieces).length := by
      intro ws
      induction ws with
      | nil => intro ns _; simp
      | cons w ws ih =>
        intro ns hns
        cases ns with
        | nil => simp at hns
        | cons n ns =>
          have := ih ns (by simpa using hns)
          rw [List.zip_cons_cons, List.flatMap_cons, List.length_append, this,
            List.flatMap_cons, List.length_append]
          simp only [NativeWord.unpack, List.length_map]
    have hpieces := congrArg List.length (pieces_pack s.components)
    rw [← hd, hflat _ _ hlen]
    simpa using hpieces
  · obtain ⟨f, hf⟩ := h.decode_error hn index
    rw [hf] at hd
    cases hd

theorem unpack_pack (components : List Scalar) {values : List Word}
    (hv : values.length = components.length) :
    ((Dispatch.pack components).zip
        ((Dispatch.pack components).map fun w => w.ofValues values)).flatMap
        (fun (w, word) => w.unpack word)
      = Scalar.clip components values := by
  have hzip : ∀ ws : List NativeWord, (∀ w ∈ ws, w.Tidy) →
      (ws.zip (ws.map fun w => w.ofValues values)).flatMap (fun (w, word) => w.unpack word)
        = ((ws.flatMap NativeWord.pieces).map fun p => (p.kind, p.component)).map
            fun kp => values.getD kp.2 0 &&& kp.1.mask := by
    intro ws
    induction ws with
    | nil => intro _; rfl
    | cons w ws ih =>
      intro hw
      simp only [List.map_cons, List.zip_cons_cons, List.flatMap_cons, List.map_append,
        ih fun w' hw' => hw w' (List.mem_cons_of_mem _ hw'),
        NativeWord.unpack_ofValues (hw w List.mem_cons_self), List.map_map]
      rfl
  rw [hzip _ (tidy_pack components), pieces_pack]
  apply List.ext_getElem
  · simp [Scalar.clip, hv]
  · intro i h₁ h₂
    simp only [List.length_map, List.length_zipIdx] at h₁
    have hi : i < values.length := by omega
    simp [Scalar.clip, List.getD_eq_getElem?_getD, hi]

/-- A packed value unpacks to its components, cut to their widths. -/
theorem Packed.decode_encode (h : s.Packed) (hv : values.length = s.components.length)
    (index : Nat) : s.decode (s.pack values) index = .ok (Scalar.clip s.components values) := by
  rw [h.decode (h.length_pack values), Schema.pack, unpack_pack s.components hv]

/-- Cutting the components to their widths first changes nothing. -/
theorem pack_clip (s : Schema) (hv : values.length = s.components.length) :
    s.pack (Scalar.clip s.components values) = s.pack values := by
  apply List.map_congr_left
  intro w hw
  have hwrite : ∀ p ∈ w.pieces,
      p.write (Scalar.clip s.components values) = p.write values := by
    intro p hp
    have hmem : (p.kind, p.component) ∈ s.components.zipIdx := by
      rw [← pieces_pack]
      exact List.mem_map.mpr ⟨p, List.mem_flatMap.mpr ⟨w, hw, hp⟩, rfl⟩
    obtain ⟨hlt, hkind⟩ := List.mem_zipIdx' hmem
    have hi : p.component < values.length := by omega
    have hclip : (Scalar.clip s.components values).getD p.component 0
        = values.getD p.component 0 &&& p.kind.mask := by
      have hz : p.component < (Scalar.clip s.components values).length := by
        rw [Scalar.length_clip hv]
        exact hlt
      rw [List.getD_eq_getElem?_getD, List.getElem?_eq_getElem hz, List.getD_eq_getElem?_getD,
        List.getElem?_eq_getElem hi, hkind]
      simp only [Option.getD_some, Scalar.clip, List.getElem_zipWith]
    rw [Piece.write, Piece.write, hclip, Scalar.and_mask_and_mask]
  have hfold : ∀ (ps : List Piece) (word : Word),
      (∀ p ∈ ps, p.write (Scalar.clip s.components values) = p.write values) →
      ps.foldl (fun word p => word ||| p.write (Scalar.clip s.components values)) word
        = ps.foldl (fun word p => word ||| p.write values) word := by
    intro ps
    induction ps with
    | nil => intro _ _; rfl
    | cons p ps ih =>
      intro word h
      simp only [List.foldl_cons, h p List.mem_cons_self]
      exact ih _ fun q hq => h q (List.mem_cons_of_mem _ hq)
  exact hfold w.pieces 0 hwrite

/-- Zeros are packed as zeros. -/
theorem pack_zeros (s : Schema) (h : s.Packed) (count : Nat) :
    s.pack (List.replicate count 0) = List.replicate s.nativeKinds.length 0 := by
  have hwrite : ∀ p : Piece, p.write (List.replicate count 0) = 0 := by
    intro p
    have hget : (List.replicate count (0 : Word)).getD p.component 0 = 0 := by
      rw [List.getD_eq_getElem?_getD, List.getElem?_replicate]
      split <;> rfl
    rw [Piece.write, hget, UInt64.zero_and, UInt64.zero_shiftLeft]
  have hword : ∀ w : NativeWord, w.ofValues (List.replicate count 0) = 0 := by
    intro w
    unfold NativeWord.ofValues
    induction w.pieces with
    | nil => rfl
    | cons p ps ih =>
      rw [List.foldl_cons, hwrite, UInt64.or_self]
      exact ih
  rw [pack, h.nativeKinds, List.length_map]
  simp only [hword, List.map_const']

/-- Only a value without components has no native words. -/
theorem Packed.nativeKinds_eq_nil (h : s.Packed) : s.nativeKinds = [] ↔ s.components = [] := by
  rw [h.nativeKinds, List.map_eq_nil_iff]
  constructor
  · intro hnil
    have hpieces := pieces_pack s.components
    rw [hnil, List.flatMap_nil, List.map_nil] at hpieces
    have hlen := congrArg List.length hpieces
    rw [List.length_zipIdx] at hlen
    exact List.eq_nil_of_length_eq_zero hlen.symm
  · intro hnil
    rw [hnil]
    rfl

end Schema

end Dispatch
