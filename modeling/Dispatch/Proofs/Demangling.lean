import Dispatch.Proofs.Mangling
import Dispatch.Symbol.Demangle

/-!
# Reading symbols back

An escaped identifier spells bytes: a point stands before the two digits of a byte, and
every other character stands for itself.  What can be read is described by a relation
between texts and bytes, which says nothing about how the reading is done.  What is written
for an identifier spells it, so a symbol of a thunk, of a descriptor or of a class can be
described again, whatever the names in it are.

The digits of an escape should be hexadecimal.  A reader of numbers also takes a sign
before the last one, so some texts are read that nothing is ever written as.

## Main definitions

* `Symbol.HexPair`, `Symbol.SignedPair` — what the two places after a point may hold.
* `Symbol.Spells` — a text spells bytes.

## Main results

* `Symbol.unescape_eq_some_iff` — exactly the identifiers that a text spells are read.
* `Symbol.unescape_escape` — what is written for an identifier is read as it.
* `demangle_ofParts` — the description of a symbol with known parts.
* `demangle_mangled` — symbols are described by the names that they were made of.
* `unescape_grammar` — what is read, and where that is more than it should be.
-/

namespace Dispatch

namespace Symbol

/-! ### Spelling -/

/-- The character is the hexadecimal digit, in either case, of a number below sixteen. -/
def IsHexDigit (c : Char) (n : Nat) : Prop :=
  "0123456789abcdef".toList[n]? = some c ∨ "0123456789ABCDEF".toList[n]? = some c

instance (c : Char) (n : Nat) : Decidable (IsHexDigit c n) :=
  inferInstanceAs (Decidable (_ ∨ _))

/-- Two hexadecimal digits denote a byte. -/
def HexPair (high low : Char) (b : UInt8) : Prop :=
  ∃ h l, IsHexDigit high h ∧ IsHexDigit low l ∧ b.toNat = 16 * h + l

/-- A plus sign and a hexadecimal digit denote a byte. -/
def SignedPair (high low : Char) (b : UInt8) : Prop := high = '+' ∧ IsHexDigit low b.toNat

/-- What is taken for the digits of an escape. -/
def ReadPair (high low : Char) (b : UInt8) : Prop := HexPair high low b ∨ SignedPair high low b

/-- A text spells bytes, when `pair` says which two characters after a point denote which
byte.  All other characters spell their UTF-8 bytes. -/
inductive Spells (pair : Char → Char → UInt8 → Prop) : List Char → List UInt8 → Prop
  | nil : Spells pair [] []
  | plain {c : Char} {cs : List Char} {bs : List UInt8} (hc : c ≠ '.') (h : Spells pair cs bs) :
    Spells pair (c :: cs) (String.utf8EncodeChar c ++ bs)
  | escape {high low : Char} {b : UInt8} {cs : List Char} {bs : List UInt8}
    (hb : pair high low b) (h : Spells pair cs bs) : Spells pair ('.' :: high :: low :: cs) (b :: bs)

variable {pair pair' : Char → Char → UInt8 → Prop} {c high low : Char} {b : UInt8}
  {cs : List Char} {bs : List UInt8} {s : String}

theorem Spells.mono (h : Spells pair cs bs)
    (hpair : ∀ high low b, pair high low b → pair' high low b) : Spells pair' cs bs := by
  induction h with
  | nil => exact .nil
  | plain hc _ ih => exact .plain hc ih
  | escape hb _ ih => exact .escape (hpair _ _ _ hb) ih

theorem spells_plain (hc : c ≠ '.') :
    Spells pair (c :: cs) bs ↔
      ∃ bs', Spells pair cs bs' ∧ bs = String.utf8EncodeChar c ++ bs' := by
  constructor
  · intro h
    cases h with
    | plain _ h => exact ⟨_, h, rfl⟩
    | escape => exact absurd rfl hc
  · rintro ⟨bs', h, rfl⟩
    exact .plain hc h

theorem spells_point :
    Spells pair ('.' :: high :: low :: cs) bs ↔
      ∃ b bs', pair high low b ∧ Spells pair cs bs' ∧ bs = b :: bs' := by
  constructor
  · intro h
    cases h with
    | plain hc => exact absurd rfl hc
    | escape hb h => exact ⟨_, _, hb, h, rfl⟩
  · rintro ⟨b, bs', hb, h, rfl⟩
    exact .escape hb h

theorem IsHexDigit.lt {n : Nat} (h : IsHexDigit c n) : n < 16 := by
  rcases h with h | h
  · exact (List.getElem?_eq_some_iff.mp h).1
  · exact (List.getElem?_eq_some_iff.mp h).1

theorem IsHexDigit.notMem {n : Nat} (h : IsHexDigit c n) : c ∉ ['.', '+'] := by
  have hall : ['.', '+'].all (fun c => (List.range 16).all fun n => !decide (IsHexDigit c n)) =
      true := by decide +kernel
  intro hc
  have hnone := List.all_eq_true.mp (List.all_eq_true.mp hall c hc) n (List.mem_range.mpr h.lt)
  rw [decide_eq_true h] at hnone
  cases hnone

/-- The texts without a sign are those in which every escape has two digits. -/
theorem spells_hexPair_iff :
    Spells HexPair cs bs ↔ Spells ReadPair cs bs ∧ ¬ ['.', '+'] <:+: cs := by
  constructor
  · intro h
    refine ⟨h.mono fun _ _ _ => .inl, ?_⟩
    induction h with
    | nil => decide
    | plain hc h ih =>
      rw [List.infix_cons_iff, List.cons_prefix_cons]
      rintro (⟨rfl, -⟩ | hin)
      · exact hc rfl
      · exact ih hin
    | escape hb h ih =>
      obtain ⟨n, n', hhigh, hlow, -⟩ := hb
      have hhigh := hhigh.notMem
      have hlow := hlow.notMem
      simp only [List.mem_cons, List.not_mem_nil, or_false, not_or] at hhigh hlow
      simp only [List.infix_cons_iff, List.cons_prefix_cons]
      rintro (⟨-, heq, -⟩ | ⟨heq, -⟩ | ⟨heq, -⟩ | hin)
      · exact hhigh.2 heq.symm
      · exact hhigh.1 heq.symm
      · exact hlow.1 heq.symm
      · exact ih hin
  · rintro ⟨h, hsign⟩
    induction h with
    | nil => exact .nil
    | plain hc h ih => exact .plain hc (ih fun hin => hsign (List.infix_cons hin))
    | escape hb h ih =>
      simp only [List.infix_cons_iff, List.cons_prefix_cons, not_or] at hsign
      refine .escape ?_ (ih hsign.2.2.2)
      rcases hb with hb | ⟨rfl, -⟩
      · exact hb
      · exact absurd ⟨trivial, rfl, List.nil_prefix⟩ hsign.1

/-! ### Reading -/

theorem utf8EncodeChar_ascii (hc : c.toNat < 128) : String.utf8EncodeChar c = [byteOf c] := by
  have hsize : c.utf8Size = 1 := by
    rw [Char.utf8Size_eq_one_iff, UInt32.le_iff_toNat_le]
    exact Nat.le_of_lt_succ hc
  rw [String.utf8EncodeChar_eq_singleton hsize]
  rfl

/-- The bytes of other characters are not ASCII, and there are at least two. -/
theorem utf8EncodeChar_wide (hc : ¬ c.toNat < 128) :
    ∃ b b' bs, String.utf8EncodeChar c = b :: b' :: bs ∧ ∀ x ∈ b :: b' :: bs, 128 ≤ x.toNat := by
  have hval : ¬ c.val.toNat ≤ 127 := fun h => hc (Nat.lt_succ_of_le h)
  unfold String.utf8EncodeChar
  simp only [hval, if_false]
  split
  · refine ⟨_, _, _, rfl, ?_⟩
    simp only [List.forall_mem_cons, UInt8.toNat_ofNat']
    refine ⟨by omega, by omega, by simp⟩
  · split
    · refine ⟨_, _, _, rfl, ?_⟩
      simp only [List.forall_mem_cons, UInt8.toNat_ofNat']
      refine ⟨by omega, by omega, by omega, by simp⟩
    · refine ⟨_, _, _, rfl, ?_⟩
      simp only [List.forall_mem_cons, UInt8.toNat_ofNat']
      refine ⟨by omega, by omega, by omega, by omega, by simp⟩

/-- A byte is the value of a digit only if it is the byte of that digit. -/
theorem hexValue?_eq_some_iff (hc : c.toNat < 128) :
    hexValue? (byteOf c) = some b ↔ IsHexDigit c b.toNat := by
  have hall : ∀ n < 128, ∀ v < 16,
      hexValue? (UInt8.ofNat n) = some (UInt8.ofNat v) ↔ IsHexDigit (Char.ofNat n) v := by
    decide +kernel
  have hlt : ∀ n < 256, ∀ v ∈ hexValue? (UInt8.ofNat n), v.toNat < 16 := by decide +kernel
  have hb := hall c.toNat hc b.toNat
  rw [UInt8.ofNat_toNat, Char.ofNat_toNat] at hb
  constructor
  · intro h
    exact (hb (hlt c.toNat (by omega) b h)).mp h
  · intro h
    exact (hb h.lt).mpr h

theorem hexValue?_eq_none (hb : 128 ≤ b.toNat) : hexValue? b = none := by
  have hall : ∀ n < 256, 128 ≤ n → hexValue? (UInt8.ofNat n) = none := by decide +kernel
  have h := hall b.toNat b.toNat_lt hb
  rwa [UInt8.ofNat_toNat] at h

theorem byteOf_inj {c c' : Char} (hc : c.toNat < 128) (hc' : c'.toNat < 128)
    (h : byteOf c = byteOf c') : c = c' := by
  have h := congrArg UInt8.toNat h
  simp only [byteOf, UInt8.toNat_ofNat'] at h
  rw [Nat.mod_eq_of_lt (by omega), Nat.mod_eq_of_lt (by omega)] at h
  rw [← Char.ofNat_toNat c, h, Char.ofNat_toNat]

theorem escapedByte?_eq_some_iff (hhigh : high.toNat < 128) (hlow : low.toNat < 128) :
    escapedByte? (byteOf high) (byteOf low) = some b ↔ ReadPair high low b := by
  have hplus : byteOf high = byteOf '+' ↔ high = '+' :=
    ⟨byteOf_inj hhigh (by decide), congrArg byteOf⟩
  simp only [escapedByte?, bind, Option.bind_eq_some_iff, hexValue?_eq_some_iff hlow, hplus]
  by_cases hsign : high = '+'
  · subst hsign
    simp only [if_true, pure, Option.some.injEq]
    constructor
    · rintro ⟨l, hl, rfl⟩
      exact .inr ⟨rfl, hl⟩
    · rintro (⟨h, l, hh, -⟩ | ⟨-, hl⟩)
      · exact absurd (List.mem_cons_of_mem _ List.mem_cons_self) hh.notMem
      · exact ⟨b, hl, rfl⟩
  · simp only [if_neg hsign, Option.bind_eq_some_iff, hexValue?_eq_some_iff hhigh, pure,
      Option.some.injEq]
    constructor
    · rintro ⟨l, hl, h, hh, rfl⟩
      have := hl.lt
      have := hh.lt
      refine .inl ⟨h.toNat, l.toNat, hh, hl, ?_⟩
      rw [UInt8.toNat_add, UInt8.toNat_mul]
      simp only [UInt8.reduceToNat]
      omega
    · rintro (⟨h, l, hh, hl, hb⟩ | ⟨h, -⟩)
      · have := hl.lt
        have := hh.lt
        refine ⟨UInt8.ofNat l, ?_, UInt8.ofNat h, ?_, ?_⟩
        · rwa [UInt8.toNat_ofNat_of_lt' (by simp only [UInt8.size]; omega)]
        · rwa [UInt8.toNat_ofNat_of_lt' (by simp only [UInt8.size]; omega)]
        · rw [← UInt8.toNat_inj, UInt8.toNat_add, UInt8.toNat_mul, UInt8.toNat_ofNat',
            UInt8.toNat_ofNat']
          simp only [UInt8.reduceToNat]
          omega
      · exact absurd h hsign

theorem escapedByte?_eq_none {high low : UInt8} (hlow : 128 ≤ low.toNat) :
    escapedByte? high low = none := by
  rw [escapedByte?, hexValue?_eq_none hlow]
  rfl

theorem unescapeBytes_plain {bs rest : List UInt8} (hbs : ∀ b ∈ bs, b ≠ byteOf '.') :
    unescapeBytes (bs ++ rest) = (unescapeBytes rest).map (bs ++ ·) := by
  induction bs with
  | nil => simp
  | cons b bs ih =>
    rw [List.forall_mem_cons] at hbs
    rw [List.cons_append, unescapeBytes.eq_def]
    simp only [if_neg hbs.1, ih hbs.2]
    cases unescapeBytes rest <;> rfl

theorem unescapeBytes_point {high low : UInt8} {rest : List UInt8} :
    unescapeBytes (byteOf '.' :: high :: low :: rest) =
      (escapedByte? high low).bind fun b => (unescapeBytes rest).map (b :: ·) := by
  rw [unescapeBytes, if_pos rfl]
  cases escapedByte? high low with
  | none => rfl
  | some b => cases unescapeBytes rest <;> rfl

/-- A point that is not followed by two ASCII characters cannot be read. -/
theorem unescapeBytes_point_eq_none
    (h : ∀ high low rest, cs = high :: low :: rest → high.toNat < 128 → ¬ low.toNat < 128) :
    unescapeBytes (byteOf '.' :: cs.flatMap String.utf8EncodeChar) = none := by
  match cs with
  | [] => simp [unescapeBytes]
  | high :: rest =>
    by_cases hhigh : high.toNat < 128
    · match rest with
      | [] => simp [unescapeBytes, utf8EncodeChar_ascii hhigh]
      | low :: rest =>
        obtain ⟨b, b', bs, hbytes, hwide⟩ := utf8EncodeChar_wide (h high low rest rfl hhigh)
        rw [List.flatMap_cons, List.flatMap_cons, utf8EncodeChar_ascii hhigh, hbytes]
        simp only [List.cons_append, List.nil_append, unescapeBytes_point,
          escapedByte?_eq_none (hwide b List.mem_cons_self), Option.bind_none]
    · obtain ⟨b, b', bs, hbytes, hwide⟩ := utf8EncodeChar_wide hhigh
      rw [List.flatMap_cons, hbytes]
      have hlow := hwide b' (List.mem_cons_of_mem _ List.mem_cons_self)
      simp only [List.cons_append, unescapeBytes_point, escapedByte?_eq_none hlow,
        Option.bind_none]

theorem IsHexDigit.ascii {n : Nat} (h : IsHexDigit c n) : c.toNat < 128 := by
  have hall : ("0123456789abcdef".toList ++ "0123456789ABCDEF".toList).all
      (fun c => decide (c.toNat < 128)) = true := by decide +kernel
  refine of_decide_eq_true (List.all_eq_true.mp hall c (List.mem_append.mpr ?_))
  exact h.imp List.mem_of_getElem? List.mem_of_getElem?

theorem ReadPair.ascii (h : ReadPair high low b) : high.toNat < 128 ∧ low.toNat < 128 := by
  rcases h with ⟨h, l, hhigh, hlow, -⟩ | ⟨rfl, hlow⟩
  · exact ⟨hhigh.ascii, hlow.ascii⟩
  · exact ⟨by decide, hlow.ascii⟩

/-- No byte of another character is taken for a point. -/
theorem utf8EncodeChar_ne_point (hc : c ≠ '.') : ∀ b ∈ String.utf8EncodeChar c, b ≠ byteOf '.' := by
  intro b hb heq
  subst heq
  by_cases hascii : c.toNat < 128
  · rw [utf8EncodeChar_ascii hascii, List.mem_singleton] at hb
    exact hc (byteOf_inj hascii (by decide) hb.symm)
  · obtain ⟨b, b', bs, hbytes, hwide⟩ := utf8EncodeChar_wide hascii
    rw [hbytes] at hb
    exact absurd (hwide _ hb) (by decide)

/-- The bytes that are read are those that the text spells. -/
theorem unescapeBytes_eq_some_iff {cs : List Char} {bs : List UInt8} :
    unescapeBytes (cs.flatMap String.utf8EncodeChar) = some bs ↔ Spells ReadPair cs bs := by
  match cs with
  | [] =>
    constructor
    · intro h
      cases h
      exact .nil
    · rintro ⟨⟩
      rfl
  | c :: cs =>
    rw [List.flatMap_cons]
    by_cases hc : c = '.'
    · subst hc
      rw [utf8EncodeChar_ascii (by decide), List.singleton_append]
      by_cases hascii : ∃ high low rest, cs = high :: low :: rest ∧ high.toNat < 128 ∧
          low.toNat < 128
      · obtain ⟨high, low, rest, rfl, hhigh, hlow⟩ := hascii
        have ih := @unescapeBytes_eq_some_iff rest
        simp only [List.flatMap_cons, utf8EncodeChar_ascii hhigh, utf8EncodeChar_ascii hlow,
          List.singleton_append, unescapeBytes_point, Option.bind_eq_some_iff,
          Option.map_eq_some_iff, escapedByte?_eq_some_iff hhigh hlow, ih]
        rw [spells_point]
        constructor
        · rintro ⟨b, hb, bs', hbs', rfl⟩
          exact ⟨b, bs', hb, hbs', rfl⟩
        · rintro ⟨b, bs', hb, hbs', rfl⟩
          exact ⟨b, hb, bs', hbs', rfl⟩
      · rw [unescapeBytes_point_eq_none fun high low rest heq hhigh hlow =>
          hascii ⟨high, low, rest, heq, hhigh, hlow⟩]
        simp only [reduceCtorEq, false_iff]
        intro h
        cases h with
        | plain hc => exact hc rfl
        | escape hb => exact hascii ⟨_, _, _, rfl, hb.ascii⟩
    · have ih := @unescapeBytes_eq_some_iff cs
      rw [unescapeBytes_plain (utf8EncodeChar_ne_point hc), spells_plain hc]
      simp only [Option.map_eq_some_iff, ih]
      exact exists_congr fun _ => and_congr_right fun _ => eq_comm
termination_by cs.length

theorem fromUTF8?_eq_some_iff : String.fromUTF8? ⟨bs.toArray⟩ = some s ↔ bytesOf s = bs := by
  unfold String.fromUTF8?
  split
  · rw [Option.some.injEq]
    constructor
    · rintro rfl
      rfl
    · rintro rfl
      rfl
  · next hbs =>
    simp only [reduceCtorEq, false_iff]
    rintro rfl
    exact hbs s.isValidUTF8

/-- Exactly the identifiers that a text spells are read. -/
theorem unescape_eq_some_iff : unescape cs = some s ↔ Spells ReadPair cs (bytesOf s) := by
  rw [unescape, bytesOf_eq, String.toList_ofList]
  simp only [bind, Option.bind_eq_some_iff, unescapeBytes_eq_some_iff, fromUTF8?_eq_some_iff]
  constructor
  · rintro ⟨bs, h, rfl⟩
    exact h
  · intro h
    exact ⟨_, h, rfl⟩

/-- What is written for a byte spells it. -/
theorem Spells.escapeByte (h : Spells HexPair cs bs) (b : UInt8) :
    Spells HexPair (Symbol.escapeByte b ++ cs) (b :: bs) := by
  have hplain : ∀ n < 256, isPlain (UInt8.ofNat n) = true →
      Char.ofNat n ≠ '.' ∧ String.utf8EncodeChar (Char.ofNat n) = [UInt8.ofNat n] := by
    decide +kernel
  have hdigit : ∀ n < 16, IsHexDigit (Nat.digitChar n) n := by decide
  have hb := b.toNat_lt
  unfold Symbol.escapeByte
  split
  · next hisPlain =>
    obtain ⟨hne, hbyte⟩ := hplain b.toNat hb (by rwa [UInt8.ofNat_toNat])
    rw [UInt8.ofNat_toNat] at hbyte
    have h := Spells.plain hne h
    rwa [hbyte] at h
  · exact .escape ⟨b.toNat / 16, b.toNat % 16, hdigit _ (by omega), hdigit _ (by omega),
      (Nat.div_add_mod _ _).symm⟩ h

/-- What is written for an identifier spells it. -/
theorem spells_escape (s : String) : Spells HexPair (escape s) (bytesOf s) := by
  rw [escape]
  induction bytesOf s with
  | nil => exact .nil
  | cons b bs ih =>
    rw [List.flatMap_cons]
    exact ih.escapeByte b

/-- What is written for an identifier is read as that identifier. -/
theorem unescape_escape (s : String) : unescape (escape s) = some s :=
  unescape_eq_some_iff.mpr ((spells_escape s).mono fun _ _ _ => .inl)

/-! ### Describing -/

theorem parts?_ofParts {parts : List (List Char)} (h : IsParts parts) :
    parts? (ofParts parts).toList = some parts := by
  have hmark : mark.isPrefixOf? (ofParts parts).toList
      = some (List.intercalate [separator] parts) := by
    rw [ofParts, String.toList_ofList]
    rfl
  rw [parts?, hmark, Option.map_some, List.splitOn_intercalate separator h.free h.ne_nil]

theorem mapM_unescape_escape (names : List String) :
    (names.map escape).mapM unescape = some names := by
  induction names with
  | nil => rfl
  | cons name names ih =>
    rw [List.map_cons, List.mapM_cons, unescape_escape, ih]
    rfl

/-- A part that cannot be read spoils the path. -/
theorem mapM_unescape_eq_none {path : List (List Char)} {part : List Char} (hpart : part ∈ path)
    (h : unescape part = none) : path.mapM unescape = none := by
  induction path with
  | nil => cases hpart
  | cons first path ih =>
    rw [List.mapM_cons]
    rcases List.mem_cons.mp hpart with rfl | hpart
    · rw [h]
      rfl
    · rw [ih hpart]
      cases unescape first <;> rfl

/-- The parts between the path and the last one do not matter. -/
theorem describe_path {entity : Entity} {path : List (List Char)}
    (hpath : path.length = entity.pathLength) (rest : List (List Char)) :
    describe (entity.code :: (path ++ rest).reverse) =
      (path.mapM unescape).map fun names => entity.description ++ ".".intercalate names := by
  have hlen : ¬ (path ++ rest).reverse.length < entity.pathLength := by
    rw [List.length_reverse, List.length_append]
    omega
  have htake : (path ++ rest).reverse.reverse.take entity.pathLength = path := by
    rw [List.reverse_reverse, ← hpath, List.take_left]
  rw [describe, Entity.ofCode?_code, Option.bind_eq_bind, Option.bind_some, if_neg hlen, htake]
  cases path.mapM unescape <;> rfl

end Symbol

open Dispatch.Symbol

/-- The last part of a symbol is looked at first. -/
theorem demangle_ofParts {init : List (List Char)} {last : List Char}
    (h : IsParts (init ++ [last])) :
    demangle (ofParts (init ++ [last])) =
      if last = asyncPointerCode then
        (describe init.reverse).map ("async function pointer to " ++ ·)
      else describe (last :: init.reverse) := by
  rw [demangle, parts?_ofParts h, Option.bind_eq_bind, Option.bind_some, List.reverse_append]
  simp only [List.reverse_cons, List.reverse_nil, List.nil_append, List.singleton_append]
  split
  · cases describe init.reverse <;> rfl
  · rfl

/-- What a symbol with a path of its entity is described as, and what the async function
pointer to it is. -/
theorem demangle_path {entity : Entity} {path rest : List (List Char)}
    (hpath : path.length = entity.pathLength) (h : IsParts (path ++ rest ++ [entity.code])) :
    demangle (ofParts (path ++ rest ++ [entity.code])) =
        (path.mapM unescape).map (fun names => entity.description ++ ".".intercalate names) ∧
      demangle (asyncPointerSymbol (ofParts (path ++ rest ++ [entity.code]))) =
        (path.mapM unescape).map fun names =>
          "async function pointer to " ++ (entity.description ++ ".".intercalate names) := by
  have hcode : entity.code ≠ asyncPointerCode := by cases entity <;> decide
  have hreverse : (path ++ rest ++ [entity.code]).reverse = entity.code :: (path ++ rest).reverse :=
    by rw [List.reverse_append]; rfl
  rw [asyncPointerSymbol_ofParts h.ne_nil, demangle_ofParts h, demangle_ofParts h.asyncPointer,
    if_neg hcode, if_pos rfl, hreverse, describe_path hpath, Option.map_map]
  exact ⟨rfl, rfl⟩

/-- A symbol that ends in no code has no description. -/
theorem demangle_eq_none {init : List (List Char)} {last : List Char}
    (h : IsParts (init ++ [last])) (hlast : last ≠ asyncPointerCode)
    (hcode : Entity.ofCode? last = none) : demangle (ofParts (init ++ [last])) = none := by
  rw [demangle_ofParts h, if_neg hlast, describe, hcode]
  rfl

/-- The letters of a signature are no code. -/
theorem Method.signatureCode_notCode {p : Pool} {m : Method} {code : List Char}
    (h : m.signatureCode p = .ok code) :
    code ≠ asyncPointerCode ∧ Entity.ofCode? code = none := by
  obtain ⟨params, result, error, -, -, -, rfl⟩ := signatureCode_eq_ok.mp h
  have hlong : ∀ two : List Char, two.length = 2 → m.ownerLetter :: m.kindLetter ::
      m.conventionLetter :: typesCode params result error m.signature.generics ≠ two := by
    rintro two htwo rfl
    simp only [List.length_cons] at htwo
    omega
  refine ⟨hlong _ rfl, ?_⟩
  rw [Entity.ofCode?, List.find?_eq_none]
  intro entity _ heq
  exact hlong entity.code (by cases entity <;> rfl) (beq_iff_eq.mp heq).symm

/-- Whatever the names are, symbols are described by the names that they were made of; the
symbol of an implementation has no description. -/
theorem demangle_mangled {p : Pool} {m : Method} (hm : m.Known p)
    (module className implementor : String) :
    (∃ symbol, m.thunkSymbol p = .ok symbol ∧
      demangle symbol = some ("dispatch thunk for " ++
        ".".intercalate [m.module, m.owner.name, m.selector]) ∧
      demangle (asyncPointerSymbol symbol) = some ("async function pointer to " ++
        ("dispatch thunk for " ++ ".".intercalate [m.module, m.owner.name, m.selector]))) ∧
    (∃ symbol, m.descriptorSymbol p = .ok symbol ∧
      demangle symbol = some ("method descriptor for " ++
        ".".intercalate [m.module, m.owner.name, m.selector])) ∧
    (∀ entity ∈ [Entity.lookupFunction, .typeDescriptor, .tableBounds],
      demangle (classSymbol module className entity) =
        some (entity.description ++ ".".intercalate [module, className])) ∧
    ∃ symbol, m.implementationSymbol p implementor = .ok symbol ∧ demangle symbol = none := by
  have hentity : ∀ entity : Entity, entity.pathLength = 3 →
      ∃ symbol, m.entitySymbol p entity = .ok symbol ∧
        demangle symbol = some (entity.description ++
          ".".intercalate [m.module, m.owner.name, m.selector]) ∧
        demangle (asyncPointerSymbol symbol) = some ("async function pointer to " ++
          (entity.description ++ ".".intercalate [m.module, m.owner.name, m.selector])) := by
    intro entity hlength
    obtain ⟨symbol, hsymbol⟩ := hm.exists_entitySymbol entity
    refine ⟨symbol, hsymbol, ?_⟩
    obtain ⟨code, -, hparts, rfl⟩ := Method.parts_of_entitySymbol hsymbol
    have hpath := @demangle_path entity ([m.module, m.owner.name, m.selector].map escape) [code]
      hlength.symm hparts
    rw [mapM_unescape_escape] at hpath
    exact hpath
  refine ⟨hentity .dispatchThunk rfl, ?_, ?_, ?_⟩
  · obtain ⟨symbol, hsymbol, hdescriptor, -⟩ := hentity .methodDescriptor rfl
    exact ⟨symbol, hsymbol, hdescriptor⟩
  · intro entity hentity
    have hlength : entity.pathLength = 2 := by
      revert entity
      decide
    have hparts : IsParts ([module, className].map escape ++ [] ++ [entity.code]) := by
      refine ⟨by simp, ?_⟩
      simp only [List.map_cons, List.map_nil, List.append_nil, List.cons_append, List.nil_append,
        List.forall_mem_cons]
      exact ⟨separator_notMem_escape _, separator_notMem_escape _, separator_notMem_code entity,
        nofun⟩
    have hpath := (@demangle_path entity ([module, className].map escape) [] hlength.symm hparts).1
    rw [mapM_unescape_escape] at hpath
    exact hpath
  · obtain ⟨symbol, hsymbol⟩ := hm.exists_implementationSymbol implementor
    refine ⟨symbol, hsymbol, ?_⟩
    obtain ⟨code, hcode, hparts, rfl⟩ := Method.parts_of_implementationSymbol hsymbol
    obtain ⟨hlast, hnone⟩ := Method.signatureCode_notCode hcode
    exact @demangle_eq_none [escape m.module, escape implementor, escape m.selector] _ hparts hlast
      hnone

/-- A static requirement whose names are made of separators, points and codes. -/
def Method.awkward : Method where
  module := "a$b.c"
  owner := .ofProtocol "Tj"
  selector := ""
  kind := .onClass
  signature := { convention := .async, generics := { params := 1 }, selfType := 0, params := [1],
                 result := 0, error := some 4 }

/-- Names that look like codes are not taken for codes. -/
theorem demangle_mangled_awkward :
    Method.awkward.Known Pool.new ∧
      Method.awkward.thunkSymbol Pool.new = .ok "_relay_a.24b.2ec$Tj$$psab_vtlg1r0$Tj" ∧
      demangle (asyncPointerSymbol "_relay_a.24b.2ec$Tj$$psab_vtlg1r0$Tj") =
        some "async function pointer to dispatch thunk for a$b.c.Tj." ∧
      demangle (classSymbol "Mo" "Tu" .lookupFunction) =
        some "method lookup function for Mo.Tu" := by
  have hthunk : Method.awkward.thunkSymbol Pool.new
      = .ok "_relay_a.24b.2ec$Tj$$psab_vtlg1r0$Tj" := by decide +kernel
  have hknown := Method.known_of_entitySymbol hthunk
  obtain ⟨⟨symbol, hsymbol, -, hpointer⟩, -, hclass, -⟩ := demangle_mangled hknown "Mo" "Tu" "Mn"
  cases hthunk.symm.trans hsymbol
  exact ⟨hknown, hthunk, hpointer, hclass .lookupFunction (by decide)⟩

/-! ### What is read -/

/-- A text is read as an identifier exactly if it spells the bytes of that identifier, where
the digits of an escape are hexadecimal or are a plus sign and one such digit.  So the texts
that are read because their escapes have two hexadecimal digits are those in which no plus
sign follows a point.  A symbol with a part of its path that cannot be read has no
description. -/
theorem unescape_grammar (cs : List Char) :
    (∀ s : String, unescape cs = some s ↔ Spells ReadPair cs (bytesOf s)) ∧
    (∀ s : String, Spells HexPair cs (bytesOf s) ↔ unescape cs = some s ∧ ¬ ['.', '+'] <:+: cs) ∧
    ((∀ s : String, ¬ Spells ReadPair cs (bytesOf s)) →
      ∀ (entity : Entity) (path rest : List (List Char)), path.length = entity.pathLength →
        IsParts (path ++ rest ++ [entity.code]) → cs ∈ path →
        demangle (ofParts (path ++ rest ++ [entity.code])) = none ∧
          demangle (asyncPointerSymbol (ofParts (path ++ rest ++ [entity.code]))) = none) := by
  refine ⟨fun s => unescape_eq_some_iff, fun s => ?_, ?_⟩
  · rw [spells_hexPair_iff, unescape_eq_some_iff]
  · intro hbroken entity path rest hpath hparts hmem
    have hunread : unescape cs = none := by
      rw [Option.eq_none_iff_forall_ne_some]
      exact fun s hs => hbroken s (unescape_eq_some_iff.mp hs)
    have hdemangle := demangle_path hpath hparts
    rwa [mapM_unescape_eq_none hmem hunread] at hdemangle

/-- An escape with one digit is not read. -/
theorem unescape_grammar_truncated :
    IsParts [['g', 'e', 'o', '.', '2'], ['C'], ['M', 'u']] ∧
      (∀ s, ¬ Spells ReadPair ['g', 'e', 'o', '.', '2'] (bytesOf s)) ∧
      demangle "_relay_geo.2$C$Mu" = none := by
  obtain ⟨hread, -, hnone⟩ := unescape_grammar ['g', 'e', 'o', '.', '2']
  have hparts : IsParts [['g', 'e', 'o', '.', '2'], ['C'], ['M', 'u']] := ⟨by decide, by decide⟩
  have hbroken : ∀ s, ¬ Spells ReadPair ['g', 'e', 'o', '.', '2'] (bytesOf s) := by
    intro s hs
    have hunread : unescape ['g', 'e', 'o', '.', '2'] = none := by decide +kernel
    rw [← hread, hunread] at hs
    cases hs
  exact ⟨hparts, hbroken, (hnone hbroken .lookupFunction [['g', 'e', 'o', '.', '2'], ['C']] [] rfl
    hparts List.mem_cons_self).1⟩

/-- A sign is read in place of a digit, in an escape that is not hexadecimal. -/
theorem signed_escape_read :
    (∀ bs, ¬ Spells HexPair ['.', '+', 'a'] bs) ∧ unescape ['.', '+', 'a'] = some "\n" ∧
      demangle "_relay_geo.+acore$Circle$Mu" =
        some "method lookup function for geo\ncore.Circle" := by
  refine ⟨?_, by decide +kernel, by decide +kernel⟩
  intro bs h
  exact (spells_hexPair_iff.mp h).2 ⟨[], ['a'], rfl⟩

end Dispatch
