import Dispatch.Symbol.Mangle

/-!
# Symbols of different things are different

Escaping loses nothing, so the symbols of two classes differ.  Two things of
different sorts have symbols that end in different letters, whatever their names are.

## Main statements

* `Symbol.escape_injective` — escaping is injective.
* `classSymbol_injective`, `asyncPointerSymbol_injective` — so are these two symbols.
* `last?_entitySymbol`, `last?_classSymbol`, `last?_asyncPointerSymbol` — the letter at
  the end of a symbol.
-/

namespace Dispatch

namespace Symbol

/-! ### Escaping -/

/-- The value of a digit of an escape. -/
def digitValue (c : Char) : Nat :=
  if c.toNat < 58 then c.toNat - 48 else c.toNat - 87

/-- The first byte of an escaped identifier, and the rest. -/
def readByte : List Char → Option (UInt8 × List Char)
  | [] => none
  | c :: rest =>
    if c = '.' then
      match rest with
      | high :: low :: rest =>
        some (UInt8.ofNat (16 * digitValue high + digitValue low), rest)
      | _ => none
    else some (UInt8.ofNat c.toNat, rest)

theorem readByte_escapeByte_append (b : UInt8) (rest : List Char) :
    readByte (escapeByte b ++ rest) = some (b, rest) := by
  have hplain : ∀ n < 256, isPlain (UInt8.ofNat n) = true →
      Char.ofNat n ≠ '.' ∧ (Char.ofNat n).toNat = n := by decide +kernel
  have hdigit : ∀ n < 16, digitValue (Nat.digitChar n) = n := by decide
  have hb : b.toNat < 256 := b.toNat_lt
  unfold escapeByte
  split
  · next h =>
    obtain ⟨hne, hc⟩ := hplain b.toNat hb (by rw [UInt8.ofNat_toNat]; exact h)
    simp [readByte, hne, hc]
  · simp only [List.cons_append, List.nil_append, readByte, if_true]
    rw [hdigit _ (by omega), hdigit _ (by omega), Nat.div_add_mod, UInt8.ofNat_toNat]

theorem flatMap_escapeByte_injective {bs bs' : List UInt8}
    (h : bs.flatMap escapeByte = bs'.flatMap escapeByte) : bs = bs' := by
  induction bs generalizing bs' with
  | nil =>
    cases bs' with
    | nil => rfl
    | cons b rest =>
      have := congrArg readByte h
      rw [List.flatMap_cons, readByte_escapeByte_append] at this
      cases this
  | cons b rest ih =>
    have hread := congrArg readByte h
    rw [List.flatMap_cons, readByte_escapeByte_append] at hread
    cases bs' with
    | nil => cases hread
    | cons b' rest' =>
      rw [List.flatMap_cons, readByte_escapeByte_append] at hread
      simp only [Option.some.injEq, Prod.mk.injEq] at hread
      rw [hread.1, ih hread.2]

theorem bytesOf_injective {s s' : String} (h : bytesOf s = bytesOf s') : s = s' := by
  rw [← String.toByteArray_inj]
  exact ByteArray.ext (Array.toList_inj.mp h)

/-- Different identifiers are escaped differently. -/
theorem escape_injective {s s' : String} (h : escape s = escape s') : s = s' :=
  bytesOf_injective (flatMap_escapeByte_injective h)

end Symbol

open Dispatch.Symbol

/-- Different classes have different symbols. -/
theorem classSymbol_injective {module name name' : String} {entity : Entity}
    (h : classSymbol module name entity = classSymbol module name' entity) : name = name' := by
  have h := String.ofList_injective h
  simp only [List.intercalate_cons_cons, List.intercalate_singleton, List.append_assoc] at h
  have h := List.append_cancel_left (List.append_cancel_left (List.append_cancel_left h))
  exact escape_injective (List.append_cancel_right h)

/-- Different functions have different async function pointers. -/
theorem asyncPointerSymbol_injective {f f' : String}
    (h : asyncPointerSymbol f = asyncPointerSymbol f') : f = f' := by
  have h := congrArg String.toList h
  simp only [asyncPointerSymbol, String.toList_append] at h
  exact String.toList_inj.mp (List.append_cancel_right h)

/-! ### Ends of symbols -/

namespace Symbol

/-- The last letter of a symbol. -/
def last? (symbol : String) : Option Char := symbol.toList.getLast?

end Symbol

/-- The letter that a symbol of this sort ends in. -/
def Entity.letter (entity : Entity) : Char := entity.code.getLastD ' '

theorem last?_classSymbol (module name : String) (entity : Entity) :
    last? (classSymbol module name entity) = some entity.letter := by
  cases entity <;>
    simp [last?, classSymbol, ofParts, List.getLast?_append, List.getLast?_cons, Entity.code,
      Entity.letter]

theorem last?_entitySymbol {p : Pool} {m : Method} {entity : Entity} {symbol : String}
    (h : m.entitySymbol p entity = .ok symbol) : last? symbol = some entity.letter := by
  rw [Method.entitySymbol] at h
  cases hs : m.signatureCode p with
  | error fault =>
    rw [hs] at h
    cases h
  | ok signature =>
    rw [hs] at h
    cases h
    cases entity <;> simp [last?, ofParts, List.getLast?_append, List.getLast?_cons, Entity.code,
      Entity.letter]

theorem last?_asyncPointerSymbol (f : String) : last? (asyncPointerSymbol f) = some 'u' := by
  simp [last?, asyncPointerSymbol, asyncPointerCode, List.getLast?_append]

end Dispatch
