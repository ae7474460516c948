/-!
# Escaped identifiers

Inside a symbol an identifier keeps its ASCII letters, digits and underscores.
Every other byte of its UTF-8 form is written as a point and two hexadecimal
digits, so `my-lib` becomes `my.2dlib` and the separator `$` never occurs.

## Main definitions

* `Symbol.escape` — the escaped form of an identifier.
* `Symbol.unescape` — the identifier of an escaped form, if it is one.
-/

namespace Dispatch.Symbol

/-- The byte of an ASCII character. -/
def byteOf (c : Char) : UInt8 := UInt8.ofNat c.toNat

/-- The UTF-8 bytes of a string. -/
def bytesOf (s : String) : List UInt8 := s.toUTF8.data.toList

/-- Does the byte stand for itself in a symbol? -/
def isPlain (b : UInt8) : Bool :=
  (byteOf 'a' ≤ b && b ≤ byteOf 'z') || (byteOf 'A' ≤ b && b ≤ byteOf 'Z')
    || (byteOf '0' ≤ b && b ≤ byteOf '9') || b == byteOf '_'

/-- One byte of an identifier as it is written in a symbol. -/
def escapeByte (b : UInt8) : List Char :=
  if isPlain b then [Char.ofNat b.toNat]
  else ['.', Nat.digitChar (b.toNat / 16), Nat.digitChar (b.toNat % 16)]

/-- An identifier as it is written in a symbol. -/
def escape (s : String) : List Char := (bytesOf s).flatMap escapeByte

/-- The value of a hexadecimal digit of either case. -/
def hexValue? (b : UInt8) : Option UInt8 :=
  if byteOf '0' ≤ b && b ≤ byteOf '9' then some (b - byteOf '0')
  else if byteOf 'a' ≤ b && b ≤ byteOf 'f' then some (b - byteOf 'a' + 10)
  else if byteOf 'A' ≤ b && b ≤ byteOf 'F' then some (b - byteOf 'A' + 10)
  else none

/-- The byte that the two bytes after a point denote: a hexadecimal number, whose
first place may hold a plus sign instead of a digit. -/
def escapedByte? (high low : UInt8) : Option UInt8 := do
  let l ← hexValue? low
  if high = byteOf '+' then return l
  let h ← hexValue? high
  return h * 16 + l

/-- Undo the escapes of a byte string, from left to right. -/
def unescapeBytes : List UInt8 → Option (List UInt8)
  | [] => some []
  | b :: rest =>
    if b = byteOf '.' then
      match rest with
      | high :: low :: tail => do
        let c ← escapedByte? high low
        let decoded ← unescapeBytes tail
        return c :: decoded
      | _ => none
    else do
      let decoded ← unescapeBytes rest
      return b :: decoded

/-- The identifier that an escaped form denotes: every escape has to be complete
and the bytes have to be UTF-8. -/
def unescape (cs : List Char) : Option String := do
  let bytes ← unescapeBytes (bytesOf (String.ofList cs))
  String.fromUTF8? ⟨bytes.toArray⟩

end Dispatch.Symbol
