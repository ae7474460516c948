import Dispatch.Word

/-!
# Scalars

The machine-level components that values are made of.  Each occupies one word in
memory; integers narrower than a word may share a register.
-/

namespace Dispatch

/-- A machine-level scalar. -/
inductive Scalar where
  | i8
  | i16
  | i32
  | i64
  | f32
  | f64
  /-- A pointer-sized word: an address, metadata, a function value. -/
  | ptr
  deriving DecidableEq, Repr, Inhabited

namespace Scalar

/-- Width in bits. -/
def bits : Scalar → Nat
  | i8 => 8
  | i16 => 16
  | i32 => 32
  | f32 => 32
  | i64 => 64
  | f64 => 64
  | ptr => 64

/-- Integers narrower than a word may share a native register. -/
def packable : Scalar → Bool
  | i8 => true
  | i16 => true
  | i32 => true
  | _ => false

/-- Is the scalar a floating-point number? -/
def isFloat : Scalar → Bool
  | f32 => true
  | f64 => true
  | _ => false

/-- The low bits of a word that a scalar of this kind uses. -/
def mask (s : Scalar) : Word := Word.lowBits s.bits

/-- The scalar's name. -/
def text : Scalar → String
  | i8 => "i8"
  | i16 => "i16"
  | i32 => "i32"
  | i64 => "i64"
  | f32 => "f32"
  | f64 => "f64"
  | ptr => "ptr"

/-- Every scalar. -/
def all : List Scalar := [i8, i16, i32, i64, f32, f64, ptr]

/-- The scalar with a name. -/
def ofText? (s : String) : Option Scalar := all.find? fun k => k.text == s

@[simp]
theorem ofText?_text (s : Scalar) : ofText? s.text = some s := by cases s <;> rfl

theorem bits_pos (s : Scalar) : 0 < s.bits := by cases s <;> decide

theorem bits_le (s : Scalar) : s.bits ≤ 64 := by cases s <;> decide

end Scalar

end Dispatch
