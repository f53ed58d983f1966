import MachineWord.Arithmetic.Alignment

/-!
# Signed arithmetic

An offset is a signed number of the size of a word. Its arithmetic is that of longs, cut off
at the size of a word again. A quotient is truncated towards zero and a remainder has the
sign of the dividend. A right shift replicates the sign; the one that fills with zeros works
on the pattern instead.
-/

set_option autoImplicit false

namespace MachineWord

namespace Offset

variable {M : Model}

/-- The operand as a long. It may exceed the range of a word. -/
def long (M : Model) (y : Operand) : Int64 := Int64.ofBitVec (y.pattern M)

/-! ## Sums, differences and products -/

/-- The sum, cut off at the size of a word. -/
def add (x : Offset M) (y : Operand) : Offset M := .ofLong (x.toLong + long M y)

/-- The difference, cut off at the size of a word. -/
def sub (x : Offset M) (y : Operand) : Offset M := .ofLong (x.toLong - long M y)

/-- The product, cut off at the size of a word. -/
def mul (x : Offset M) (y : Operand) : Offset M := .ofLong (x.toLong * long M y)

/-- The number of the opposite sign, cut off at the size of a word. -/
def neg (x : Offset M) : Offset M := .ofLong (-x.toLong)

/-- Whether the offset is below zero. -/
def isNegative (x : Offset M) : Bool := x.toLong < 0

/-! ## Division -/

/-- The quotient, truncated towards zero. -/
def div (x : Offset M) (y : Operand) : Except Fault (Offset M) := do
  return .ofLong (x.toLong / (← y.signedDivisor M .offset))

/-- The remainder that belongs to the truncated quotient. -/
def mod (x : Offset M) (y : Operand) : Except Fault (Offset M) := do
  return .ofLong (x.toLong % (← y.signedDivisor M .offset))

/-! ## Alignment -/

/-- The offset itself if it is a multiple of the alignment, and the next larger multiple
otherwise. -/
def align (x : Offset M) (y : Operand) : Except Fault (Offset M) := do
  let low := Int64.ofBitVec (← y.alignment M .offset) - 1
  return .ofLong ((x.toLong + low) &&& ~~~low)

/-- Whether the offset is a multiple of the alignment. -/
def isAligned (x : Offset M) (y : Operand) : Except Fault Bool := do
  let low := Int64.ofBitVec (← y.alignment M .offset) - 1
  return x.toLong &&& low == 0

/-- The offset aligned to the size of a word. -/
def alignWord (x : Offset M) : Except Fault (Offset M) := x.align (.wordBytes M)

/-! ## Bits -/

/-- The bits set in the offset and in the operand. -/
def and (x : Offset M) (y : Operand) : Offset M := .ofLong (x.toLong &&& long M y)

/-- The bits set in the offset or in the operand. -/
def or (x : Offset M) (y : Operand) : Offset M := .ofLong (x.toLong ||| long M y)

/-- The bits set in just one of the offset and the operand. -/
def xor (x : Offset M) (y : Operand) : Offset M := .ofLong (x.toLong ^^^ long M y)

/-- The bits of a word that are not set in the offset. -/
def not (x : Offset M) : Offset M := .ofLong (~~~x.toLong)

/-- Shifts towards the most significant bit. -/
def shiftLeft (x : Offset M) (n : Nat) : Offset M :=
  .ofLong (x.toLong <<< Int64.ofNat (n % M.bits))

/-- Shifts towards the least significant bit and replicates the sign. -/
def shiftRight (x : Offset M) (n : Nat) : Offset M :=
  .ofLong (x.toLong >>> Int64.ofNat (n % M.bits))

/-- Shifts towards the least significant bit and fills with zeros. -/
def unsignedShiftRight (x : Offset M) (n : Nat) : Offset M :=
  .ofBits (x.bits >>> (n % M.bits))

end Offset

end MachineWord
