import MachineWord.Arithmetic.Alignment
import MachineWord.Value.Scan

/-!
# Unsigned arithmetic

Addresses and sizes are unsigned numbers below the number of words, and their arithmetic is
modulo that number. Division and the two roundings refuse a divisor that is zero. Alignment
rounds up to a multiple of a power of two by means of a mask. A distance of a shift counts
modulo the size of a word, and a bit is addressed by its index within a word.
-/

set_option autoImplicit false

namespace MachineWord

namespace Value

variable {M : Model} {v : View}

/-! ## Sums, differences and products -/

/-- The sum modulo the number of words. -/
def add (x : Value M v) (y : Operand) : Value M v := ofBits (x.bits + y.pattern M)

/-- The difference modulo the number of words. -/
def sub (x : Value M v) (y : Operand) : Value M v := ofBits (x.bits - y.pattern M)

/-- The product modulo the number of words. -/
def mul (x : Value M v) (y : Operand) : Value M v := ofBits (x.bits * y.pattern M)

/-! ## Division and rounding -/

/-- The quotient of unsigned numbers, rounded down. -/
def div (x : Value M v) (y : Operand) : Except Fault (Value M v) := do
  return ofBits (x.bits / (← y.divisor M v))

/-- The remainder of unsigned numbers. -/
def mod (x : Value M v) (y : Operand) : Except Fault (Value M v) := do
  return ofBits (x.bits % (← y.divisor M v))

/-- Whether the value is a multiple of the operand. -/
def isRounded (x : Value M v) (y : Operand) : Except Fault Bool := do
  return (← x.mod y).isZero

/-- The value itself if it is a multiple of the operand, and the next larger multiple
otherwise. -/
def roundUp (x : Value M v) (y : Operand) : Except Fault (Value M v) := do
  let remainder ← x.mod y
  if remainder.isZero then return x
  else return ofBits (x.bits + (y.wordPattern M - remainder.bits))

/-- The largest multiple of the operand that is not above the value. -/
def roundDown (x : Value M v) (y : Operand) : Except Fault (Value M v) := do
  return ofBits (x.bits - (← x.mod y).bits)

/-! ## Alignment -/

/-- The value itself if it is a multiple of the alignment, and the next larger multiple
otherwise. -/
def align (x : Value M v) (y : Operand) : Except Fault (Value M v) := do
  let low := (← y.alignment M v) - 1
  return ofBits ((x.bits + low) &&& ~~~low)

/-- Whether the value is a multiple of the alignment. -/
def isAligned (x : Value M v) (y : Operand) : Except Fault Bool := do
  let low := (← y.alignment M v) - 1
  return x.bits &&& low == 0

/-- The value aligned to the size of a word. -/
def alignWord (x : Value M v) : Except Fault (Value M v) := x.align (.wordBytes M)

/-- Whether the value is a multiple of the size of a word. -/
def isWordAligned (x : Value M v) : Except Fault Bool := x.isAligned (.wordBytes M)

/-! ## Bits -/

/-- The bits set in the value and in the operand. -/
def and (x : Value M v) (y : Operand) : Value M v := ofBits (x.bits &&& y.pattern M)

/-- The bits set in the value or in the operand. -/
def or (x : Value M v) (y : Operand) : Value M v := ofBits (x.bits ||| y.pattern M)

/-- The bits set in just one of the value and the operand. -/
def xor (x : Value M v) (y : Operand) : Value M v := ofBits (x.bits ^^^ y.pattern M)

/-- The bits of a word that are not set in the value. -/
def not (x : Value M v) : Value M v := ofBits (~~~x.bits)

/-- Shifts towards the most significant bit. -/
def shiftLeft (x : Value M v) (n : Nat) : Value M v := ofBits (x.bits <<< (n % M.bits))

/-- Shifts towards the least significant bit and fills with zeros. -/
def shiftRight (x : Value M v) (n : Nat) : Value M v := ofBits (x.bits >>> (n % M.bits))

/-- The pattern with a single bit of a word set. -/
def bit (M : Model) (v : View) (i : Nat) : Except Fault (BitVec 64) :=
  if i < M.bits then .ok (BitVec.twoPow 64 i) else .error (.bitIndex v i M.bits)

/-- Whether the bit at an index is set. -/
def isBitSet (x : Value M v) (i : Nat) : Except Fault Bool := do
  return x.bits &&& (← bit M v i) != 0

/-- The value with the bit at an index set. -/
def setBit (x : Value M v) (i : Nat) : Except Fault (Value M v) := do
  return ofBits (x.bits ||| (← bit M v i))

/-- The value with the bit at an index cleared. -/
def clearBit (x : Value M v) (i : Nat) : Except Fault (Value M v) := do
  return ofBits (x.bits &&& ~~~(← bit M v i))

end Value

end MachineWord
