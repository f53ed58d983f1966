import MachineWord.Value.Basic

/-!
# Scanning the bits of a value

A value without any bit set has neither a lowest nor a highest one. The zeros below the
lowest and above the highest bit set are counted within the size of a word, and the bits
that remain after the leading zeros decide the narrowest width category that holds the
value.
-/

set_option autoImplicit false

namespace MachineWord

namespace Value

variable {M : Model} {v : View}

/-- Whether the bit at an index is set. -/
def testBit (x : Value M v) (i : Nat) : Bool := x.bits.getLsbD i

/-- The index of the lowest bit set. -/
def lowestSetBit? (x : Value M v) : Option Nat := (List.range M.bits).find? x.testBit

/-- The index of the highest bit set. -/
def highestSetBit? (x : Value M v) : Option Nat :=
  if x.isZero then none else some x.bits.toNat.log2

/-- The number of zeros above the highest bit set, within the size of a word. -/
def leadingZeros (x : Value M v) : Nat :=
  ((List.range M.bits).reverse.takeWhile fun i => !x.testBit i).length

/-- The number of zeros below the lowest bit set, within the size of a word. -/
def trailingZeros (x : Value M v) : Nat :=
  ((List.range M.bits).takeWhile fun i => !x.testBit i).length

/-- The number of bits that the value needs as an unsigned number. -/
def effectiveBits (x : Value M v) : Nat := M.bits - x.leadingZeros

/-- The narrowest width category that holds the value as an unsigned number. -/
def effectiveWidth? (x : Value M v) : Option Width := Width.narrowest? x.effectiveBits

end Value

end MachineWord
