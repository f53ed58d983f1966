import MachineWord.Fault
import MachineWord.Operand

/-!
# Divisors and alignments

Division and alignment look at the word of an operand, its pattern cut off at the size of a
word. A divisor is not zero there, and an alignment is a power of two. The view only names
the operation that refuses.
-/

set_option autoImplicit false

namespace MachineWord

namespace Operand

/-- The operand as an unsigned divisor. -/
def divisor (M : Model) (v : View) (y : Operand) : Except Fault (BitVec 64) :=
  if y.wordPattern M = 0 then .error (.divisionByZero v) else .ok (y.wordPattern M)

/-- The operand as a signed divisor. -/
def signedDivisor (M : Model) (v : View) (y : Operand) : Except Fault Int64 :=
  if y.signed M = 0 then .error (.divisionByZero v) else .ok (y.signed M)

/-- The operand as an alignment. -/
def alignment (M : Model) (v : View) (y : Operand) : Except Fault (BitVec 64) :=
  if (y.wordPattern M).toNat.isPowerOfTwo then .ok (y.wordPattern M)
  else .error (.alignment v (y.wordPattern M).toNat)

end Operand

end MachineWord
