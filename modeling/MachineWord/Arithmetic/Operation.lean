import MachineWord.Arithmetic.Signed
import MachineWord.Arithmetic.Unsigned

/-!
# Operations as data

An operation of word arithmetic is given apart from a model and a view. Addresses and sizes
take the unsigned operations and offsets the signed ones; untyped words and references have
no arithmetic. A right shift is the one that belongs to the view, so it replicates the sign
of an offset and fills with zeros elsewhere.
-/

set_option autoImplicit false

namespace MachineWord

/-- An operation of word arithmetic with its arguments. -/
inductive Operation where
  | add (y : Operand)
  | sub (y : Operand)
  | mul (y : Operand)
  | div (y : Operand)
  | mod (y : Operand)
  | neg
  | roundUp (y : Operand)
  | roundDown (y : Operand)
  | align (y : Operand)
  | alignWord
  | and (y : Operand)
  | or (y : Operand)
  | xor (y : Operand)
  | not
  | shiftLeft (n : Nat)
  | shiftRight (n : Nat)
  | unsignedShiftRight (n : Nat)
  | setBit (i : Nat)
  | clearBit (i : Nat)
  deriving DecidableEq, Repr

namespace Operation

variable {M : Model} {v : View}

/-- An operation on an unsigned value, if there is one. -/
def onUnsigned (x : Value M v) : Operation → Option (Except Fault (Value M v))
  | add y => some (.ok (x.add y))
  | sub y => some (.ok (x.sub y))
  | mul y => some (.ok (x.mul y))
  | div y => some (x.div y)
  | mod y => some (x.mod y)
  | neg => none
  | roundUp y => some (x.roundUp y)
  | roundDown y => some (x.roundDown y)
  | align y => some (x.align y)
  | alignWord => some x.alignWord
  | and y => some (.ok (x.and y))
  | or y => some (.ok (x.or y))
  | xor y => some (.ok (x.xor y))
  | not => some (.ok x.not)
  | shiftLeft n => some (.ok (x.shiftLeft n))
  | shiftRight n => some (.ok (x.shiftRight n))
  | unsignedShiftRight n => some (.ok (x.shiftRight n))
  | setBit i => some (x.setBit i)
  | clearBit i => some (x.clearBit i)

/-- An operation on an offset, if there is one. -/
def onOffset (x : Offset M) : Operation → Option (Except Fault (Offset M))
  | add y => some (.ok (x.add y))
  | sub y => some (.ok (x.sub y))
  | mul y => some (.ok (x.mul y))
  | div y => some (x.div y)
  | mod y => some (x.mod y)
  | neg => some (.ok x.neg)
  | roundUp _ => none
  | roundDown _ => none
  | align y => some (x.align y)
  | alignWord => some x.alignWord
  | and y => some (.ok (x.and y))
  | or y => some (.ok (x.or y))
  | xor y => some (.ok (x.xor y))
  | not => some (.ok x.not)
  | shiftLeft n => some (.ok (x.shiftLeft n))
  | shiftRight n => some (.ok (x.shiftRight n))
  | unsignedShiftRight n => some (.ok (x.unsignedShiftRight n))
  | setBit _ => none
  | clearBit _ => none

/-- An operation on a value, if its view has it. -/
def perform? (op : Operation) : {v : View} → (x : Value M v) → Option (Except Fault (Value M v))
  | .word, _ => none
  | .address, x => op.onUnsigned x
  | .offset, x => op.onOffset x
  | .size, x => op.onUnsigned x
  | .reference, _ => none

end Operation

end MachineWord
