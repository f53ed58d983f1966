import MachineWord.Arithmetic.Signed
import MachineWord.Arithmetic.Unsigned
import MachineWord.Value.Text

/-!
# Questions about values

A question about a value is given apart from a model and a view, and so is its answer. Some
questions make sense under some views only; the others do not offer them.
-/

set_option autoImplicit false

namespace MachineWord

/-- A question about a value. -/
inductive Query where
  | describe
  | bits
  | toLong
  | toInt
  /-- The digits of the pattern, filled up to the digits of a word. -/
  | padded (fill : Char)
  /-- The order of the value and the one with a pattern. -/
  | compare (pattern : BitVec 64)
  /-- Whether the value is the one with a pattern. -/
  | equals (pattern : BitVec 64)
  | equalsInt (n : Int32)
  | isNull
  | isNegative
  | toIndex
  | isRounded (y : Operand)
  | isAligned (y : Operand)
  | isWordAligned
  | isBitSet (i : Nat)
  | effective
  | numeral (radix : Nat)
  deriving DecidableEq, Repr

/-- A cause for which a step has no answer. -/
inductive StepError where
  | fault (cause : Fault)
  /-- The view of the value has no such operation. -/
  | notOffered
  deriving DecidableEq, Repr

namespace Query

/-- All that can be said about a value under every view. -/
structure Description where
  bits : BitVec 64
  int : Int32
  long : Int64
  isZero : Bool
  isAllOnes : Bool
  hex : String
  padded : String
  lowestSetBit : Option Nat
  highestSetBit : Option Nat
  leadingZeros : Nat
  trailingZeros : Nat
  text : String
  deriving DecidableEq, Repr

/-- The answer to a question about a value. -/
inductive Answer where
  | description (d : Description)
  | pattern (p : BitVec 64)
  | long (n : Int64)
  | int (n : Int32)
  | index (n : Nat)
  | flag (b : Bool)
  | order (o : Ordering)
  | text (s : String)
  /-- The number of bits that a value needs, and the category that has room for them. -/
  | effective (bits : Nat) (width : Option Width)
  deriving DecidableEq

variable {M : Model} {v : View}

/-- The description of a value. -/
def description (x : Value M v) : Description where
  bits := x.bits
  int := x.toInt
  long := x.toLong
  isZero := x.isZero
  isAllOnes := x.isAllOnes
  hex := x.hex
  padded := x.paddedHex '0'
  lowestSetBit := x.lowestSetBit?
  highestSetBit := x.highestSetBit?
  leadingZeros := x.leadingZeros
  trailingZeros := x.trailingZeros
  text := toString x

/-- A question that every view offers. -/
def onAny (x : Value M v) : Query → Option (Except Fault Answer)
  | describe => some (.ok (.description (description x)))
  | bits => some (.ok (.pattern x.bits))
  | toLong => some (.ok (.long x.toLong))
  | toInt => some (.ok (.int x.toInt))
  | padded fill => some (.ok (.text (x.paddedHex fill)))
  | compare p => some (.ok (.order (Ord.compare x (.ofBits p))))
  | equals p => some (.ok (.flag (x == .ofBits p)))
  | _ => none

/-- A question about an unsigned value. -/
def onUnsigned (x : Value M v) : Query → Option (Except Fault Answer)
  | isRounded y => some (.flag <$> x.isRounded y)
  | isAligned y => some (.flag <$> x.isAligned y)
  | isWordAligned => some (.flag <$> x.isWordAligned)
  | isBitSet i => some (.flag <$> x.isBitSet i)
  | effective => some (.ok (.effective x.effectiveBits x.effectiveWidth?))
  | numeral radix => some (.text <$> x.numeral radix)
  | q => q.onAny x

/-- The answer to a question, if the view of the value offers it. -/
def answer? : {v : View} → Value M v → Query → Option (Except Fault Answer)
  | .word, x, q => q.onAny x
  | .address, x, equalsInt n => some (.ok (.flag (Address.equalsInt x n)))
  | .address, x, q => q.onUnsigned x
  | .offset, x, isNegative => some (.ok (.flag (Offset.isNegative x)))
  | .offset, x, isAligned y => some (.flag <$> Offset.isAligned x y)
  | .offset, x, q => q.onAny x
  | .size, x, toIndex => some (.ok (.index (Size.toIndex x)))
  | .size, x, q => q.onUnsigned x
  | .reference, x, isNull => some (.ok (.flag (Reference.isNull x)))
  | .reference, x, q => q.onAny x

/-- The answer to a question about a value. -/
def ask (q : Query) (x : Value M v) : Except StepError Answer :=
  match q.answer? x with
  | some (.ok answer) => .ok answer
  | some (.error cause) => .error (.fault cause)
  | none => .error .notOffered

end Query

end MachineWord
