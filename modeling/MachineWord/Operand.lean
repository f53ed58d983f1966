import MachineWord.Value.Basic

/-!
# Operands

The second argument of word arithmetic is a native integer or a word under any view. An
operand is given apart from a model, so that the same operand can be used in every model.
Its pattern in a model extends signed integers by their sign and all others by zeros; its
number is the one that the integer or the word itself stands for. The pattern is that of the
number (`pattern_eq_ofInt`).
-/

set_option autoImplicit false

namespace MachineWord

/-- The second argument of word arithmetic. -/
inductive Operand where
  | int (n : Int32)
  | long (n : Int64)
  | unsignedInt (n : UInt32)
  | unsignedLong (n : UInt64)
  /-- An index of the machine. -/
  | index (n : UInt64)
  /-- The word with a pattern, cut off at the size of a word, under a view. -/
  | word (view : View) (pattern : BitVec 64)
  deriving DecidableEq, Repr

namespace Operand

/-- The pattern of an operand in a model. It may have bits beyond the size of a word. -/
def pattern (M : Model) : Operand → BitVec 64
  | int n => n.toBitVec.signExtend 64
  | long n => n.toBitVec
  | unsignedInt n => n.toBitVec.setWidth 64
  | unsignedLong n => n.toBitVec
  | index n => n.toBitVec
  | word _ p => M.truncate p

/-- The pattern of an operand, cut off at the size of a word. -/
def wordPattern (M : Model) (y : Operand) : BitVec 64 := M.truncate (y.pattern M)

/-- The word of an operand, read as a signed number. -/
def signed (M : Model) (y : Operand) : Int64 := M.signExtend (y.pattern M)

/-- The number that an operand stands for. -/
def number (M : Model) : Operand → Int
  | int n => n.toInt
  | long n => n.toInt
  | unsignedInt n => n.toNat
  | unsignedLong n => n.toNat
  | index n => n.toNat
  | word _ p => (M.truncate p).toNat

/-- The pattern of an operand is the number that it stands for, in 64 bits. -/
theorem pattern_eq_ofInt (M : Model) (y : Operand) :
    y.pattern M = BitVec.ofInt 64 (y.number M) := by
  have unsigned (p : BitVec 64) : p = BitVec.ofInt 64 p.toNat := by
    rw [BitVec.ofInt_natCast, BitVec.ofNat_toNat, BitVec.setWidth_eq]
  cases y with
  | int n => rfl
  | long n => exact BitVec.ofInt_toInt.symm
  | unsignedInt n =>
    apply BitVec.eq_of_toNat_eq
    rw [pattern, number, BitVec.toNat_setWidth, BitVec.ofInt_natCast, BitVec.toNat_ofNat]
    rfl
  | unsignedLong n => exact unsigned n.toBitVec
  | index n => exact unsigned n.toBitVec
  | word v p => exact unsigned (M.truncate p)

/-- The number of bytes of a word as an operand. -/
def wordBytes (M : Model) : Operand := index (UInt64.ofNat M.bytes)

end Operand

/-- A value as an operand. -/
def Value.operand {M : Model} {v : View} (x : Value M v) : Operand := .word v x.bits

@[simp] theorem Operand.pattern_operand {M : Model} {v : View} (x : Value M v) :
    x.operand.pattern M = x.bits :=
  x.truncate_bits

end MachineWord
