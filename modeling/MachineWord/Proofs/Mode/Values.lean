import Mathlib
import MachineWord.Arithmetic.Operation
import MachineWord.Value.Order
import MachineWord.Value.Text

/-!
# Values in other modes

A mode decides in which cell a pattern is kept, and nothing else. `Value.inMode` keeps the
same pattern in the cell of another mode. Readings of a value are the same in both modes. A
value that is computed from another one is a function of its pattern or of its number, so
every operation commutes with the change of mode (`Operation.perform?_inMode`).
-/

set_option autoImplicit false

namespace MachineWord

variable {s : WordSize} {m : Mode} {v : View} (n : Mode)

namespace Value

/-- The value with the same pattern in another mode. -/
def inMode (x : Value ⟨s, m⟩ v) : Value ⟨s, n⟩ v := .ofBits x.bits

@[simp] theorem bits_inMode (x : Value ⟨s, m⟩ v) : (x.inMode n).bits = x.bits :=
  (bits_ofBits x.bits).trans x.truncate_bits

@[simp] theorem inMode_ofBits (pattern : BitVec 64) :
    (ofBits pattern : Value ⟨s, m⟩ v).inMode n = ofBits pattern := by
  apply ext_bits
  rw [bits_inMode, bits_ofBits, bits_ofBits]
  rfl

@[simp] theorem inMode_as (u : View) (x : Value ⟨s, m⟩ v) :
    (x.inMode n).as u = (x.as u).inMode n :=
  ext_bits rfl

theorem inMode_inj {x y : Value ⟨s, m⟩ v} : x.inMode n = y.inMode n ↔ x = y := by
  rw [← bits_inj, bits_inMode, bits_inMode, bits_inj]

/-! ## Readings -/

@[simp] theorem toLong_inMode (x : Value ⟨s, m⟩ v) : (x.inMode n).toLong = x.toLong := by
  rw [toLong, bits_inMode]
  rfl

@[simp] theorem toInt_inMode (x : Value ⟨s, m⟩ v) : (x.inMode n).toInt = x.toInt := by
  rw [toInt, bits_inMode, toInt]

@[simp] theorem isZero_inMode (x : Value ⟨s, m⟩ v) : (x.inMode n).isZero = x.isZero := by
  rw [isZero, bits_inMode, isZero]

@[simp] theorem text_inMode (x : Value ⟨s, m⟩ v) : (x.inMode n).text = x.text := by
  rw [text, hex, bits_inMode, text, hex]

@[simp] theorem paddedHex_inMode (fill : Char) (x : Value ⟨s, m⟩ v) :
    (x.inMode n).paddedHex fill = x.paddedHex fill := by
  rw [paddedHex, bits_inMode]
  rfl

@[simp] theorem testBit_inMode (x : Value ⟨s, m⟩ v) : (x.inMode n).testBit = x.testBit := by
  funext i
  rw [testBit, bits_inMode, testBit]

@[simp] theorem leadingZeros_inMode (x : Value ⟨s, m⟩ v) :
    (x.inMode n).leadingZeros = x.leadingZeros := by
  rw [leadingZeros, testBit_inMode]
  rfl

@[simp] theorem effectiveBits_inMode (x : Value ⟨s, m⟩ v) :
    (x.inMode n).effectiveBits = x.effectiveBits := by
  rw [effectiveBits, leadingZeros_inMode]
  rfl

theorem compare_inMode (x y : Value ⟨s, m⟩ v) :
    compare (x.inMode n) (y.inMode n) = compare x y := by
  change (if v.isSigned then _ else _) = (if v.isSigned then _ else _)
  rw [toLong_inMode, toLong_inMode, bits_inMode, bits_inMode]

theorem beq_inMode (x y : Value ⟨s, m⟩ v) : (x.inMode n == y.inMode n) = (x == y) :=
  decide_eq_decide.2 (inMode_inj n)

/-! ## Unsigned arithmetic -/

section Unsigned

variable (x : Value ⟨s, m⟩ v) (y : Operand)

/-- Whatever is computed from the pattern of a value commutes with the change of mode. -/
theorem ofBits_bits_inMode (pattern : BitVec 64 → BitVec 64) :
    (ofBits (pattern (x.inMode n).bits) : Value ⟨s, n⟩ v) =
      (ofBits (pattern x.bits) : Value ⟨s, m⟩ v).inMode n := by
  rw [bits_inMode, inMode_ofBits]

/-- The same for a computation that needs an outcome which does not depend on a mode. -/
theorem bind_ofBits_bits_inMode {α : Type} (outcome : Except Fault α)
    (pattern : BitVec 64 → α → BitVec 64) :
    (outcome >>= fun a => pure (ofBits (pattern (x.inMode n).bits a) : Value ⟨s, n⟩ v)) =
      (outcome >>= fun a => pure (ofBits (pattern x.bits a) : Value ⟨s, m⟩ v)).map
        (inMode n) := by
  cases outcome with
  | ok a => exact congrArg Except.ok (x.ofBits_bits_inMode n (pattern · a))
  | error fault => rfl

theorem add_inMode : (x.inMode n).add y = (x.add y).inMode n :=
  x.ofBits_bits_inMode n (· + y.pattern ⟨s, m⟩)

theorem sub_inMode : (x.inMode n).sub y = (x.sub y).inMode n :=
  x.ofBits_bits_inMode n (· - y.pattern ⟨s, m⟩)

theorem mul_inMode : (x.inMode n).mul y = (x.mul y).inMode n :=
  x.ofBits_bits_inMode n (· * y.pattern ⟨s, m⟩)

theorem mod_inMode : (x.inMode n).mod y = (x.mod y).map (inMode n) :=
  x.bind_ofBits_bits_inMode n (y.divisor ⟨s, m⟩ v) (· % ·)

theorem isRounded_inMode : (x.inMode n).isRounded y = x.isRounded y := by
  rw [isRounded, isRounded, mod_inMode]
  cases x.mod y with
  | ok remainder => exact congrArg Except.ok (isZero_inMode n remainder)
  | error fault => rfl

theorem roundUp_inMode : (x.inMode n).roundUp y = (x.roundUp y).map (inMode n) := by
  rw [roundUp, roundUp, mod_inMode]
  cases x.mod y with
  | ok remainder =>
      change (if (remainder.inMode n).isZero then Except.ok (x.inMode n) else .ok (.ofBits
        ((x.inMode n).bits + (y.wordPattern ⟨s, n⟩ - (remainder.inMode n).bits)))) =
        (if remainder.isZero then Except.ok x else .ok (.ofBits
          (x.bits + (y.wordPattern ⟨s, m⟩ - remainder.bits)))).map (inMode n)
      rw [isZero_inMode, bits_inMode, bits_inMode]
      cases remainder.isZero with
      | true => rfl
      | false => exact congrArg Except.ok (inMode_ofBits n _).symm
  | error fault => rfl

theorem roundDown_inMode : (x.inMode n).roundDown y = (x.roundDown y).map (inMode n) := by
  rw [roundDown, roundDown, mod_inMode, bits_inMode]
  cases x.mod y with
  | ok remainder =>
      change Except.ok (ofBits (x.bits - (remainder.inMode n).bits)) = Except.ok (inMode n _)
      rw [bits_inMode, inMode_ofBits]
  | error fault => rfl

theorem isAligned_inMode : (x.inMode n).isAligned y = x.isAligned y := by
  rw [isAligned, isAligned, bits_inMode]
  rfl

theorem isBitSet_inMode (i : Nat) : (x.inMode n).isBitSet i = x.isBitSet i := by
  rw [isBitSet, isBitSet, bits_inMode]
  rfl

end Unsigned

end Value

/-! ## Signed arithmetic -/

namespace Offset

variable (x : Offset ⟨s, m⟩) (y : Operand)

/-- Whatever is computed from the number of an offset commutes with the change of mode. -/
theorem ofLong_toLong_inMode (number : Int64 → Int64) :
    (Value.ofLong (number (x.inMode n).toLong) : Offset ⟨s, n⟩) =
      (Value.ofLong (number x.toLong) : Offset ⟨s, m⟩).inMode n := by
  rw [Value.toLong_inMode, Value.ofLong, Value.ofLong, Value.inMode_ofBits]

/-- The same for a computation that needs an outcome which does not depend on a mode. -/
theorem bind_ofLong_toLong_inMode {α : Type} (outcome : Except Fault α)
    (number : Int64 → α → Int64) :
    (outcome >>= fun a => pure (Value.ofLong (number (x.inMode n).toLong a) : Offset ⟨s, n⟩)) =
      (outcome >>= fun a => pure (Value.ofLong (number x.toLong a) : Offset ⟨s, m⟩)).map
        (Value.inMode n) := by
  cases outcome with
  | ok a => exact congrArg Except.ok (ofLong_toLong_inMode n x (number · a))
  | error fault => rfl

theorem align_inMode : align (x.inMode n) y = (align x y).map (Value.inMode n) :=
  bind_ofLong_toLong_inMode n x (y.alignment ⟨s, m⟩ .offset) fun number a =>
    (number + (Int64.ofBitVec a - 1)) &&& ~~~(Int64.ofBitVec a - 1)

theorem isNegative_inMode : isNegative (x.inMode n) = isNegative x := by
  rw [isNegative, Value.toLong_inMode, isNegative]

theorem isAligned_inMode : isAligned (x.inMode n) y = isAligned x y := by
  rw [isAligned, isAligned, Value.toLong_inMode]
  rfl

end Offset

/-! ## Operations -/

namespace Operation

variable (op : Operation)

theorem onUnsigned_inMode (x : Value ⟨s, m⟩ v) :
    op.onUnsigned (x.inMode n) = (op.onUnsigned x).map (Except.map (Value.inMode n)) := by
  -- An operation that cannot fail is a function of the pattern, and so is one that can, once
  -- its argument has been accepted. Only the roundings look at another value in between.
  have total (pattern : BitVec 64 → BitVec 64) :=
    congrArg (fun y => some (Except.ok y : Except Fault _)) (x.ofBits_bits_inMode n pattern)
  have fallible {α : Type} (outcome : Except Fault α) (pattern : BitVec 64 → α → BitVec 64) :=
    congrArg some (x.bind_ofBits_bits_inMode n outcome pattern)
  cases op with
  | add y => exact total (· + y.pattern ⟨s, m⟩)
  | sub y => exact total (· - y.pattern ⟨s, m⟩)
  | mul y => exact total (· * y.pattern ⟨s, m⟩)
  | div y => exact fallible (y.divisor ⟨s, m⟩ v) (· / ·)
  | mod y => exact fallible (y.divisor ⟨s, m⟩ v) (· % ·)
  | neg => rfl
  | roundUp y => exact congrArg some (x.roundUp_inMode n y)
  | roundDown y => exact congrArg some (x.roundDown_inMode n y)
  | align y => exact fallible (y.alignment ⟨s, m⟩ v) fun p a => (p + (a - 1)) &&& ~~~(a - 1)
  | alignWord =>
      exact fallible ((Operand.wordBytes ⟨s, m⟩).alignment ⟨s, m⟩ v) fun p a =>
        (p + (a - 1)) &&& ~~~(a - 1)
  | and y => exact total (· &&& y.pattern ⟨s, m⟩)
  | or y => exact total (· ||| y.pattern ⟨s, m⟩)
  | xor y => exact total (· ^^^ y.pattern ⟨s, m⟩)
  | not => exact total (~~~·)
  | shiftLeft k => exact total (· <<< (k % s.bits))
  | shiftRight k => exact total (· >>> (k % s.bits))
  | unsignedShiftRight k => exact total (· >>> (k % s.bits))
  | setBit i => exact fallible (Value.bit ⟨s, m⟩ v i) (· ||| ·)
  | clearBit i => exact fallible (Value.bit ⟨s, m⟩ v i) fun p bit => p &&& ~~~bit

theorem onOffset_inMode (x : Offset ⟨s, m⟩) :
    op.onOffset (x.inMode n) = (op.onOffset x).map (Except.map (Value.inMode n)) := by
  have total (number : Int64 → Int64) :=
    congrArg (fun y => some (Except.ok y : Except Fault _))
      (Offset.ofLong_toLong_inMode n x number)
  have fallible {α : Type} (outcome : Except Fault α) (number : Int64 → α → Int64) :=
    congrArg some (Offset.bind_ofLong_toLong_inMode n x outcome number)
  cases op with
  | add y => exact total (· + Offset.long ⟨s, m⟩ y)
  | sub y => exact total (· - Offset.long ⟨s, m⟩ y)
  | mul y => exact total (· * Offset.long ⟨s, m⟩ y)
  | div y => exact fallible (y.signedDivisor ⟨s, m⟩ .offset) (· / ·)
  | mod y => exact fallible (y.signedDivisor ⟨s, m⟩ .offset) (· % ·)
  | neg => exact total (-·)
  | roundUp y => rfl
  | roundDown y => rfl
  | align y => exact congrArg some (Offset.align_inMode n x y)
  | alignWord => exact congrArg some (Offset.align_inMode n x (.wordBytes ⟨s, m⟩))
  | and y => exact total (· &&& Offset.long ⟨s, m⟩ y)
  | or y => exact total (· ||| Offset.long ⟨s, m⟩ y)
  | xor y => exact total (· ^^^ Offset.long ⟨s, m⟩ y)
  | not => exact total (~~~·)
  | shiftLeft k => exact total (· <<< Int64.ofNat (k % s.bits))
  | shiftRight k => exact total (· >>> Int64.ofNat (k % s.bits))
  | unsignedShiftRight k =>
      exact congrArg (some ∘ Except.ok) (x.ofBits_bits_inMode n (· >>> (k % s.bits)))
  | setBit i => rfl
  | clearBit i => rfl

/-- An operation commutes with the change of mode, and fails for the same cause. -/
theorem perform?_inMode (x : Value ⟨s, m⟩ v) :
    op.perform? (x.inMode n) = (op.perform? x).map (Except.map (Value.inMode n)) := by
  cases v with
  | word => rfl
  | address => exact op.onUnsigned_inMode n x
  | offset => exact op.onOffset_inMode n x
  | size => exact op.onUnsigned_inMode n x
  | reference => rfl

end Operation

end MachineWord
