import Mathlib
import MachineWord.Arithmetic.Operation
import MachineWord.Value.LowBits

/-!
# Operations that the views share

Offsets are computed with as longs, addresses and sizes as patterns. Most operations do not look
at the sign of a number: their low bits depend on the low bits of their arguments only, so the
long and the pattern lead to the same word (`Offset.add_eq` and the like). Under every view that
has arithmetic such an operation is the unsigned one (`Operation.perform?_of_isShared`). Division,
the remainder and the right shift that belongs to the view are not among them.
-/

set_option autoImplicit false

namespace MachineWord

/-- Addresses, offsets and sizes are computed with. -/
def View.isArithmetic : View → Bool
  | .address | .offset | .size => true
  | .word | .reference => false

/-- The operations that do not look at the sign of a number. -/
def Operation.isShared : Operation → Bool
  | .add _ | .sub _ | .mul _ | .align _ | .alignWord | .and _ | .or _ | .xor _ | .not
  | .shiftLeft _ | .unsignedShiftRight _ => true
  | _ => false

/-! ## Alignments -/

namespace Operand

variable {M : Model} {v : View} {y : Operand} {a : BitVec 64}

theorem toNat_wordPattern_lt (M : Model) (y : Operand) :
    (y.wordPattern M).toNat < 2 ^ M.bits := by
  rw [wordPattern, Model.toNat_truncate]
  exact Nat.mod_lt _ (Nat.two_pow_pos _)

/-- An alignment that is accepted is the word of the operand, and a power of two. -/
theorem of_alignment (accepted : y.alignment M v = .ok a) :
    a = y.wordPattern M ∧ a.toNat.isPowerOfTwo := by
  rw [alignment] at accepted
  split at accepted
  next power =>
      cases accepted
      exact ⟨rfl, power⟩
  next => contradiction

/-- The mask of an alignment lies within a word. -/
theorem toNat_alignment_sub_one_lt (accepted : y.alignment M v = .ok a) :
    (a - 1).toNat < 2 ^ M.bits := by
  obtain ⟨rfl, k, power⟩ := of_alignment accepted
  have bound := toNat_wordPattern_lt M y
  have positive : 1 ≤ (y.wordPattern M).toNat := power ▸ Nat.one_le_two_pow
  have small := (y.wordPattern M).isLt
  have below : (y.wordPattern M - 1).toNat = (y.wordPattern M).toNat - 1 :=
    BitVec.toNat_sub_of_le (BitVec.le_def.2 positive)
  omega

end Operand

/-! ## Offsets -/

namespace Offset

variable {M : Model} (x : Offset M) (y : Operand)

/-- An offset is determined by the low bits of the long that it is made from. -/
theorem ofLong_eq_ofBits {n : Int64} {p : BitVec 64} (same : LowBits M.bits n.toBitVec p) :
    (Value.ofLong n : Offset M) = .ofBits p :=
  Value.ofBits_congr same

theorem lowBits_long : LowBits M.bits (long M y).toBitVec (y.pattern M) := LowBits.refl _

theorem add_eq : x.add y = Value.add x y :=
  ofLong_eq_ofBits (x.lowBits_toLong.add (lowBits_long y) M.bits_le)

theorem sub_eq : x.sub y = Value.sub x y :=
  ofLong_eq_ofBits (x.lowBits_toLong.sub (lowBits_long y) M.bits_le)

theorem mul_eq : x.mul y = Value.mul x y :=
  ofLong_eq_ofBits (x.lowBits_toLong.mul (lowBits_long y) M.bits_le)

theorem neg_eq : x.neg = .ofBits (-x.bits) := by
  apply ofLong_eq_ofBits
  rw [Int64.toBitVec_neg]
  exact x.lowBits_toLong.neg M.bits_le

theorem and_eq : x.and y = Value.and x y :=
  ofLong_eq_ofBits (x.lowBits_toLong.and (lowBits_long y))

theorem or_eq : x.or y = Value.or x y :=
  ofLong_eq_ofBits (x.lowBits_toLong.or (lowBits_long y))

theorem xor_eq : x.xor y = Value.xor x y :=
  ofLong_eq_ofBits (x.lowBits_toLong.xor (lowBits_long y))

theorem not_eq : x.not = Value.not x :=
  ofLong_eq_ofBits (x.lowBits_toLong.not M.bits_le)

/-- A distance below 64 is taken by a shift of a long as it is. -/
theorem toNat_distance {k : Nat} (small : k < 64) :
    ((Int64.ofNat k).toBitVec.smod 64).toNat = k := by
  have all : ∀ k : Fin 64, ((Int64.ofNat k.val).toBitVec.smod 64).toNat = k.val := by decide
  exact all ⟨k, small⟩

/-- A distance is below 64 when it has been taken modulo the size of a word. -/
theorem mod_bits_lt (n : Nat) : n % M.bits < 64 :=
  (Nat.mod_lt n M.bits_pos).trans_le M.bits_le

theorem shiftLeft_eq (n : Nat) : x.shiftLeft n = Value.shiftLeft x n := by
  apply ofLong_eq_ofBits
  rw [Int64.toBitVec_shiftLeft, BitVec.shiftLeft_eq', toNat_distance (mod_bits_lt n)]
  exact x.lowBits_toLong.shiftLeft M.bits_le _

theorem unsignedShiftRight_eq (n : Nat) : x.unsignedShiftRight n = Value.shiftRight x n := rfl

theorem align_eq : x.align y = Value.align x y := by
  rw [align, Value.align]
  cases y.alignment M .offset with
  | ok a =>
      exact congrArg Except.ok
        (ofLong_eq_ofBits (.align M.bits_le x.lowBits_toLong (LowBits.refl (a - 1))))
  | error fault => rfl

theorem alignWord_eq : x.alignWord = Value.alignWord x := x.align_eq (.wordBytes M)

/-- What an offset and its long have in common with a mask within a word is the same. -/
theorem toBitVec_and_eq {low : BitVec 64} (within : low.toNat < 2 ^ M.bits) :
    x.toLong.toBitVec &&& low = x.bits &&& low := by
  apply BitVec.eq_of_getLsbD_eq
  intro i small
  rw [BitVec.getLsbD_and, BitVec.getLsbD_and]
  by_cases inside : i < M.bits
  · have bit := congrArg (BitVec.getLsbD · i) x.lowBits_toLong
    simp only [BitVec.getLsbD_setWidth, inside, decide_true, Bool.true_and] at bit
    rw [bit]
  · have words : 2 ^ M.bits ≤ 2 ^ i := Nat.pow_le_pow_right (by decide) (by omega)
    have clear : low.getLsbD i = false := Nat.testBit_lt_two_pow (within.trans_le words)
    rw [clear, Bool.and_false, Bool.and_false]

theorem isAligned_eq : x.isAligned y = Value.isAligned x y := by
  rw [isAligned, Value.isAligned]
  cases accepted : y.alignment M .offset with
  | ok a =>
      have common := x.toBitVec_and_eq (Operand.toNat_alignment_sub_one_lt accepted)
      have zero : (x.toLong &&& (Int64.ofBitVec a - 1) = 0) ↔ x.bits &&& (a - 1) = 0 := by
        rw [← Int64.toBitVec_inj, ← common]
        rfl
      exact congrArg Except.ok (decide_eq_decide.2 zero)
  | error fault => rfl

end Offset

/-! ## All views -/

namespace Operation

variable {M : Model} {v : View} {op : Operation}

theorem onOffset_of_isShared (shared : op.isShared = true) (x : Offset M) :
    op.onOffset x = op.onUnsigned x := by
  cases op with
  | add y => exact congrArg (some ∘ Except.ok) (x.add_eq y)
  | sub y => exact congrArg (some ∘ Except.ok) (x.sub_eq y)
  | mul y => exact congrArg (some ∘ Except.ok) (x.mul_eq y)
  | align y => exact congrArg some (x.align_eq y)
  | alignWord => exact congrArg some x.alignWord_eq
  | and y => exact congrArg (some ∘ Except.ok) (x.and_eq y)
  | or y => exact congrArg (some ∘ Except.ok) (x.or_eq y)
  | xor y => exact congrArg (some ∘ Except.ok) (x.xor_eq y)
  | not => exact congrArg (some ∘ Except.ok) x.not_eq
  | shiftLeft n => exact congrArg (some ∘ Except.ok) (x.shiftLeft_eq n)
  | unsignedShiftRight n => exact congrArg (some ∘ Except.ok) (x.unsignedShiftRight_eq n)
  | _ => contradiction

/-- A shared operation is the unsigned one under every view that has arithmetic. -/
theorem perform?_of_isShared (shared : op.isShared = true) (arithmetic : v.isArithmetic = true)
    (x : Value M v) : op.perform? x = op.onUnsigned x := by
  cases v with
  | address => rfl
  | offset => exact onOffset_of_isShared shared x
  | size => rfl
  | word => contradiction
  | reference => contradiction

end Operation

end MachineWord
