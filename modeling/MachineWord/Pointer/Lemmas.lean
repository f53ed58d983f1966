import Mathlib
import MachineWord.Pointer.Basic
import MachineWord.Value.Lemmas

/-!
# Effective addresses

The address that an offset locates is a sum modulo the number of words, and so is the offset
of an element of an array: what the additions and multiplications in between have cut off does
not matter (`toNat_locate_scaled_mod`).
-/

set_option autoImplicit false

namespace MachineWord

namespace Value

variable {M : Model} {v : View}

theorem mod_mod_two_pow_bits (n : Nat) : n % 2 ^ 64 % 2 ^ M.bits = n % 2 ^ M.bits :=
  Nat.mod_mod_of_dvd n (pow_dvd_pow 2 M.bits_le)

/-- A sum is one modulo the number of words. -/
theorem toNat_bits_add (x : Value M v) (y : Operand) :
    (x.add y).bits.toNat = (x.bits.toNat + (y.pattern M).toNat) % 2 ^ M.bits := by
  rw [add, toNat_bits_ofBits, BitVec.toNat_add, mod_mod_two_pow_bits]

/-- A product is one modulo the number of words. -/
theorem toNat_bits_mul (x : Value M v) (y : Operand) :
    (x.mul y).bits.toNat = x.bits.toNat * (y.pattern M).toNat % 2 ^ M.bits := by
  rw [mul, toNat_bits_ofBits, BitVec.toNat_mul, mod_mod_two_pow_bits]

/-- An int that is not negative is kept as it is. -/
theorem toNat_bits_ofInt {n : Int32} (nonneg : 0 ≤ n.toInt) :
    (ofInt n : Value M v).bits.toNat = n.toInt.toNat := by
  have small : n.toInt < 2 ^ 31 := Int32.toInt_lt n
  have words : 2 ^ 31 ≤ 2 ^ M.bits := by
    rcases M with ⟨_ | _, _⟩ <;> simp [Model.bits, WordSize.bits]
  have extended : (n.toBitVec.signExtend 64).toNat = n.toInt.toNat := by
    have same : (n.toBitVec.signExtend 64).toInt = n.toInt :=
      BitVec.toInt_signExtend_of_le (by decide)
    have bound := (n.toBitVec.signExtend 64).isLt
    rw [BitVec.toInt_eq_toNat_cond] at same
    split at same <;> omega
  rw [ofInt, toNat_bits_ofBits, extended, Nat.mod_eq_of_lt (by omega)]

end Value

namespace Pointer

variable {M : Model} (p : Pointer M)

/-- The address that an offset locates is a sum modulo the number of words. -/
theorem toNat_locate (offset : Offset M) :
    (p.locate offset).toNat =
      (p.address.bits.toNat + offset.bits.toNat) % 2 ^ M.bits := by
  rw [locate, Value.toNat_bits_add, Operand.pattern_operand]

theorem toNat_locate_zero : (p.locate .zero).toNat = p.address.bits.toNat := by
  rw [toNat_locate, Value.toNat_bits_zero, Nat.add_zero,
    Nat.mod_eq_of_lt (Value.toNat_bits_lt p.address)]

theorem toNat_bytes (s : Scalar) : ((UInt64.ofNat (s.bytes M)).toBitVec).toNat = s.bytes M := by
  rcases M with ⟨_ | _, _⟩ <;> cases s <;> rfl

section Elements

variable {s : Scalar} {displacement index : Int32} (nonneg : 0 ≤ displacement.toInt)
  (nonneg' : 0 ≤ index.toInt)

include nonneg nonneg'

/-- The address of an element is a sum modulo the number of words. -/
theorem toNat_locate_scaled_mod :
    (p.locate (scaled s displacement index)).toNat =
      (p.address.bits.toNat + displacement.toInt.toNat + index.toInt.toNat * s.bytes M) %
        2 ^ M.bits := by
  have size : ((Operand.index (UInt64.ofNat (s.bytes M))).pattern M).toNat = s.bytes M :=
    toNat_bytes s
  rw [toNat_locate, scaled, Value.toNat_bits_add, Operand.pattern_operand, Value.toNat_bits_mul,
    Value.toNat_bits_ofInt nonneg, Value.toNat_bits_ofInt nonneg', size, Nat.add_mod_mod,
    ← Nat.add_assoc, Nat.add_mod_mod]

end Elements

end Pointer

end MachineWord
