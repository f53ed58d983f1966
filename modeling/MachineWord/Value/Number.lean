import Mathlib
import MachineWord.Arithmetic.Operation
import MachineWord.Value.Lemmas

/-!
# Values of integers

Every integer has a value, its remainder modulo the number of words. Sums, differences and
products of values are those of the integers (`add_ofNumber`, `sub_ofNumber`, `mul_ofNumber`), so a
computation on values in several steps, each of them cut off at the size of a word, is one on
integers that is cut off once.
-/

set_option autoImplicit false

namespace MachineWord

namespace Value

variable {M : Model} {v : View}

/-- The value of an integer, its remainder modulo the number of words. -/
def ofNumber (k : Int) : Value M v := ofBits (BitVec.ofInt 64 k)

theorem toNat_bits_ofNumber (k : Int) :
    ((ofNumber k : Value M v).bits.toNat : Int) = k % 2 ^ M.bits := by
  have words : (2 : Int) ^ M.bits ∣ (2 ^ 64 : Nat) := by exact_mod_cast pow_dvd_pow 2 M.bits_le
  have nonneg : 0 ≤ k % (2 ^ 64 : Nat) := Int.emod_nonneg k (by decide)
  rw [ofNumber, bits_ofBits, Model.toNat_truncate, BitVec.toNat_ofInt, Int.natCast_mod,
    Int.toNat_of_nonneg nonneg, Int.natCast_pow]
  exact Int.emod_emod_of_dvd k words

theorem modEq_ofNumber (k : Int) :
    ((ofNumber k : Value M v).bits.toNat : Int) ≡ k [ZMOD 2 ^ M.bits] := by
  rw [toNat_bits_ofNumber]
  exact Int.mod_modEq k _

theorem ofNumber_congr {k l : Int} (congruent : k ≡ l [ZMOD 2 ^ M.bits]) :
    (ofNumber k : Value M v) = ofNumber l := by
  apply ext_bits
  apply BitVec.eq_of_toNat_eq
  have same : ((ofNumber k : Value M v).bits.toNat : Int) =
      (ofNumber l : Value M v).bits.toNat := by
    rw [toNat_bits_ofNumber, toNat_bits_ofNumber]
    exact congruent
  exact_mod_cast same

/-- Two integers have the same value if they agree modulo the number of words. -/
theorem ofNumber_inj {k l : Int} :
    (ofNumber k : Value M v) = ofNumber l ↔ k ≡ l [ZMOD 2 ^ M.bits] := by
  refine ⟨fun same => ?_, ofNumber_congr⟩
  have value := modEq_ofNumber (M := M) (v := v) l
  rw [← same] at value
  exact (modEq_ofNumber k).symm.trans value

theorem ofNumber_bits (x : Value M v) : ofNumber x.bits.toNat = x := by
  rw [ofNumber, BitVec.ofInt_natCast, BitVec.ofNat_toNat, BitVec.setWidth_eq, ofBits_bits]

theorem ofLong_eq (n : Int64) : (ofLong n : Value M v) = ofNumber n.toInt := by
  rw [ofLong, ofNumber, ← Int64.toInt_toBitVec, BitVec.ofInt_toInt]

@[simp] theorem as_ofNumber (u : View) (k : Int) : (ofNumber k : Value M v).as u = ofNumber k := rfl

/-- The remainder around zero modulo a power of two is congruent to the integer modulo a smaller
one. -/
theorem bmod_modEq {w n : Nat} (le : w ≤ n) (k : Int) : k.bmod (2 ^ n) ≡ k [ZMOD 2 ^ w] := by
  have large : k.bmod (2 ^ n) ≡ k [ZMOD 2 ^ n] := by
    exact_mod_cast Int.bmod_emod (x := k) (m := 2 ^ n)
  exact large.of_dvd (pow_dvd_pow 2 le)

/-- A pattern that is read as a signed number is the remainder that lies around zero. -/
theorem toInt_signExtend (p : BitVec 64) :
    (M.signExtend p).toInt = (p.toNat : Int).bmod (2 ^ M.bits) := by
  rw [Model.signExtend, Int64.toInt_ofBitVec, BitVec.toInt_signExtend_of_le M.bits_le,
    BitVec.toInt_setWidth]

/-- The long of an offset is the integer, taken into the range of signed numbers. -/
theorem toLong_ofNumber (k : Int) :
    (ofNumber k : Offset M).toLong.toInt = k.bmod (2 ^ M.bits) := by
  have pattern := toNat_bits_ofNumber (M := M) (v := .offset) k
  change (M.signExtend (ofNumber k : Offset M).bits).toInt = _
  rw [toInt_signExtend, pattern]
  exact_mod_cast Int.emod_bmod k (2 ^ M.bits)

/-- A value is that of the long it stands for. -/
theorem ofNumber_toLong (x : Value M v) : ofNumber x.toLong.toInt = x := by
  rw [← ofLong_eq]
  apply ext_bits
  rw [ofLong, bits_ofBits, toLong]
  split
  · rw [Model.truncate_signExtend, truncate_bits]
  · exact x.truncate_bits

/-- The number of the long of a value is its pattern, modulo the number of words. -/
theorem toLong_modEq_bits (x : Value M v) : x.toLong.toInt ≡ x.bits.toNat [ZMOD 2 ^ M.bits] := by
  have congruent := modEq_ofNumber (M := M) (v := v) x.toLong.toInt
  rw [ofNumber_toLong] at congruent
  exact congruent.symm

/-! ## Arithmetic -/

section Arithmetic

variable (x : Value M v) (k l : Int) (y : Operand)

theorem ofInt_toNat_bits : BitVec.ofInt 64 x.bits.toNat = x.bits := by
  rw [BitVec.ofInt_natCast, BitVec.ofNat_toNat, BitVec.setWidth_eq]

theorem add_eq : x.add y = ofNumber (x.bits.toNat + y.number M) := by
  rw [ofNumber, BitVec.ofInt_add, ofInt_toNat_bits, ← Operand.pattern_eq_ofInt, add]

theorem sub_eq : x.sub y = ofNumber (x.bits.toNat - y.number M) := by
  rw [ofNumber, Int.sub_eq_add_neg, BitVec.ofInt_add, ofInt_toNat_bits, BitVec.ofInt_neg,
    ← Operand.pattern_eq_ofInt, ← BitVec.sub_eq_add_neg, sub]

theorem mul_eq : x.mul y = ofNumber (x.bits.toNat * y.number M) := by
  rw [ofNumber, BitVec.ofInt_mul, ofInt_toNat_bits, ← Operand.pattern_eq_ofInt, mul]

theorem add_ofNumber : (ofNumber k : Value M v).add y = ofNumber (k + y.number M) := by
  rw [add_eq]
  exact ofNumber_congr ((modEq_ofNumber k).add_right _)

theorem sub_ofNumber : (ofNumber k : Value M v).sub y = ofNumber (k - y.number M) := by
  rw [sub_eq]
  exact ofNumber_congr ((modEq_ofNumber k).sub_right _)

theorem mul_ofNumber : (ofNumber k : Value M v).mul y = ofNumber (k * y.number M) := by
  rw [mul_eq]
  exact ofNumber_congr ((modEq_ofNumber k).mul_right _)

/-- The number of a value as an operand is the number of its pattern. -/
theorem number_operand : x.operand.number M = x.bits.toNat := by
  change ((M.truncate x.bits).toNat : Int) = x.bits.toNat
  rw [truncate_bits]

/-- The number of a value as an operand is the integer, up to multiples of the number of words. -/
theorem modEq_number_operand {u : View} :
    (ofNumber l : Value M u).operand.number M ≡ l [ZMOD 2 ^ M.bits] := by
  rw [number_operand]
  exact modEq_ofNumber l

theorem add_operand_ofNumber {u : View} :
    (ofNumber k : Value M v).add (ofNumber l : Value M u).operand = ofNumber (k + l) := by
  rw [add_ofNumber]
  exact ofNumber_congr ((modEq_number_operand l).add_left _)

theorem sub_operand_ofNumber {u : View} :
    (ofNumber k : Value M v).sub (ofNumber l : Value M u).operand = ofNumber (k - l) := by
  rw [sub_ofNumber]
  exact ofNumber_congr ((modEq_number_operand l).sub_left _)

end Arithmetic

end Value

end MachineWord
