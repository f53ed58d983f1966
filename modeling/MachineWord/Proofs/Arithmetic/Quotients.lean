import Mathlib
import MachineWord.Arithmetic.Divisors

/-!
# Division of offsets

Offsets are divided as signed numbers. The quotient is truncated towards zero, and the remainder
has the sign of the dividend (`IsTruncated`). Of the integers that stand in a word as signed
numbers only one quotient does not: that of the least one and `-1`. It wraps around to the least
one, and leaves no remainder (`offsets_divide_towards_zero`). Modulo the number of words the
quotient is right even then, so the product with the divisor and the remainder add up to the
dividend whatever the divisor is.
-/

set_option autoImplicit false

namespace MachineWord

/-- An integer is divided with a quotient that is truncated towards zero and a remainder that is
smaller than the divisor and has the sign of the dividend. -/
structure IsTruncated (dividend divisor quotient remainder : Int) : Prop where
  quotient_eq : quotient = dividend.tdiv divisor
  whole : quotient * divisor + remainder = dividend
  small : |remainder| < |divisor|
  sign : remainder = 0 ∨ remainder.sign = dividend.sign

namespace Model

/-- The integers that stand in a word as signed numbers. -/
def HasSigned (M : Model) (k : Int) : Prop := -2 ^ (M.bits - 1) ≤ k ∧ k < 2 ^ (M.bits - 1)

variable (M : Model)

theorem two_pow_bits_eq : 2 ^ M.bits = 2 * 2 ^ (M.bits - 1) := by
  rw [← Nat.pow_succ', Nat.succ_eq_add_one, Nat.sub_add_cancel M.bits_pos]

/-- Signed numbers are the remainders that lie around zero. -/
theorem hasSigned_iff (k : Int) : M.HasSigned k ↔ k.bmod (2 ^ M.bits) = k := by
  rw [Int.bmod_eq_iff (Nat.two_pow_pos _), Int.sub_self, two_pow_bits_eq, HasSigned]
  push_cast
  generalize (2 : Int) ^ (M.bits - 1) = half
  simp only [dvd_zero, and_true]
  omega

theorem hasSigned_bmod (k : Int) : M.HasSigned (k.bmod (2 ^ M.bits)) :=
  (M.hasSigned_iff _).2 Int.bmod_bmod

end Model

variable {M : Model}

/-! ## Quotients of integers -/

section Integers

variable {n d : Int}

theorem isTruncated_tdiv_tmod (nonzero : d ≠ 0) :
    IsTruncated n d (n.tdiv d) (n.tmod d) where
  quotient_eq := rfl
  whole := Int.tdiv_mul_add_tmod n d
  small := by
    rw [Int.abs_eq_natAbs, Int.abs_eq_natAbs, Int.natAbs_tmod]
    exact_mod_cast Nat.mod_lt _ (Int.natAbs_pos.2 nonzero)
  sign := by
    rw [Int.sign_tmod]
    split
    next divides => exact .inl (Int.tmod_eq_zero_of_dvd divides)
    next => exact .inr rfl

namespace Model.HasSigned

/-- A quotient of signed numbers is one, unless the least of them is divided by `-1`. -/
theorem tdiv (dividend : M.HasSigned n) (nonzero : d ≠ 0)
    (fits : ¬ (n = -2 ^ (M.bits - 1) ∧ d = -1)) : M.HasSigned (n.tdiv d) := by
  obtain ⟨lower, upper⟩ := dividend
  have size := Int.natAbs_tdiv n d
  have positive : (0 : Int) < 2 ^ (M.bits - 1) := by positivity
  rw [HasSigned]
  generalize (2 : Int) ^ (M.bits - 1) = half at *
  rcases lt_trichotomy d.natAbs 1 with none | one | more
  · omega
  · rcases Int.natAbs_eq_iff.1 one with rfl | rfl
    · rw [Nat.cast_one, Int.tdiv_one]
      exact ⟨lower, upper⟩
    · rw [Nat.cast_one, Int.tdiv_neg, Int.tdiv_one]
      omega
  · -- A divisor beyond one makes the quotient half as large at most.
    have halved : n.natAbs.div d.natAbs ≤ n.natAbs / 2 := Nat.div_le_div_left more (by decide)
    omega

/-- A remainder is a signed number, because it is smaller than the divisor. -/
theorem tmod (divisor : M.HasSigned d) (nonzero : d ≠ 0) : M.HasSigned (n.tmod d) := by
  obtain ⟨lower, upper⟩ := divisor
  have size : |d| ≤ 2 ^ (M.bits - 1) := abs_le.2 ⟨lower, upper.le⟩
  have bounds := abs_lt.1 ((isTruncated_tdiv_tmod (n := n) nonzero).small.trans_le size)
  exact ⟨bounds.1.le, bounds.2⟩

end Model.HasSigned

end Integers

/-! ## Offsets -/

namespace Offset

variable (x : Offset M) {y : Operand}

theorem hasSigned_toLong : M.HasSigned x.toLong.toInt := by
  rw [← x.ofNumber_toLong, Value.toLong_ofNumber]
  exact M.hasSigned_bmod _

theorem toLong_ofNumber_of_hasSigned {k : Int} (signed : M.HasSigned k) :
    (.ofNumber k : Offset M).toLong.toInt = k :=
  (Value.toLong_ofNumber k).trans ((M.hasSigned_iff k).1 signed)

theorem isRefused_of_residue (zero : y.residue M = 0) :
    IsRefused ((Operation.div y).perform? x) "Offset: division by zero" ∧
      IsRefused ((Operation.mod y).perform? x) "Offset: division by zero" := by
  have divided : x.div y = .error (.divisionByZero .offset) := by
    rw [div, Operand.signedDivisor_of_residue zero]
    rfl
  have remained : x.mod y = .error (.divisionByZero .offset) := by
    rw [mod, Operand.signedDivisor_of_residue zero]
    rfl
  exact ⟨⟨_, congrArg some divided, rfl⟩, _, congrArg some remained, rfl⟩

section Divisor

variable (nonzero : y.residue M ≠ 0)

include nonzero

/-- The quotient of the signed numbers. It may have been taken modulo `2 ^ 64` before. -/
theorem div_eq :
    x.div y = .ok (.ofNumber (x.toLong.toInt.tdiv ((y.number M).bmod (2 ^ M.bits)))) := by
  rw [div, Operand.signedDivisor_eq nonzero, ← Operand.toInt_signed]
  change Except.ok (Value.ofLong (x.toLong / y.signed M)) = _
  rw [Value.ofLong_eq, Int64.toInt_div]
  exact congrArg Except.ok (Value.ofNumber_congr (Value.bmod_modEq M.bits_le _))

theorem mod_eq :
    x.mod y = .ok (.ofNumber (x.toLong.toInt.tmod ((y.number M).bmod (2 ^ M.bits)))) := by
  rw [mod, Operand.signedDivisor_eq nonzero, ← Operand.toInt_signed]
  change Except.ok (Value.ofLong (x.toLong % y.signed M)) = _
  rw [Value.ofLong_eq, Int64.toInt_mod]

end Divisor

/-- The product of a quotient with the divisor and the remainder add up to the dividend, modulo
the number of words. -/
theorem mul_add_ofNumber {q r : Int}
    (whole : q * (y.number M).bmod (2 ^ M.bits) + r = x.toLong.toInt) :
    (mul (.ofNumber q) y).add (.ofNumber r : Offset M).operand = x := by
  have divisor : y.number M ≡ (y.number M).bmod (2 ^ M.bits) [ZMOD 2 ^ M.bits] :=
    (Value.bmod_modEq le_rfl _).symm
  rw [mul_eq, Value.mul_ofNumber, add_eq, Value.add_operand_ofNumber,
    Value.ofNumber_congr ((divisor.mul_left q).add_right r), whole, Value.ofNumber_toLong]

/-- The least offset is its own negation. -/
theorem tdiv_tmod_neg_one (least : x.toLong.toInt = -2 ^ (M.bits - 1)) :
    .ofNumber (x.toLong.toInt.tdiv (-1)) = x ∧
      (.ofNumber (x.toLong.toInt.tmod (-1)) : Offset M) = .zero := by
  have words : (2 : Int) ^ M.bits = 2 * 2 ^ (M.bits - 1) := by exact_mod_cast M.two_pow_bits_eq
  have negated : -x.toLong.toInt ≡ x.toLong.toInt [ZMOD 2 ^ M.bits] := by
    rw [least, words]
    exact Int.modEq_iff_dvd.2 ⟨-1, by ring⟩
  constructor
  · rw [Int.tdiv_neg, Int.tdiv_one, Value.ofNumber_congr negated, Value.ofNumber_toLong]
  · rw [Int.tmod_neg, Int.tmod_one]
    rfl

end Offset

open Operation

/-- **Offsets are divided as signed numbers.** Division and the remainder are refused exactly if
the divisor is zero modulo the number of words, whatever its type. Otherwise both have a result,
the quotient is truncated towards zero and the remainder belongs to it. Only the quotient of the
least signed number and `-1` is not a signed number: it wraps around to the dividend, and the
remainder is zero. In all cases the product of the quotient with the divisor and the remainder add
up to the dividend, in the arithmetic of offsets. -/
theorem offsets_divide_towards_zero (M : Model) (x : Offset M) (y : Operand) :
    (IsRefused ((div y).perform? x) "Offset: division by zero" ↔ y.residue M = 0) ∧
    (IsRefused ((mod y).perform? x) "Offset: division by zero" ↔ y.residue M = 0) ∧
    (y.residue M ≠ 0 → ∃ quotient remainder : Offset M,
      (div y).perform? x = some (.ok quotient) ∧ (mod y).perform? x = some (.ok remainder) ∧
      (Offset.mul quotient y).add remainder.operand = x ∧
      if x.toLong.toInt = -2 ^ (M.bits - 1) ∧ (y.number M).bmod (2 ^ M.bits) = -1 then
        quotient = x ∧ remainder = .zero
      else
        IsTruncated x.toLong.toInt ((y.number M).bmod (2 ^ M.bits)) quotient.toLong.toInt
          remainder.toLong.toInt) := by
  refine ⟨?_, ?_, ?_⟩
  · exact isRefused_iff (fun zero => (x.isRefused_of_residue zero).1)
      fun residue => ⟨_, congrArg some (x.div_eq residue)⟩
  · exact isRefused_iff (fun zero => (x.isRefused_of_residue zero).2)
      fun residue => ⟨_, congrArg some (x.mod_eq residue)⟩
  · intro residue
    have divisor := M.hasSigned_bmod (y.number M)
    have nonzero : (y.number M).bmod (2 ^ M.bits) ≠ 0 := mt (y.residue_eq_zero_iff M).2 residue
    have truncated := isTruncated_tdiv_tmod (n := x.toLong.toInt) nonzero
    refine ⟨_, _, congrArg some (x.div_eq residue), congrArg some (x.mod_eq residue),
      x.mul_add_ofNumber truncated.whole, ?_⟩
    split
    next wraps =>
        rw [wraps.2]
        exact x.tdiv_tmod_neg_one wraps.1
    next fits =>
        rw [Offset.toLong_ofNumber_of_hasSigned (x.hasSigned_toLong.tdiv nonzero fits),
          Offset.toLong_ofNumber_of_hasSigned (divisor.tmod nonzero)]
        exact truncated

/-- A long that is `-1` only within a word of 32 bits divides the least offset. -/
theorem offsets_divide_towards_zero_of_least :
    let x : Offset .hosted32 := .ofBits 0x80000000
    let y : Operand := .long 0xffffffff
    y.residue .hosted32 ≠ 0 ∧ (x.toLong.toInt = -2 ^ 31 ∧ (y.number .hosted32).bmod (2 ^ 32) = -1) ∧
      (div y).perform? x = some (.ok x) ∧ (mod y).perform? x = some (.ok .zero) := by
  intro x y
  obtain ⟨-, -, divided⟩ := offsets_divide_towards_zero .hosted32 x y
  have nonzero : y.residue .hosted32 ≠ 0 := by decide
  have wraps : x.toLong.toInt = -2 ^ 31 ∧ (y.number .hosted32).bmod (2 ^ 32) = -1 := by decide
  obtain ⟨quotient, remainder, first, second, -, results⟩ := divided nonzero
  obtain ⟨rfl, rfl⟩ := (if_pos wraps).mp results
  exact ⟨nonzero, wraps, first, second⟩

example : (div (.int (-2))).perform? (.ofInt (-7) : Offset .target32) = some (.ok (.ofInt 3)) := by
  decide

end MachineWord
