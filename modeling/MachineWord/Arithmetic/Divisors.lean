import Mathlib
import MachineWord.Arithmetic.Shared
import MachineWord.Register.Query
import MachineWord.Value.Number

/-!
# Operands modulo the number of words

Division, rounding and alignment see an operand only as a remainder modulo the number of words.
Unsigned arithmetic takes the one that is not negative (`Operand.residue`), and division of offsets
the one that lies around zero. An operand is refused as a divisor if the remainder is zero, and as
an alignment if it is not a power of two.
-/

set_option autoImplicit false

namespace MachineWord

namespace Operand

variable (M : Model) (y : Operand)

/-- The unsigned number of the word of an operand. -/
def residue : Nat := (y.pattern M).toNat % 2 ^ M.bits

theorem residue_lt : y.residue M < 2 ^ M.bits := Nat.mod_lt _ (Nat.two_pow_pos _)

theorem toNat_wordPattern : (y.wordPattern M).toNat = y.residue M := M.toNat_truncate _

/-- The residue is the remainder of the number that the operand stands for. -/
theorem natCast_residue : (y.residue M : Int) = y.number M % 2 ^ M.bits := by
  have sum := Value.toNat_bits_ofNumber (M := M) (v := .word) (y.number M)
  rwa [Value.ofNumber, ← pattern_eq_ofInt, Value.bits_ofBits, Model.toNat_truncate] at sum

theorem toInt_signed : (y.signed M).toInt = (y.number M).bmod (2 ^ M.bits) := by
  have around : ((y.residue M : Nat) : Int).bmod (2 ^ M.bits) =
      ((y.pattern M).toNat : Int).bmod (2 ^ M.bits) := by
    rw [residue, Int.natCast_mod, Int.emod_bmod]
  rw [signed, Value.toInt_signExtend, ← around, natCast_residue]
  exact_mod_cast Int.emod_bmod (y.number M) (2 ^ M.bits)

theorem residue_eq_zero_iff : y.residue M = 0 ↔ (y.number M).bmod (2 ^ M.bits) = 0 := by
  rw [← Int.dvd_iff_bmod_eq_zero, ← Int.natCast_eq_zero, natCast_residue]
  push_cast
  exact Int.dvd_iff_emod_eq_zero.symm

/-! ## Divisors and alignments -/

variable {M y} {v : View}

theorem divisor_of_residue (zero : y.residue M = 0) :
    y.divisor M v = .error (.divisionByZero v) := by
  have none : y.wordPattern M = 0 := BitVec.eq_of_toNat_eq ((y.toNat_wordPattern M).trans zero)
  rw [divisor, if_pos none]

theorem divisor_eq (nonzero : y.residue M ≠ 0) : y.divisor M v = .ok (y.wordPattern M) := by
  have some : y.wordPattern M ≠ 0 := fun zero => nonzero (by
    rw [← toNat_wordPattern, zero]
    rfl)
  rw [divisor, if_neg some]

theorem signed_eq_zero_iff : y.signed M = 0 ↔ y.residue M = 0 := by
  rw [residue_eq_zero_iff, ← toInt_signed, ← Int64.toInt_inj]
  rfl

theorem signedDivisor_of_residue (zero : y.residue M = 0) :
    y.signedDivisor M v = .error (.divisionByZero v) := by
  rw [signedDivisor, if_pos (signed_eq_zero_iff.2 zero)]

theorem signedDivisor_eq (nonzero : y.residue M ≠ 0) :
    y.signedDivisor M v = .ok (y.signed M) := by
  rw [signedDivisor, if_neg (mt signed_eq_zero_iff.1 nonzero)]

/-- A power of two that is a word divides the number of words. -/
theorem residue_dvd (power : (y.residue M).isPowerOfTwo) : y.residue M ∣ 2 ^ M.bits := by
  have small := y.residue_lt M
  obtain ⟨k, size⟩ := power
  rw [size] at small ⊢
  exact pow_dvd_pow 2 ((Nat.pow_lt_pow_iff_right (by decide)).1 small).le

theorem alignment_of_not_isPowerOfTwo (other : ¬ (y.residue M).isPowerOfTwo) :
    y.alignment M v = .error (.alignment v (y.residue M)) := by
  rw [alignment, toNat_wordPattern, if_neg other]

theorem alignment_eq (power : (y.residue M).isPowerOfTwo) :
    y.alignment M v = .ok (y.wordPattern M) := by
  rw [alignment, toNat_wordPattern, if_pos power]

end Operand

/-! ## Refusals -/

section Refusals

variable {α : Type} {outcome : Option (Except Fault α)} {wording : String}

/-- What is done with a value, or asked about it, is refused in these words. -/
def IsRefused (outcome : Option (Except Fault α)) (wording : String) : Prop :=
  ∃ fault, outcome = some (.error fault) ∧ fault.message = wording

/-- What has a result is not refused. -/
theorem isRefused_iff {P : Prop} (refused : P → IsRefused outcome wording)
    (result : ¬ P → ∃ a, outcome = some (.ok a)) : IsRefused outcome wording ↔ P := by
  refine ⟨?_, refused⟩
  rintro ⟨fault, failed, -⟩
  by_contra other
  obtain ⟨a, succeeded⟩ := result other
  rw [succeeded] at failed
  cases failed

end Refusals

end MachineWord
