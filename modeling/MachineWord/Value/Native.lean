import Mathlib
import MachineWord.Value.Number

/-!
# Values of native integers

An int has the value of the integer that it stands for, as a signed number or as an unsigned one.
The low 32 bits of a value are the remainder around zero of every integer that it is the value of
(`toInt_ofNumber`). So each int is recovered from both of its values.
-/

set_option autoImplicit false

namespace MachineWord

namespace Value

variable {M : Model} {v : View}

theorem ofInt_eq (n : Int32) : (ofInt n : Value M v) = ofNumber n.toInt := rfl

theorem ofUnsignedInt_eq (n : Int32) :
    (ofUnsignedInt n : Value M v) = ofNumber (n.toInt % 2 ^ 32) := by
  have pattern : n.toInt % 2 ^ 32 = (n.toBitVec.toNat : Int) := by
    have wrapped : (n.toBitVec.toNat : Int).bmod (2 ^ 32) % (2 ^ 32 : Nat) =
        n.toBitVec.toNat % (2 ^ 32 : Nat) := Int.bmod_emod
    rw [← Int32.toInt_toBitVec, BitVec.toInt_eq_toNat_bmod]
    exact wrapped.trans (by exact_mod_cast Nat.mod_eq_of_lt n.toBitVec.isLt)
  rw [ofUnsignedInt, ofNumber, pattern, BitVec.ofInt_natCast, BitVec.ofNat_toNat]

/-- Integers that agree modulo a number have the same remainder around zero. -/
theorem bmod_congr {k l : Int} {n : Nat} (same : k ≡ l [ZMOD n]) : k.bmod n = l.bmod n := by
  rw [← Int.emod_bmod, same, Int.emod_bmod]

/-- The int of a value is an integer that the value stands for, taken into the range of ints. -/
theorem toInt_ofNumber (k : Int) : (ofNumber k : Value M v).toInt.toInt = k.bmod (2 ^ 32) := by
  have pattern : ((ofNumber k : Value M v).bits.toNat : Int) ≡ k [ZMOD 2 ^ 32] :=
    (modEq_ofNumber k).of_dvd (pow_dvd_pow 2 M.le_bits)
  rw [toInt, Int32.toInt_ofBitVec, BitVec.toInt_setWidth]
  exact bmod_congr pattern

theorem toInt_ofInt (n : Int32) : (ofInt n : Value M v).toInt = n := by
  apply Int32.toInt_inj.1
  rw [ofInt_eq, toInt_ofNumber, ← Int32.toInt_toBitVec]
  exact BitVec.toInt_bmod_cancel _

theorem toInt_ofUnsignedInt (n : Int32) : (ofUnsignedInt n : Value M v).toInt = n := by
  have unsigned : n.toInt % 2 ^ 32 ≡ n.toInt [ZMOD (2 ^ 32 : Nat)] := Int.mod_modEq _ _
  apply Int32.toInt_inj.1
  rw [ofUnsignedInt_eq, toInt_ofNumber, bmod_congr unsigned, ← Int32.toInt_toBitVec]
  exact BitVec.toInt_bmod_cancel _

end Value

end MachineWord
