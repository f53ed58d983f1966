import Mathlib
import MachineWord.Model

/-!
# Patterns as numbers

A pattern that has been cut off at the size of a word is the remainder of the pattern modulo
the number of words. A word has the bits and the bytes of its ints.
-/

set_option autoImplicit false

namespace MachineWord

namespace Model

variable (M : Model)

/-- Cutting off keeps the remainder modulo the number of words. -/
@[simp] theorem toNat_truncate (pattern : BitVec 64) :
    (M.truncate pattern).toNat = pattern.toNat % 2 ^ M.bits := by
  have bound : pattern.toNat % 2 ^ M.bits < 2 ^ 64 :=
    Nat.lt_of_le_of_lt (Nat.mod_le _ _) pattern.isLt
  rw [truncate_eq_setWidth, BitVec.toNat_setWidth, BitVec.toNat_setWidth, Nat.mod_eq_of_lt bound]

theorem bits_pos : 0 < M.bits := by
  rcases M with ⟨_ | _, _⟩ <;> simp [bits, WordSize.bits]

/-- A word has room for an int. -/
theorem le_bits : 32 ≤ M.bits := by
  rcases M with ⟨_ | _, _⟩ <;> simp [bits, WordSize.bits]

theorem two_pow_bits : 2 ^ M.bits = 256 ^ M.bytes := by
  rcases M with ⟨_ | _, _⟩ <;> rfl

/-- A word is one int or two. -/
theorem intsPerWord_eq : M.intsPerWord = 1 ∨ M.intsPerWord = 2 := by
  rcases M with ⟨_ | _, _⟩ <;> simp [intsPerWord, bytes, WordSize.bytes]

theorem bytes_eq_intsPerWord : M.bytes = M.intsPerWord * 4 := by
  rcases M with ⟨_ | _, _⟩ <;> simp [intsPerWord, bytes, WordSize.bytes]

theorem bits_eq_intsPerWord : M.bits = M.intsPerWord * 32 := by
  rcases M with ⟨_ | _, _⟩ <;> simp [bits, intsPerWord, bytes, WordSize.bits, WordSize.bytes]

end Model

end MachineWord
