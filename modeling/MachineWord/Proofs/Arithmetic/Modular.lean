import Mathlib
import MachineWord.Arithmetic.Shared
import MachineWord.Value.Number

/-!
# Arithmetic modulo the number of words

Sums, differences and products never fail. Under every view that has arithmetic they are those of
the integers, the pattern of the value and the number that the operand stands for, whatever its
type, and are taken modulo the number of words in the end (`arithmetic_modulo_words`). The long of
an offset is the same result in the range of signed numbers. So an addition and a subtraction of
the same operand undo each other, and the difference of two words leads from one to the other
under any views.
-/

set_option autoImplicit false

namespace MachineWord

variable {M : Model} {v : View}

namespace Operation

/-- The operation does not fail, and its result is a word that is congruent to an integer. -/
def Yields (op : Operation) (x : Value M v) (k : Int) : Prop :=
  ∃ z, op.perform? x = some (.ok z) ∧ z.bits.toNat < 2 ^ M.bits ∧
    (z.bits.toNat : Int) ≡ k [ZMOD 2 ^ M.bits]

/-- The operation does not fail, and its result stands for the signed number of the size of a
word that is congruent to an integer. -/
def YieldsSigned (op : Operation) (x : Offset M) (k : Int) : Prop :=
  ∃ z, op.perform? x = some (.ok z) ∧ z.toLong.toInt = k.bmod (2 ^ M.bits)

/-- The operation does not fail on the result of another one, and brings back the value that this
one began with. -/
def Undoes (second first : Operation) (x : Value M v) : Prop :=
  ∃ z, first.perform? x = some (.ok z) ∧ second.perform? z = some (.ok x)

variable {op : Operation}

theorem yields_of_ofNumber {x : Value M v} {k : Int}
    (performed : op.perform? x = some (.ok (.ofNumber k))) : op.Yields x k :=
  ⟨_, performed, Value.toNat_bits_lt _, Value.modEq_ofNumber k⟩

theorem yieldsSigned_of_ofNumber {x : Offset M} {k : Int}
    (performed : op.perform? x = some (.ok (.ofNumber k))) : op.YieldsSigned x k :=
  ⟨_, performed, Value.toLong_ofNumber k⟩

section Integers

variable (arithmetic : v.isArithmetic = true) (k : Int) (y : Operand)

include arithmetic

theorem perform?_add :
    (add y).perform? (.ofNumber k : Value M v) = some (.ok (.ofNumber (k + y.number M))) := by
  rw [perform?_of_isShared rfl arithmetic, onUnsigned, Value.add_ofNumber]

theorem perform?_sub :
    (sub y).perform? (.ofNumber k : Value M v) = some (.ok (.ofNumber (k - y.number M))) := by
  rw [perform?_of_isShared rfl arithmetic, onUnsigned, Value.sub_ofNumber]

theorem perform?_mul :
    (mul y).perform? (.ofNumber k : Value M v) = some (.ok (.ofNumber (k * y.number M))) := by
  rw [perform?_of_isShared rfl arithmetic, onUnsigned, Value.mul_ofNumber]

/-- The difference of two integers leads from one to the other, whatever the views of the words
in between. -/
theorem perform?_add_difference (l : Int) (t : View) :
    (add (.ofNumber (l - k) : Value M t).operand).perform? (.ofNumber k : Value M v) =
      some (.ok (.ofNumber l)) := by
  rw [perform?_of_isShared rfl arithmetic, onUnsigned, Value.add_operand_ofNumber,
    add_sub_cancel]

end Integers

theorem perform?_neg (k : Int) :
    neg.perform? (.ofNumber k : Offset M) = some (.ok (.ofNumber (-k))) := by
  have negated : Offset.neg (.ofNumber k : Offset M) = .ofNumber (-k) := by
    rw [Offset.neg_eq, Value.ofNumber, Value.ofNumber, BitVec.ofInt_neg]
    exact Value.ofBits_congr ((Value.lowBits_ofBits _).neg M.bits_le)
  exact congrArg (some ∘ Except.ok) negated

end Operation

open Operation

/-- **Word arithmetic is arithmetic modulo the number of words.** Addresses, sizes and offsets are
added to, subtracted from and multiplied without failing, by an operand of any type. The result
is the word that is congruent to the sum, difference or product of the integers, and for an offset
its long is the signed one. A negated offset is the offset subtracted from zero. Adding and
subtracting undo each other, and a word is reached from any other by adding their difference,
whichever views the two words and the difference are seen under. -/
theorem arithmetic_modulo_words (M : Model) (y : Operand) :
    (∀ v : View, v.isArithmetic = true → ∀ x : Value M v,
      (add y).Yields x (x.bits.toNat + y.number M) ∧
      (sub y).Yields x (x.bits.toNat - y.number M) ∧
      (mul y).Yields x (x.bits.toNat * y.number M) ∧
      (sub y).Undoes (add y) x ∧ (add y).Undoes (sub y) x) ∧
    (∀ x : Offset M,
      (add y).YieldsSigned x (x.toLong.toInt + y.number M) ∧
      (sub y).YieldsSigned x (x.toLong.toInt - y.number M) ∧
      (mul y).YieldsSigned x (x.toLong.toInt * y.number M) ∧
      neg.Yields x (-x.bits.toNat) ∧ neg.YieldsSigned x (-x.toLong.toInt) ∧
      neg.perform? x = (sub x.operand).perform? (.zero : Offset M)) ∧
    (∀ (a b : Word M) (u w s t : View), u.isArithmetic = true → w.isArithmetic = true →
      ∃ difference, (sub (a.as s).operand).perform? (b.as w) = some (.ok difference) ∧
        (add (difference.as t).operand).perform? (a.as u) = some (.ok (b.as u))) := by
  refine ⟨?_, ?_, ?_⟩
  · intro v arithmetic x
    have whole := x.ofNumber_bits
    have sum := perform?_add (M := M) arithmetic x.bits.toNat y
    have difference := perform?_sub (M := M) arithmetic x.bits.toNat y
    have product := perform?_mul (M := M) arithmetic x.bits.toNat y
    have back := perform?_sub (M := M) arithmetic (x.bits.toNat + y.number M) y
    have forth := perform?_add (M := M) arithmetic (x.bits.toNat - y.number M) y
    rw [whole] at sum difference product
    rw [Int.add_sub_cancel, whole] at back
    rw [Int.sub_add_cancel, whole] at forth
    exact ⟨yields_of_ofNumber sum, yields_of_ofNumber difference, yields_of_ofNumber product,
      ⟨_, sum, back⟩, ⟨_, difference, forth⟩⟩
  · intro x
    have signed := x.ofNumber_toLong
    have sum := perform?_add (M := M) (v := .offset) rfl x.toLong.toInt y
    have difference := perform?_sub (M := M) (v := .offset) rfl x.toLong.toInt y
    have product := perform?_mul (M := M) (v := .offset) rfl x.toLong.toInt y
    have negated := perform?_neg (M := M) x.toLong.toInt
    have negated' := perform?_neg (M := M) x.bits.toNat
    have fromZero := perform?_sub (M := M) (v := .offset) rfl 0 x.operand
    rw [signed] at sum difference product negated
    rw [x.ofNumber_bits] at negated'
    rw [Value.number_operand, Int.zero_sub] at fromZero
    exact ⟨yieldsSigned_of_ofNumber sum, yieldsSigned_of_ofNumber difference,
      yieldsSigned_of_ofNumber product, yields_of_ofNumber negated',
      yieldsSigned_of_ofNumber negated, negated'.trans fromZero.symm⟩
  · intro a b u w s t arithmetic arithmetic'
    have difference := perform?_sub (M := M) arithmetic' b.bits.toNat (a.as s).operand
    have sum := perform?_add_difference (M := M) arithmetic a.bits.toNat b.bits.toNat t
    rw [Value.number_operand, Value.bits_as, ← Value.as_ofNumber (v := .word) w b.bits.toNat,
      b.ofNumber_bits] at difference
    rw [← Value.as_ofNumber (v := .word) u a.bits.toNat, a.ofNumber_bits,
      ← Value.as_ofNumber (v := .word) u b.bits.toNat, b.ofNumber_bits] at sum
    exact ⟨_, difference, sum⟩

/-- A product that wraps at 64 bits before it is cut off at 32, and a difference of two words that
is taken as an offset and added as an untyped word. -/
theorem arithmetic_modulo_words_of_largest_factor :
    let y : Operand := .unsignedLong 0xffffffffffffffff
    let x : Size .hosted32 := .ofBits 0xfffffffe
    (mul y).Yields x (0xfffffffe * 0xffffffffffffffff) ∧ (sub y).Undoes (add y) x ∧
    ∃ difference, (sub x.operand).perform? (.ofBits 5 : Offset .hosted32) = some (.ok difference) ∧
      (add (difference.as .word).operand).perform? x = some (.ok (.ofBits 5)) := by
  intro y x
  obtain ⟨modular, -, differences⟩ := arithmetic_modulo_words .hosted32 y
  obtain ⟨-, -, product, undone, -⟩ := modular .size rfl x
  have bits : x.bits.toNat = 0xfffffffe := by decide
  have number : y.number .hosted32 = 0xffffffffffffffff := by decide
  rw [bits, number] at product
  exact ⟨product, undone, differences (x.as .word) (.ofBits 5) .size .offset .size .word rfl rfl⟩

end MachineWord
