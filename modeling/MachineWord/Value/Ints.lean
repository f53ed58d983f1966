import Mathlib
import MachineWord.ByteOrder
import MachineWord.Value.Lemmas

/-!
# The ints of a word

A word in memory is also a row of ints, one or two of them. Where an int lies within the word
depends on the byte order: the first int holds the low bits if the least significant byte comes
first, and the high bits otherwise. Every bit of a word belongs to just one of its ints, so a
word is the sum of its ints at their positions (`toNat_bits_eq_sum`), and two words that have
all but one of their ints in common differ in the bits of that int only
(`getLsbD_of_intAt`).
-/

set_option autoImplicit false

namespace MachineWord

namespace Model

variable (M : Model)

/-- The position within a word of its int with a number. -/
def intShift (order : ByteOrder) (k : Nat) : Nat :=
  match order with
  | .little => 32 * k
  | .big => 32 * (M.intsPerWord - 1 - k)

variable {M}

/-- Every bit of a word lies in an int. -/
theorem exists_intShift (order : ByteOrder) {b : Nat} (inside : b < M.bits) :
    ∃ k < M.intsPerWord, M.intShift order k ≤ b ∧ b < M.intShift order k + 32 := by
  rw [bits_eq_intsPerWord] at inside
  cases order with
  | little =>
      refine ⟨b / 32, by omega, ?_⟩
      rw [intShift]
      omega
  | big =>
      refine ⟨M.intsPerWord - 1 - b / 32, by omega, ?_⟩
      rw [intShift]
      omega

end Model

namespace Value

variable {M : Model} {v : View} {order : ByteOrder}

/-- The int with a number among those that a word is made of. -/
def intAt (x : Value M v) (order : ByteOrder) (k : Nat) : Int32 :=
  Int32.ofBitVec (x.bits.extractLsb' (M.intShift order k) 32)

theorem toNat_intAt (x : Value M v) (order : ByteOrder) (k : Nat) :
    (x.intAt order k).toBitVec.toNat = x.bits.toNat / 2 ^ M.intShift order k % 2 ^ 32 := by
  rw [intAt, Int32.toBitVec_ofBitVec, BitVec.extractLsb'_toNat, Nat.shiftRight_eq_div_pow]

theorem getLsbD_intAt (x : Value M v) (order : ByteOrder) (k : Nat) {b : Nat} (small : b < 32) :
    (x.intAt order k).toBitVec.getLsbD b = x.bits.getLsbD (M.intShift order k + b) := by
  rw [intAt, Int32.toBitVec_ofBitVec, BitVec.getLsbD_extractLsb', decide_eq_true small,
    Bool.true_and]

/-- There are no bits beyond the size of a word. -/
theorem getLsbD_bits_of_le (x : Value M v) {b : Nat} (beyond : M.bits ≤ b) :
    x.bits.getLsbD b = false := by
  have words : 2 ^ M.bits ≤ 2 ^ b := Nat.pow_le_pow_right (by decide) beyond
  exact Nat.testBit_lt_two_pow (x.toNat_bits_lt.trans_le words)

/-- Two words that have all other ints in common differ in the bits of one int. -/
theorem getLsbD_of_intAt {old new : Value M v} {k : Nat}
    (others : ∀ i < M.intsPerWord, i ≠ k → new.intAt order i = old.intAt order i) (b : Nat) :
    new.bits.getLsbD b =
      if M.intShift order k ≤ b ∧ b < M.intShift order k + 32 then
        (new.intAt order k).toBitVec.getLsbD (b - M.intShift order k)
      else old.bits.getLsbD b := by
  by_cases here : M.intShift order k ≤ b ∧ b < M.intShift order k + 32
  · rw [if_pos here, getLsbD_intAt _ _ _ (by omega), Nat.add_sub_cancel' here.1]
  · rw [if_neg here]
    by_cases inside : b < M.bits
    · obtain ⟨i, in_word, lower, upper⟩ := Model.exists_intShift order inside
      have other : i ≠ k := by
        rintro rfl
        exact here ⟨lower, upper⟩
      have bit := congrArg (fun n => n.toBitVec.getLsbD (b - M.intShift order i))
        (others i in_word other)
      simpa only [getLsbD_intAt _ _ _ (show b - M.intShift order i < 32 by omega),
        Nat.add_sub_cancel' lower] using bit
    · rw [new.getLsbD_bits_of_le (by omega), old.getLsbD_bits_of_le (by omega)]

/-- A word is the sum of its ints at their positions. -/
theorem toNat_bits_eq_sum (x : Value M v) (order : ByteOrder) :
    x.bits.toNat = ∑ k ∈ Finset.range M.intsPerWord,
      (x.intAt order k).toBitVec.toNat * 2 ^ M.intShift order k := by
  have small := x.toNat_bits_lt
  simp only [toNat_intAt]
  generalize x.bits.toNat = n at small ⊢
  rcases M with ⟨_ | _, mode⟩
  · have ints : Model.intsPerWord ⟨.w32, mode⟩ = 1 := by
      simp [Model.intsPerWord, Model.bytes, WordSize.bytes]
    change n < 2 ^ 32 at small
    rw [ints, Finset.sum_range_one]
    cases order <;> simp [Model.intShift, ints] <;> omega
  · have ints : Model.intsPerWord ⟨.w64, mode⟩ = 2 := by
      simp [Model.intsPerWord, Model.bytes, WordSize.bytes]
    change n < 2 ^ 64 at small
    rw [ints, Finset.sum_range_succ, Finset.sum_range_one]
    cases order <;> simp [Model.intShift, ints] <;> omega

end Value

end MachineWord
