import Mathlib
import MachineWord.Fault
import MachineWord.Value.Lemmas
import MachineWord.Value.Scan
import MachineWord.Value.Text

/-!
# Counts of the machine

The machine counts the zeros in front of a 64 bit pattern and subtracts those that are beyond a
word. The highest bit set, the number of bits needed and the number of characters that fill up
the hexadecimal digits come from further subtractions, all of numbers that have no sign: a
difference below zero is an overflow (`exactDifference`).

On the pattern of a value no subtraction overflows, and the counts are those of the value
(`countLeadingZeros_bits` and the like). On a pattern with a bit beyond a word all of them
overflow (`counts_overflow`).
-/

set_option autoImplicit false

namespace MachineWord

/-- The difference of two numbers without a sign. -/
def exactDifference (n k : Nat) : Except Fault Nat :=
  if k ≤ n then .ok (n - k) else .error .overflow

namespace Model

variable (M : Model)

/-- The number of zeros above the highest bit set of a pattern, within the size of a word. -/
def countLeadingZeros (pattern : BitVec 64) : Except Fault Nat := do
  exactDifference pattern.clz.toNat (← exactDifference 64 M.bits)

/-- The number of bits that a pattern needs. -/
def countEffectiveBits (pattern : BitVec 64) : Except Fault Nat := do
  exactDifference M.bits (← M.countLeadingZeros pattern)

/-- The index of the highest bit set of a pattern. -/
def findHighestSetBit (pattern : BitVec 64) : Except Fault (Option Nat) :=
  if pattern = 0 then .ok none
  else do
    return some (← exactDifference (← exactDifference M.bits 1) (← M.countLeadingZeros pattern))

/-- The hexadecimal digits of a pattern, filled up to the digits of a word. -/
def fillHex (fill : Char) (pattern : BitVec 64) : Except Fault String := do
  let digits := Numeral.hex pattern.toNat
  let missing ← exactDifference (M.bits / 4) digits.length
  return String.ofList (List.replicate missing fill) ++ digits

end Model

/-! ## Sizes of patterns -/

theorem exactDifference_of_le {n k : Nat} (le : k ≤ n) : exactDifference n k = .ok (n - k) :=
  if_pos le

theorem exactDifference_of_lt {n k : Nat} (lt : n < k) :
    exactDifference n k = .error .overflow :=
  if_neg (Nat.not_le.2 lt)

/-- The zeros in front of a pattern are the bits that it does not need. -/
theorem toNat_clz (p : BitVec 64) : p.clz.toNat = 64 - p.toNat.size := by
  have upper : p.toNat.size ≤ 64 - p.clz.toNat := Nat.size_le.2 BitVec.toNat_lt_two_pow_sub_clz
  have within : p.clz.toNat ≤ 64 := BitVec.le_def.1 BitVec.clz_le
  by_cases zero : p = 0
  · rw [BitVec.clz_eq_iff_eq_zero.2 zero, zero]
    rfl
  · have lower : 64 - 1 - p.clz.toNat < p.toNat.size :=
      Nat.lt_size.2 (BitVec.two_pow_sub_clz_le_toNat_of_ne_zero (by decide) zero)
    have nonzero : p.clz.toNat < 64 := BitVec.lt_def.1 (BitVec.clz_lt_iff_ne_zero.2 zero)
    omega

/-- The highest bit set of a number is the last of the bits that it needs. -/
theorem log2_eq_size_sub_one {n : Nat} (positive : n ≠ 0) : n.log2 = n.size - 1 := by
  have bits : 0 < n.size := Nat.size_pos.2 (Nat.pos_of_ne_zero positive)
  refine (Nat.log2_eq_iff positive).2 ⟨?_, ?_⟩
  · exact Nat.lt_size.1 (Nat.sub_one_lt (Nat.pos_iff_ne_zero.1 bits))
  · rw [Nat.sub_add_cancel bits]
    exact Nat.lt_size_self n

/-- The numbers of a range that satisfy a test, from the last one down to the first that does
not. -/
theorem length_takeWhile_downward {test : Nat → Bool} {n k : Nat} (le : k ≤ n)
    (above : ∀ i, k ≤ i → i < n → test i = true) (below : ∀ i, i + 1 = k → test i = false) :
    ((List.range n).reverse.takeWhile test).length = n - k := by
  induction n with
  | zero => rw [List.range_zero, List.reverse_nil, List.takeWhile_nil, List.length_nil, Nat.zero_sub]
  | succ n ih =>
      rw [List.range_succ, List.reverse_append, List.reverse_singleton, List.singleton_append]
      rcases Nat.lt_or_eq_of_le le with lt | rfl
      · rw [List.takeWhile_cons_of_pos (above n (Nat.le_of_lt_succ lt) n.lt_succ_self),
          List.length_cons, ih (Nat.le_of_lt_succ lt) fun i lower upper =>
            above i lower (upper.trans n.lt_succ_self)]
        omega
      · rw [List.takeWhile_cons_of_neg (by rw [below n rfl]; decide), List.length_nil, Nat.sub_self]

/-- The digits of a number are not more than those of a word if the number is a word. -/
theorem Model.length_hex_le_iff (M : Model) {n : Nat} :
    (Nat.toDigits 16 n).length ≤ M.bits / 4 ↔ n < 2 ^ M.bits := by
  have digits : 0 < M.bits / 4 := Nat.div_pos (Nat.le_trans (by decide) M.le_bits) (by decide)
  have whole : M.bits = 4 * (M.bits / 4) := by
    have bytes := M.bits_eq
    omega
  have words : 2 ^ M.bits = 16 ^ (M.bits / 4) :=
    (congrArg (2 ^ ·) whole).trans (Nat.pow_mul 2 4 (M.bits / 4))
  rw [words]
  exact Nat.length_toDigits_le_iff (by decide) digits

/-! ## Counts of values -/

namespace Value

variable {M : Model} {v : View} (x : Value M v)

theorem size_bits_le : x.bits.toNat.size ≤ M.bits := Nat.size_le.2 x.toNat_bits_lt

theorem leadingZeros_eq : x.leadingZeros = M.bits - x.bits.toNat.size := by
  apply length_takeWhile_downward x.size_bits_le
  · intro i lower _
    have clear : x.bits.toNat.testBit i = false :=
      Nat.testBit_lt_two_pow (Nat.size_le.1 lower)
    rw [testBit, BitVec.getLsbD, clear, Bool.not_false]
  · intro i highest
    have nonzero : x.bits.toNat ≠ 0 := fun zero => by
      rw [zero, Nat.size_zero] at highest
      contradiction
    have set : x.bits.toNat.testBit i = true := by
      rw [← Nat.add_sub_cancel i 1, highest, ← log2_eq_size_sub_one nonzero]
      exact Nat.testBit_log2 nonzero
    rw [testBit, BitVec.getLsbD, set, Bool.not_true]

theorem effectiveBits_eq : x.effectiveBits = x.bits.toNat.size := by
  rw [effectiveBits, leadingZeros_eq]
  exact Nat.sub_sub_self x.size_bits_le

/-- Counting leading zeros does not overflow on the pattern of a value. -/
theorem countLeadingZeros_bits : M.countLeadingZeros x.bits = .ok x.leadingZeros := by
  have size := x.size_bits_le
  have wide := M.bits_le
  rw [Model.countLeadingZeros, exactDifference_of_le wide, leadingZeros_eq]
  change exactDifference _ (64 - M.bits) = _
  rw [toNat_clz, exactDifference_of_le (by omega)]
  congr 1
  omega

theorem countEffectiveBits_bits : M.countEffectiveBits x.bits = .ok x.effectiveBits := by
  rw [Model.countEffectiveBits, countLeadingZeros_bits]
  exact exactDifference_of_le (x.leadingZeros_eq ▸ Nat.sub_le _ _)

theorem findHighestSetBit_bits : M.findHighestSetBit x.bits = .ok x.highestSetBit? := by
  rw [Model.findHighestSetBit, highestSetBit?, isZero]
  by_cases zero : x.bits = 0
  · rw [if_pos zero, if_pos (beq_iff_eq.2 zero)]
  · have nonzero : x.bits.toNat ≠ 0 := fun none => zero (BitVec.eq_of_toNat_eq none)
    have bits : 0 < x.bits.toNat.size := Nat.size_pos.2 (Nat.pos_of_ne_zero nonzero)
    have size := x.size_bits_le
    rw [if_neg zero, if_neg (mt beq_iff_eq.1 zero), exactDifference_of_le M.bits_pos,
      countLeadingZeros_bits, leadingZeros_eq, log2_eq_size_sub_one nonzero]
    change (exactDifference (M.bits - 1) _ >>= fun index => pure (some index)) = _
    rw [exactDifference_of_le (by omega)]
    change Except.ok (some _) = _
    congr 2
    omega

/-- The digits of the pattern of a value are not more than those of a word. -/
theorem fillHex_bits (fill : Char) : M.fillHex fill x.bits = .ok (x.paddedHex fill) := by
  have digits := M.length_hex_le_iff.2 x.toNat_bits_lt
  rw [Model.fillHex, paddedHex, Numeral.paddedHex, List.leftpad, Numeral.hex, Numeral.render,
    String.length_ofList, exactDifference_of_le digits, String.ofList_append]
  rfl

end Value

/-- On a pattern with a bit beyond a word every count overflows. -/
theorem Model.counts_overflow (M : Model) {p : BitVec 64} (beyond : 2 ^ M.bits ≤ p.toNat) :
    M.countLeadingZeros p = .error .overflow ∧ M.countEffectiveBits p = .error .overflow ∧
      M.findHighestSetBit p = .error .overflow ∧
      ∀ fill, M.fillHex fill p = .error .overflow := by
  have size : M.bits < p.toNat.size := Nat.lt_size.2 beyond
  have wide := M.bits_le
  have within : p.toNat.size ≤ 64 := Nat.size_le.2 p.isLt
  have zeros : M.countLeadingZeros p = .error .overflow := by
    rw [countLeadingZeros, exactDifference_of_le wide]
    change exactDifference _ (64 - M.bits) = _
    rw [toNat_clz, exactDifference_of_lt (by omega)]
  refine ⟨zeros, ?_, ?_, ?_⟩
  · rw [countEffectiveBits, zeros]
    rfl
  · have nonzero : p ≠ 0 := by
      rintro rfl
      exact absurd beyond (Nat.not_le.2 (Nat.two_pow_pos _))
    rw [findHighestSetBit, if_neg nonzero, exactDifference_of_le M.bits_pos, zeros]
    rfl
  · intro fill
    have digits := Nat.not_le.1 (mt M.length_hex_le_iff.1 (Nat.not_lt.2 beyond))
    rw [fillHex, Numeral.hex, Numeral.render, String.length_ofList, exactDifference_of_lt digits]
    rfl

end MachineWord
