import Mathlib
import MachineWord.Arithmetic.Divisors

/-!
# Multiples next to a value

The multiples of a number next to an integer are found by a remainder (`multipleBelow`,
`multipleAbove`). Rounding and alignment are these multiples, taken modulo the number of words in
the end: rounding adds what is missing to the divisor, and alignment carries over the bits below the
divisor and clears them (`Value.roundUp_eq_ofNumber`, `Value.align_eq_ofNumber`). A power of two
that is a word divides the number of words, so for alignment it does not matter whether a word is
read with its sign (`multipleAbove_congr`).
-/

set_option autoImplicit false

namespace MachineWord

/-- The greatest multiple of a number that is not above an integer. -/
def multipleBelow (m k : Int) : Int := k - k % m

/-- The least multiple of a number that is not below an integer. -/
def multipleAbove (m k : Int) : Int := k + -k % m

/-! ## Multiples -/

section Multiples

variable {m : Int}

theorem multipleBelow_eq_neg (m k : Int) : multipleBelow m k = -multipleAbove m (-k) := by
  rw [multipleBelow, multipleAbove, neg_neg]
  ring

theorem dvd_multipleBelow (m k : Int) : m ∣ multipleBelow m k := Int.dvd_self_sub_emod

theorem dvd_multipleAbove (m k : Int) : m ∣ multipleAbove m k := by
  have below := dvd_multipleBelow m (-k)
  rwa [multipleBelow_eq_neg, neg_neg, Int.dvd_neg] at below

theorem multipleBelow_eq_self_iff {k : Int} : multipleBelow m k = k ↔ m ∣ k := by
  rw [multipleBelow, sub_eq_self, ← Int.dvd_iff_emod_eq_zero]

theorem multipleAbove_eq_self_iff {k : Int} : multipleAbove m k = k ↔ m ∣ k := by
  rw [multipleAbove, add_eq_left, ← Int.dvd_iff_emod_eq_zero, Int.dvd_neg]

section Congruence

variable {n k l : Int} (multiple : m ∣ n) (congruent : k ≡ l [ZMOD n])

include multiple congruent

/-- Modulo a multiple of the divisor, only the remainder of the integer counts. -/
theorem multipleBelow_congr : multipleBelow m k ≡ multipleBelow m l [ZMOD n] := by
  have remainders : k % m = l % m := congruent.of_dvd multiple
  rw [multipleBelow, multipleBelow, remainders]
  exact congruent.sub_right _

theorem multipleAbove_congr : multipleAbove m k ≡ multipleAbove m l [ZMOD n] := by
  have below := multipleBelow_congr multiple congruent.neg
  rw [multipleBelow_eq_neg, multipleBelow_eq_neg, neg_neg, neg_neg] at below
  have negated := below.neg
  rwa [neg_neg, neg_neg] at negated

end Congruence

section Positive

variable (positive : 0 < m) (k : Int)

include positive

theorem le_multipleAbove : k ≤ multipleAbove m k :=
  le_add_of_nonneg_right (Int.emod_nonneg _ positive.ne')

theorem multipleAbove_lt : multipleAbove m k < k + m :=
  Int.add_lt_add_left (Int.emod_lt_of_pos _ positive) k

theorem isLeast_multipleAbove : IsLeast {l | m ∣ l ∧ k ≤ l} (multipleAbove m k) := by
  refine ⟨⟨dvd_multipleAbove m k, le_multipleAbove positive k⟩, ?_⟩
  rintro l ⟨multiple, above⟩
  have near := multipleAbove_lt positive k
  by_contra less
  have apart := Int.le_of_dvd (by omega) (Int.dvd_sub (dvd_multipleAbove m k) multiple)
  omega

theorem isGreatest_multipleBelow : IsGreatest {l | m ∣ l ∧ l ≤ k} (multipleBelow m k) := by
  obtain ⟨⟨-, above⟩, least⟩ := isLeast_multipleAbove positive (-k)
  rw [multipleBelow_eq_neg]
  refine ⟨⟨Int.dvd_neg.2 (dvd_multipleAbove m (-k)), by omega⟩, ?_⟩
  rintro l ⟨multiple, below⟩
  have reflected : multipleAbove m (-k) ≤ -l := least ⟨Int.dvd_neg.2 multiple, by omega⟩
  omega

/-- Of the integers from one on, as many as the divisor, the last one has the same multiple below
as the first one has above. -/
theorem multipleBelow_add_sub_one : multipleBelow m (k + (m - 1)) = multipleAbove m k := by
  obtain ⟨⟨multiple, below⟩, greatest⟩ := isGreatest_multipleBelow positive (k + (m - 1))
  obtain ⟨⟨multiple', above⟩, -⟩ := isLeast_multipleAbove positive k
  have near := multipleAbove_lt positive k
  apply le_antisymm
  · by_contra greater
    have apart := Int.le_of_dvd (by omega) (Int.dvd_sub multiple multiple')
    omega
  · exact greatest ⟨multiple', by omega⟩

end Positive

end Multiples

/-! ## Masks -/

section Masks

theorem eq_ofInt_toNat (p : BitVec 64) : p = BitVec.ofInt 64 p.toNat := by
  rw [BitVec.ofInt_natCast, BitVec.ofNat_toNat, BitVec.setWidth_eq]

theorem ofInt_sub (k l : Int) :
    BitVec.ofInt 64 (k - l) = BitVec.ofInt 64 k - BitVec.ofInt 64 l := by
  rw [sub_eq_add_neg, BitVec.ofInt_add, BitVec.ofInt_neg, ← BitVec.sub_eq_add_neg]

theorem toNat_ofInt_modEq {w : Nat} (bound : w ≤ 64) (k : Int) :
    ((BitVec.ofInt 64 k).toNat : Int) ≡ k [ZMOD 2 ^ w] := by
  have nonneg : 0 ≤ k % (2 ^ 64 : Nat) := Int.emod_nonneg k (by decide)
  rw [BitVec.toNat_ofInt, Int.toNat_of_nonneg nonneg]
  exact (Int.mod_modEq k _).of_dvd (by exact_mod_cast pow_dvd_pow 2 bound)

variable (p : BitVec 64) {m : BitVec 64} (power : m.toNat.isPowerOfTwo)

include power

/-- The bits below a power of two are the remainder. -/
theorem toNat_and_sub_one : (p &&& (m - 1)).toNat = p.toNat % m.toNat := by
  have below : (m - 1).toNat = m.toNat - 1 :=
    BitVec.toNat_sub_of_le (BitVec.le_def.2 (Nat.pos_of_isPowerOfTwo power))
  obtain ⟨k, size⟩ := power
  rw [BitVec.toNat_and, below, size, Nat.and_two_pow_sub_one_eq_mod]

/-- A pattern without the bits below a power of two is the multiple below it. -/
theorem and_not_sub_one :
    p &&& ~~~(m - 1) = BitVec.ofInt 64 (multipleBelow m.toNat p.toNat) := by
  have parts : (p &&& ~~~(m - 1)) + (p &&& (m - 1)) = p := by
    rw [BitVec.add_eq_or_of_and_eq_zero]
    · ext i inside
      simp only [BitVec.getElem_or, BitVec.getElem_and, BitVec.getElem_not]
      cases p[i] <;> cases (m - 1)[i] <;> rfl
    · ext i inside
      simp only [BitVec.getElem_and, BitVec.getElem_not, BitVec.getElem_zero]
      cases p[i] <;> cases (m - 1)[i] <;> rfl
  have low := eq_ofInt_toNat (p &&& (m - 1))
  rw [toNat_and_sub_one p power, Int.natCast_mod] at low
  rw [multipleBelow, ofInt_sub, ← low, ← eq_ofInt_toNat, eq_comm, BitVec.sub_eq_iff_eq_add]
  exact parts.symm

end Masks

/-! ## Quotients and remainders -/

namespace Value

variable {M : Model} {v : View} (x : Value M v) {y : Operand}

/-- An integer that is a word is its own value. -/
theorem toNat_bits_ofNumber_of_lt {k : Int} (nonneg : 0 ≤ k) (small : k < 2 ^ M.bits) :
    ((ofNumber k : Value M v).bits.toNat : Int) = k := by
  rw [toNat_bits_ofNumber, Int.emod_eq_of_lt nonneg small]

section Divisor

variable (nonzero : y.residue M ≠ 0)

include nonzero

theorem div_eq : x.div y = .ok (.ofNumber (x.bits.toNat / y.residue M)) := by
  have quotient := eq_ofInt_toNat (x.bits / y.wordPattern M)
  rw [BitVec.toNat_udiv, Operand.toNat_wordPattern] at quotient
  rw [div, Operand.divisor_eq nonzero]
  exact congrArg (Except.ok ∘ ofBits) quotient

theorem mod_eq : x.mod y = .ok (.ofNumber (x.bits.toNat % y.residue M)) := by
  have remainder := eq_ofInt_toNat (x.bits % y.wordPattern M)
  rw [BitVec.toNat_umod, Operand.toNat_wordPattern] at remainder
  rw [mod, Operand.divisor_eq nonzero]
  exact congrArg (Except.ok ∘ ofBits) remainder

/-- A remainder is its own value. -/
theorem toNat_bits_remainder :
    ((ofNumber (x.bits.toNat % y.residue M) : Value M v).bits.toNat : Int) =
      x.bits.toNat % y.residue M := by
  have divisor : (0 : Int) < y.residue M := by omega
  have word : (y.residue M : Int) < 2 ^ M.bits := by exact_mod_cast y.residue_lt M
  exact toNat_bits_ofNumber_of_lt (Int.emod_nonneg _ divisor.ne')
    ((Int.emod_lt_of_pos _ divisor).trans word)

theorem bits_remainder : (ofNumber (x.bits.toNat % y.residue M) : Value M v).bits =
    BitVec.ofInt 64 (x.bits.toNat % y.residue M) := by
  rw [← x.toNat_bits_remainder (v := v) nonzero, ← eq_ofInt_toNat, x.toNat_bits_remainder nonzero]

theorem isZero_remainder :
    (ofNumber (x.bits.toNat % y.residue M) : Value M v).isZero =
      decide (y.residue M ∣ x.bits.toNat) := by
  have remainder := x.toNat_bits_remainder nonzero
  rw [isZero, beq_eq_decide]
  apply decide_eq_decide.2
  rw [← BitVec.toNat_inj, Nat.dvd_iff_mod_eq_zero, ← Nat.cast_inj (R := Int), remainder]
  exact_mod_cast Iff.rfl

theorem isRounded_eq : x.isRounded y = .ok (decide (y.residue M ∣ x.bits.toNat)) := by
  rw [isRounded, mod_eq x nonzero]
  exact congrArg Except.ok (x.isZero_remainder nonzero)

theorem roundDown_eq_ofNumber :
    x.roundDown y = .ok (.ofNumber (multipleBelow (y.residue M) x.bits.toNat)) := by
  have difference : x.bits - BitVec.ofInt 64 (x.bits.toNat % y.residue M) =
      BitVec.ofInt 64 (multipleBelow (y.residue M) x.bits.toNat) := by
    rw [multipleBelow, ofInt_sub, ofInt_toNat_bits]
  rw [← x.bits_remainder nonzero] at difference
  rw [roundDown, mod_eq x nonzero]
  exact congrArg (Except.ok ∘ ofBits) difference

/-- What is missing to the divisor leads to the multiple above. -/
theorem roundUp_eq_ofNumber :
    x.roundUp y = .ok (.ofNumber (multipleAbove (y.residue M) x.bits.toNat)) := by
  rw [roundUp, mod_eq x nonzero]
  change (if (ofNumber _).isZero then Except.ok x else _) = _
  rw [x.isZero_remainder nonzero]
  by_cases multiple : y.residue M ∣ x.bits.toNat
  · have itself := multipleAbove_eq_self_iff.2 (Int.natCast_dvd_natCast.2 multiple)
    rw [if_pos (decide_eq_true multiple), itself, ofNumber_bits]
  · have sum : x.bits + (y.wordPattern M - BitVec.ofInt 64 (x.bits.toNat % y.residue M)) =
        BitVec.ofInt 64 (multipleAbove (y.residue M) x.bits.toNat) := by
      rw [multipleAbove, Int.neg_emod, if_neg (mt Int.natCast_dvd_natCast.1 multiple),
        BitVec.ofInt_add, ofInt_sub, ofInt_toNat_bits, Int.natAbs_natCast,
        ← Operand.toNat_wordPattern, ← eq_ofInt_toNat]
    rw [← x.bits_remainder nonzero] at sum
    rw [if_neg (mt of_decide_eq_true multiple)]
    exact congrArg (Except.ok ∘ ofBits) sum

end Divisor

section Alignment

variable (power : (y.residue M).isPowerOfTwo)

include power

/-- The mask carries the value to the last integer before the next multiple. -/
theorem align_eq_ofNumber :
    x.align y = .ok (.ofNumber (multipleAbove (y.residue M) x.bits.toNat)) := by
  have divisor : (0 : Int) < y.residue M := by exact_mod_cast Nat.pos_of_isPowerOfTwo power
  have words : (y.residue M : Int) ∣ 2 ^ M.bits := by exact_mod_cast Operand.residue_dvd power
  have pattern := y.toNat_wordPattern M
  have sum : x.bits + (y.wordPattern M - 1) =
      BitVec.ofInt 64 (x.bits.toNat + (y.residue M - 1)) := by
    rw [BitVec.ofInt_add, ofInt_sub, ofInt_toNat_bits, ← pattern, ← eq_ofInt_toNat]
    rfl
  have carried : ((x.bits + (y.wordPattern M - 1)).toNat : Int) ≡
      x.bits.toNat + (y.residue M - 1) [ZMOD 2 ^ M.bits] := by
    rw [sum]
    exact toNat_ofInt_modEq M.bits_le _
  rw [align, Operand.alignment_eq power]
  change Except.ok (ofBits ((x.bits + (y.wordPattern M - 1)) &&& ~~~(y.wordPattern M - 1))) = _
  rw [and_not_sub_one _ (pattern ▸ power), pattern, ← multipleBelow_add_sub_one divisor]
  exact congrArg Except.ok (ofNumber_congr (multipleBelow_congr words carried))

theorem isAligned_eq : x.isAligned y = .ok (decide (y.residue M ∣ x.bits.toNat)) := by
  rw [← Operand.toNat_wordPattern] at power
  have low := toNat_and_sub_one x.bits power
  rw [isAligned, Operand.alignment_eq (by rwa [← Operand.toNat_wordPattern])]
  apply congrArg Except.ok
  rw [beq_eq_decide]
  apply decide_eq_decide.2
  rw [← BitVec.toNat_inj, low, Operand.toNat_wordPattern, Nat.dvd_iff_mod_eq_zero]
  rfl

end Alignment

end Value

end MachineWord
