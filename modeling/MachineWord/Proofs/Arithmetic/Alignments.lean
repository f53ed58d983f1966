import Mathlib
import MachineWord.Proofs.Arithmetic.Quotients
import MachineWord.Proofs.Arithmetic.Roundings
import MachineWord.Proofs.Arithmetic.Views

/-!
# Alignment

Alignment clears the bits below a power of two with a mask, and rounding takes a remainder. Both
lead to the multiple above, so they agree on all unsigned values, with the ones that wrap around
included. Because the power of two divides the number of words, wrapping around keeps the
multiples, and alignment is better behaved than rounding up: what it leads to is always aligned
(`Operand.Aligns`). For the same reason the pattern of an offset is aligned as its signed number
is (`Offset.IsAlignedUp`).
-/

set_option autoImplicit false

namespace MachineWord

variable {M : Model} {v : View}

/-- An alignment leads from a value to an aligned one, by less than the alignment. -/
structure Operand.Aligns (y : Operand) (x z : Value M v) : Prop where
  performed : (Operation.align y).perform? x = some (.ok z)
  aligned : (Query.isAligned y).answer? z = some (.ok (.flag true))
  again : (Operation.align y).perform? z = some (.ok z)
  near : ((z.bits.toNat : Int) - x.bits.toNat) % 2 ^ M.bits < y.residue M
  same_iff : z = x ↔ (Query.isAligned y).answer? x = some (.ok (.flag true))

/-- An offset that is rounded up to a multiple of a number as a signed number, and wraps around if
that multiple is not one. -/
def Offset.IsAlignedUp (m : Nat) (x z : Offset M) : Prop :=
  M.IsMultipleAbove (2 ^ (M.bits - 1)) m x.toLong.toInt z.toLong.toInt

theorem Operand.residue_wordBytes (M : Model) : (wordBytes M).residue M = M.bytes := by
  rcases M with ⟨_ | _, _⟩ <;> rfl

theorem Model.isPowerOfTwo_bytes (M : Model) : M.bytes.isPowerOfTwo := by
  rcases M with ⟨_ | _, _⟩
  · exact ⟨2, rfl⟩
  · exact ⟨3, rfl⟩

theorem View.isArithmetic_of_unsigned (unsigned : v ∈ [View.address, .size]) :
    v.isArithmetic = true := by
  rcases List.mem_pair.1 unsigned with rfl | rfl <;> rfl

/-! ## Outcomes -/

section Outcomes

variable (arithmetic : v.isArithmetic = true) {y : Operand} (x : Value M v)

include arithmetic

theorem Operation.perform?_align : (align y).perform? x = some (x.align y) :=
  perform?_of_isShared rfl arithmetic x

theorem Operation.isRefused_align (other : ¬ (y.residue M).isPowerOfTwo) :
    IsRefused ((align y).perform? x)
      (v.name ++ ": alignment " ++ toString (y.residue M) ++ " is not a power of two") := by
  refine ⟨.alignment v (y.residue M), ?_, rfl⟩
  rw [perform?_align arithmetic, Value.align, Operand.alignment_of_not_isPowerOfTwo other]
  rfl

theorem Query.isRefused_isAligned (other : ¬ (y.residue M).isPowerOfTwo) :
    IsRefused ((isAligned y).answer? x)
      (v.name ++ ": alignment " ++ toString (y.residue M) ++ " is not a power of two") := by
  refine ⟨.alignment v (y.residue M), ?_, rfl⟩
  rw [answer?_isAligned arithmetic, Value.isAligned, Operand.alignment_of_not_isPowerOfTwo other]
  rfl

section Power

variable (power : (y.residue M).isPowerOfTwo)

include power

theorem Operation.perform?_align_of_isPowerOfTwo : (align y).perform? x =
    some (.ok (.ofNumber (multipleAbove (y.residue M) x.bits.toNat))) := by
  rw [perform?_align arithmetic, x.align_eq_ofNumber power]

theorem Query.answer?_isAligned_of_isPowerOfTwo : (isAligned y).answer? x =
    some (.ok (.flag (decide (y.residue M ∣ x.bits.toNat)))) := by
  rw [answer?_isAligned arithmetic, x.isAligned_eq power]
  rfl

end Power

end Outcomes

/-! ## Multiples of a power of two -/

namespace Value

variable (x : Value M v) {y : Operand} (power : (y.residue M).isPowerOfTwo)

include power

/-- Wrapping around keeps the multiples. -/
theorem dvd_ofNumber_multipleAbove :
    y.residue M ∣ (ofNumber (multipleAbove (y.residue M) x.bits.toNat) : Value M v).bits.toNat := by
  have words : (y.residue M : Int) ∣ 2 ^ M.bits := by exact_mod_cast Operand.residue_dvd power
  have multiple := dvd_multipleAbove (y.residue M) x.bits.toNat
  apply Int.natCast_dvd_natCast.1
  rw [toNat_bits_ofNumber]
  exact (EuclideanDomain.dvd_mod_iff words).2 multiple

/-- Wrapping around keeps the distance. -/
theorem multipleAbove_sub_emod_lt :
    (((ofNumber (multipleAbove (y.residue M) x.bits.toNat) : Value M v).bits.toNat : Int) -
      x.bits.toNat) % 2 ^ M.bits < y.residue M := by
  have divisor : (0 : Int) < y.residue M := by exact_mod_cast Nat.pos_of_isPowerOfTwo power
  have word : (y.residue M : Int) < 2 ^ M.bits := by exact_mod_cast y.residue_lt M
  have above := le_multipleAbove divisor x.bits.toNat
  have near := multipleAbove_lt divisor x.bits.toNat
  have wrapped := (Int.mod_modEq (multipleAbove (y.residue M) x.bits.toNat) (2 ^ M.bits)).sub_right
    x.bits.toNat
  rw [toNat_bits_ofNumber, wrapped.eq, Int.emod_eq_of_lt (by omega) (by omega)]
  omega

end Value

/-- Alignment leads to the multiple above. -/
theorem Operand.aligns_ofNumber {y : Operand} (arithmetic : v.isArithmetic = true)
    (power : (y.residue M).isPowerOfTwo) (x : Value M v) :
    y.Aligns x (.ofNumber (multipleAbove (y.residue M) x.bits.toNat)) where
  performed := Operation.perform?_align_of_isPowerOfTwo arithmetic x power
  aligned := by
    rw [Query.answer?_isAligned_of_isPowerOfTwo arithmetic _ power,
      decide_eq_true (x.dvd_ofNumber_multipleAbove power)]
  again := by
    have itself := (Value.ofNumber_multipleAbove_eq_iff _ (Nat.pos_of_isPowerOfTwo power)
      (y.residue_lt M)).2 (x.dvd_ofNumber_multipleAbove power)
    rw [Operation.perform?_align_of_isPowerOfTwo arithmetic _ power, itself]
  near := x.multipleAbove_sub_emod_lt power
  same_iff := by
    rw [x.ofNumber_multipleAbove_eq_iff (Nat.pos_of_isPowerOfTwo power) (y.residue_lt M),
      Query.answer?_isAligned_of_isPowerOfTwo arithmetic _ power]
    simp

/-! ## Offsets -/

namespace Offset

variable (x : Offset M)

theorem isAlignedUp_ofNumber {y : Operand} (power : (y.residue M).isPowerOfTwo) :
    x.IsAlignedUp (y.residue M) (.ofNumber (multipleAbove (y.residue M) x.bits.toNat)) := by
  have divisor : (0 : Int) < y.residue M := by exact_mod_cast Nat.pos_of_isPowerOfTwo power
  have word : (y.residue M : Int) < 2 ^ M.bits := by exact_mod_cast y.residue_lt M
  have words : (y.residue M : Int) ∣ 2 ^ M.bits := by exact_mod_cast Operand.residue_dvd power
  have halves : (2 : Int) ^ M.bits = 2 * 2 ^ (M.bits - 1) := by exact_mod_cast M.two_pow_bits_eq
  have above := le_multipleAbove divisor x.toLong.toInt
  have near := multipleAbove_lt divisor x.toLong.toInt
  obtain ⟨lower, upper⟩ := x.hasSigned_toLong
  refine ⟨_, isLeast_multipleAbove divisor x.toLong.toInt, ?_⟩
  -- The power of two divides the number of words, so the multiple above the signed number has the
  -- same word as the one above the pattern.
  rw [← Value.ofNumber_congr (multipleAbove_congr words x.toLong_modEq_bits)]
  split
  next fits => exact toLong_ofNumber_of_hasSigned ⟨lower.trans above, fits⟩
  next =>
      have wrapped : multipleAbove (y.residue M) x.toLong.toInt ≡
          multipleAbove (y.residue M) x.toLong.toInt - 2 ^ M.bits [ZMOD 2 ^ M.bits] :=
        Int.modEq_iff_dvd.2 ⟨-1, by ring⟩
      rw [Value.ofNumber_congr wrapped]
      exact toLong_ofNumber_of_hasSigned ⟨by omega, by omega⟩

end Offset

open Operation

/-- **Alignments are roundings.** For all that is computed with, alignment and the question for it
are refused exactly if the operand is not a power of two within a word, and zero is none. Otherwise
alignment leads to an aligned value. For addresses and sizes it is the same as rounding up, and
aligned is the same as rounded. For offsets the result is the multiple above the signed number.
The alignment to words is that to the bytes of a word, and it always has a result. -/
theorem alignments_are_roundings (M : Model) (y : Operand) :
    (∀ v : View, v.isArithmetic = true → ∀ x : Value M v,
      (IsRefused ((align y).perform? x)
          (v.name ++ ": alignment " ++ toString (y.residue M) ++ " is not a power of two") ↔
        ¬ (y.residue M).isPowerOfTwo) ∧
      (IsRefused ((Query.isAligned y).answer? x)
          (v.name ++ ": alignment " ++ toString (y.residue M) ++ " is not a power of two") ↔
        ¬ (y.residue M).isPowerOfTwo) ∧
      alignWord.perform? x = (align (.wordBytes M)).perform? x ∧
      ∃ z, (Operand.wordBytes M).Aligns x z) ∧
    ((y.residue M).isPowerOfTwo →
      (∀ v : View, v.isArithmetic = true → ∀ x : Value M v, ∃ z, y.Aligns x z) ∧
      (∀ v ∈ [View.address, .size], ∀ x : Value M v,
        (align y).perform? x = (roundUp y).perform? x ∧
        (Query.isAligned y).answer? x = (Query.isRounded y).answer? x) ∧
      ∀ x : Offset M, ∃ z,
        (align y).perform? x = some (.ok z) ∧ x.IsAlignedUp (y.residue M) z) := by
  constructor
  · intro v arithmetic x
    have words : ((Operand.wordBytes M).residue M).isPowerOfTwo := by
      rw [Operand.residue_wordBytes]
      exact M.isPowerOfTwo_bytes
    have word : alignWord.perform? x = (align (.wordBytes M)).perform? x :=
      (perform?_of_isShared rfl arithmetic x).trans (perform?_of_isShared rfl arithmetic x).symm
    refine ⟨?_, ?_, word, _, Operand.aligns_ofNumber arithmetic words x⟩
    · exact isRefused_iff (isRefused_align arithmetic x) fun power =>
        ⟨_, perform?_align_of_isPowerOfTwo arithmetic x (not_not.1 power)⟩
    · exact isRefused_iff (Query.isRefused_isAligned arithmetic x) fun power =>
        ⟨_, Query.answer?_isAligned_of_isPowerOfTwo arithmetic x (not_not.1 power)⟩
  · intro power
    have nonzero : y.residue M ≠ 0 := (Nat.pos_of_isPowerOfTwo power).ne'
    refine ⟨fun v arithmetic x => ⟨_, Operand.aligns_ofNumber arithmetic power x⟩, ?_, ?_⟩
    · intro v unsigned x
      have arithmetic := View.isArithmetic_of_unsigned unsigned
      rw [perform?_align_of_isPowerOfTwo arithmetic x power, perform?_roundUp unsigned nonzero,
        Query.answer?_isAligned_of_isPowerOfTwo arithmetic x power,
        answer?_isRounded unsigned nonzero]
      exact ⟨rfl, rfl⟩
    · intro x
      exact ⟨_, perform?_align_of_isPowerOfTwo rfl x power, x.isAlignedUp_ofNumber power⟩

/-- A power of two that has the sign bit of a word. The multiple above is not a word, and not a
signed number either. -/
theorem alignments_are_roundings_of_sign_bit :
    let y : Operand := .long 0x180000000
    let x : Address .hosted32 := .ofBits 0x80000001
    let d : Offset .hosted32 := .ofBits 1
    (y.residue .hosted32).isPowerOfTwo ∧ (∃ z, y.Aligns x z) ∧
      (align y).perform? x = (roundUp y).perform? x ∧ (align y).perform? x = some (.ok .zero) ∧
      ∃ z, (align y).perform? d = some (.ok z) ∧ d.IsAlignedUp (y.residue .hosted32) z := by
  intro y x d
  have power : (y.residue .hosted32).isPowerOfTwo := ⟨31, by decide⟩
  obtain ⟨-, powers⟩ := alignments_are_roundings .hosted32 y
  obtain ⟨aligned, rounded, signed⟩ := powers power
  exact ⟨power, aligned .address rfl x, (rounded .address (by decide) x).1, by decide, signed d⟩

end MachineWord
