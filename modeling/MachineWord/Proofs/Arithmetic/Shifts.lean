import Mathlib
import MachineWord.Arithmetic.Multiples
import MachineWord.Proofs.Arithmetic.Quotients
import MachineWord.Proofs.Arithmetic.Views

/-!
# Shifts as products and quotients

A distance counts modulo the size of a word. A left shift multiplies by a power of two, modulo the
number of words. A right shift is a quotient by a power of two that is rounded down: of the unsigned
number if zeros come in, and of the signed number if the sign does. The division of offsets
truncates instead, so it differs from the shift at negative numbers that are no multiples
(`Offset.div_eq_shiftRight_iff`). A shift to the left and back again gives what it has been given
exactly if no bit has been lost (`Value.shiftRight_shiftLeft_eq_iff`,
`Offset.shiftRight_shiftLeft_eq_iff`).
-/

set_option autoImplicit false

namespace MachineWord

variable {M : Model}

/-! ## Unsigned shifts -/

namespace Value

variable {v : View} (x : Value M v) (n : Nat)

/-- A left shift multiplies by a power of two. -/
theorem shiftLeft_eq : x.shiftLeft n = .ofNumber (x.bits.toNat * 2 ^ (n % M.bits)) := by
  have product : x.bits <<< (n % M.bits) =
      BitVec.ofInt 64 ((x.bits.toNat * 2 ^ (n % M.bits) : Nat) : Int) := by
    apply BitVec.eq_of_toNat_eq
    rw [BitVec.toNat_shiftLeft, Nat.shiftLeft_eq, BitVec.ofInt_natCast, BitVec.toNat_ofNat]
  exact_mod_cast congrArg ofBits product

/-- A right shift that fills with zeros is a quotient of the unsigned number. -/
theorem shiftRight_eq : x.shiftRight n = .ofNumber (x.bits.toNat / 2 ^ (n % M.bits)) := by
  have quotient := eq_ofInt_toNat (x.bits >>> (n % M.bits))
  rw [BitVec.toNat_ushiftRight, Nat.shiftRight_eq_div_pow] at quotient
  exact_mod_cast congrArg ofBits quotient

theorem toNat_bits_shiftLeft :
    (x.shiftLeft n).bits.toNat = x.bits.toNat * 2 ^ (n % M.bits) % 2 ^ M.bits := by
  have value := toNat_bits_ofNumber (M := M) (v := v) (x.bits.toNat * 2 ^ (n % M.bits))
  rw [shiftLeft_eq]
  exact_mod_cast value

theorem toNat_bits_shiftRight :
    (x.shiftRight n).bits.toNat = x.bits.toNat / 2 ^ (n % M.bits) := by
  have small : x.bits.toNat / 2 ^ (n % M.bits) < 2 ^ M.bits :=
    (Nat.div_le_self _ _).trans_lt x.toNat_bits_lt
  have value := toNat_bits_ofNumber_of_lt (M := M) (v := v)
    (k := (x.bits.toNat / 2 ^ (n % M.bits) : Nat)) (Int.natCast_nonneg _) (by exact_mod_cast small)
  rw [shiftRight_eq]
  exact_mod_cast value

/-- A shift to the left and back again keeps the values that no bit is lost of. -/
theorem shiftRight_shiftLeft_eq_iff :
    (x.shiftLeft n).shiftRight n = x ↔ x.bits.toNat < 2 ^ (M.bits - n % M.bits) := by
  have distance := Nat.mod_lt n M.bits_pos
  have back : ((x.shiftLeft n).shiftRight n).bits.toNat =
      x.bits.toNat % 2 ^ (M.bits - n % M.bits) := by
    have words : 2 ^ M.bits = 2 ^ (M.bits - n % M.bits) * 2 ^ (n % M.bits) := by
      rw [← pow_add, Nat.sub_add_cancel distance.le]
    rw [toNat_bits_shiftRight, toNat_bits_shiftLeft, words, Nat.mul_mod_mul_right,
      Nat.mul_div_cancel _ (Nat.two_pow_pos _)]
  rw [← bits_inj, ← BitVec.toNat_inj, back]
  exact Nat.mod_eq_iff_lt (Nat.two_pow_pos _).ne'

variable {n} in
/-- Division by a power of two is a right shift that fills with zeros. -/
theorem div_eq_shiftRight {y : Operand} (power : y.residue M = 2 ^ (n % M.bits)) :
    x.div y = .ok (x.shiftRight n) := by
  have nonzero : y.residue M ≠ 0 := power ▸ (Nat.two_pow_pos _).ne'
  rw [div_eq x nonzero, power, shiftRight_eq]
  push_cast
  rfl

end Value

/-! ## Signed shifts -/

/-- A quotient that is rounded down is a signed number again. -/
theorem Model.HasSigned.ediv {s : Int} (signed : M.HasSigned s) (k : Nat) :
    M.HasSigned (s / 2 ^ k) := by
  obtain ⟨lower, upper⟩ := signed
  have one : (1 : Int) ≤ 2 ^ k := one_le_pow₀ (by decide)
  have half : (0 : Int) ≤ 2 ^ (M.bits - 1) := by positivity
  have grown : (2 : Int) ^ (M.bits - 1) ≤ 2 ^ (M.bits - 1) * 2 ^ k :=
    le_mul_of_one_le_right half one
  constructor
  · rw [Int.le_ediv_iff_mul_le (by omega), Int.neg_mul]
    omega
  · rw [Int.ediv_lt_iff_lt_mul (by omega)]
    omega

namespace Offset

variable (x : Offset M) (n : Nat)

theorem shiftLeft_eq_ofNumber :
    x.shiftLeft n = .ofNumber (x.toLong.toInt * 2 ^ (n % M.bits)) := by
  rw [shiftLeft_eq, Value.shiftLeft_eq]
  exact Value.ofNumber_congr (x.toLong_modEq_bits.symm.mul_right _)

/-- A right shift that replicates the sign is a quotient of the signed number, rounded down. -/
theorem shiftRight_eq_ofNumber :
    x.shiftRight n = .ofNumber (x.toLong.toInt / 2 ^ (n % M.bits)) := by
  have quotient : (x.toLong.toBitVec.sshiftRight (n % M.bits)).toInt =
      x.toLong.toInt / 2 ^ (n % M.bits) := by
    rw [BitVec.toInt_sshiftRight, Int.shiftRight_eq_div_pow]
    exact_mod_cast rfl
  rw [shiftRight_eq, Value.ofNumber, ← quotient, BitVec.ofInt_toInt]

theorem toInt_shiftRight :
    (x.shiftRight n).toLong.toInt = x.toLong.toInt / 2 ^ (n % M.bits) := by
  rw [shiftRight_eq_ofNumber]
  exact toLong_ofNumber_of_hasSigned (x.hasSigned_toLong.ediv _)

/-- Integers that stand in a word as signed numbers are told apart by their offsets. -/
theorem ofNumber_eq_iff {k l : Int} (signed : M.HasSigned k) (signed' : M.HasSigned l) :
    (.ofNumber k : Offset M) = .ofNumber l ↔ k = l := by
  constructor
  · intro same
    rw [← toLong_ofNumber_of_hasSigned signed, same, toLong_ofNumber_of_hasSigned signed']
  · rintro rfl
    rfl

/-- A shift to the left and back again keeps the offsets that are small enough to be multiplied. -/
theorem shiftRight_shiftLeft_eq_iff :
    (x.shiftLeft n).shiftRight n = x ↔
      -2 ^ (M.bits - n % M.bits - 1) ≤ x.toLong.toInt ∧
        x.toLong.toInt < 2 ^ (M.bits - n % M.bits - 1) := by
  have distance := Nat.mod_lt n M.bits_pos
  have factor : (0 : Int) < 2 ^ (n % M.bits) := by positivity
  have words : (2 : Int) ^ (M.bits - 1) = 2 ^ (M.bits - n % M.bits - 1) * 2 ^ (n % M.bits) := by
    rw [← pow_add]
    congr 1
    omega
  have back : (x.shiftLeft n).shiftRight n = .ofNumber
      ((x.toLong.toInt * 2 ^ (n % M.bits)).bmod (2 ^ M.bits) / 2 ^ (n % M.bits)) := by
    rw [shiftRight_eq_ofNumber, shiftLeft_eq_ofNumber, Value.toLong_ofNumber]
  have product := M.hasSigned_bmod (x.toLong.toInt * 2 ^ (n % M.bits))
  rw [back]
  nth_rewrite 2 [← x.ofNumber_toLong]
  rw [ofNumber_eq_iff (product.ediv _) x.hasSigned_toLong]
  constructor
  · intro kept
    rw [Model.HasSigned, words] at product
    rw [← kept, Int.le_ediv_iff_mul_le factor, Int.ediv_lt_iff_lt_mul factor, Int.neg_mul]
    exact product
  · rintro ⟨lower, upper⟩
    have fits : M.HasSigned (x.toLong.toInt * 2 ^ (n % M.bits)) := by
      rw [Model.HasSigned, words, ← Int.neg_mul]
      exact ⟨mul_le_mul_of_nonneg_right lower factor.le, mul_lt_mul_of_pos_right upper factor⟩
    rw [(M.hasSigned_iff _).1 fits, Int.mul_ediv_cancel _ factor.ne']

variable {n} in
/-- Division truncates and a right shift rounds down, so they agree where there is nothing to be
rounded, or where both round down. -/
theorem div_eq_shiftRight_iff {y : Operand} (small : n % M.bits ≤ M.bits - 2)
    (power : y.residue M = 2 ^ (n % M.bits)) :
    x.div y = .ok (x.shiftRight n) ↔
      0 ≤ x.toLong.toInt ∨ (2 : Int) ^ (n % M.bits) ∣ x.toLong.toInt := by
  have wide := M.le_bits
  have factor : (0 : Int) < 2 ^ (n % M.bits) := by positivity
  have nonzero : y.residue M ≠ 0 := power ▸ (Nat.two_pow_pos _).ne'
  have signed : M.HasSigned (2 ^ (n % M.bits)) := by
    refine ⟨by linarith [pow_pos (show (0 : Int) < 2 by decide) (M.bits - 1)], ?_⟩
    exact pow_lt_pow_right₀ (by decide) (by omega)
  have divisor : (y.number M).bmod (2 ^ M.bits) = 2 ^ (n % M.bits) := by
    have residue := y.natCast_residue M
    rw [power] at residue
    push_cast at residue
    rw [← (M.hasSigned_iff _).1 signed, residue]
    exact_mod_cast (Int.emod_bmod (y.number M) (2 ^ M.bits)).symm
  have quotient : M.HasSigned (x.toLong.toInt.tdiv (2 ^ (n % M.bits))) :=
    x.hasSigned_toLong.tdiv factor.ne' (by rintro ⟨-, negative⟩; omega)
  rw [x.div_eq nonzero, divisor, shiftRight_eq_ofNumber, Except.ok.injEq,
    ofNumber_eq_iff quotient (x.hasSigned_toLong.ediv _), Int.tdiv_eq_ediv]
  split
  next exact_ => exact ⟨fun _ => exact_, fun _ => Int.add_zero _⟩
  next rounded =>
      rw [Int.sign_eq_one_of_pos factor]
      exact ⟨fun same => absurd same (by omega), fun exact_ => absurd exact_ rounded⟩

end Offset

/-! ## All views -/

open Operation in
/-- **Shifts are products and quotients.** A distance counts modulo the size of a word, and no
distance is refused. Under every view that has arithmetic a left shift multiplies by a power of two
modulo the number of words, and the right shift that fills with zeros is a quotient. The right shift
that belongs to the view is the same one for addresses and sizes, and the quotient of the signed
number, rounded down, for offsets. So unsigned division by the power of two is a right shift. Signed
division is one exactly if the offset is not negative or a multiple, as long as the power is a
signed number itself. Shifts to the left and back again restore exactly the numbers that can be
written with the bits that remain. -/
theorem shifts_are_products_and_quotients (M : Model) (n : Nat) :
    let k := n % M.bits
    (∀ {v : View} (x : Value M v), v.isArithmetic = true → ∃ left right : Value M v,
      (shiftLeft n).perform? x = some (.ok left) ∧
      (unsignedShiftRight n).perform? x = some (.ok right) ∧
      left.bits.toNat = x.bits.toNat * 2 ^ k % 2 ^ M.bits ∧
      right.bits.toNat = x.bits.toNat / 2 ^ k) ∧
    (∀ x : Address M, (shiftRight n).perform? x = (unsignedShiftRight n).perform? x) ∧
    (∀ x : Size M, (shiftRight n).perform? x = (unsignedShiftRight n).perform? x) ∧
    (∀ x : Offset M, ∃ right : Offset M, (shiftRight n).perform? x = some (.ok right) ∧
      right.toLong.toInt = x.toLong.toInt / 2 ^ k) ∧
    (∀ (x : Address M) (y : Operand), y.residue M = 2 ^ k →
      (unsignedShiftRight n).perform? x = (div y).perform? x) ∧
    (∀ (x : Offset M) (y : Operand), k ≤ M.bits - 2 → y.residue M = 2 ^ k →
      ((shiftRight n).perform? x = (div y).perform? x ↔
        0 ≤ x.toLong.toInt ∨ (2 : Int) ^ k ∣ x.toLong.toInt)) ∧
    (∀ x : Address M, ∃ left : Address M, (shiftLeft n).perform? x = some (.ok left) ∧
      ((unsignedShiftRight n).perform? left = some (.ok x) ↔
        x.bits.toNat < 2 ^ (M.bits - k))) ∧
    ∀ x : Offset M, ∃ left : Offset M, (shiftLeft n).perform? x = some (.ok left) ∧
      ((shiftRight n).perform? left = some (.ok x) ↔
        -2 ^ (M.bits - k - 1) ≤ x.toLong.toInt ∧ x.toLong.toInt < 2 ^ (M.bits - k - 1)) := by
  intro k
  refine ⟨?_, fun _ => rfl, fun _ => rfl, ?_, ?_, ?_, ?_, ?_⟩
  · intro v x arithmetic
    refine ⟨x.shiftLeft n, x.shiftRight n, ?_, ?_, x.toNat_bits_shiftLeft n,
      x.toNat_bits_shiftRight n⟩
    · exact perform?_of_isShared rfl arithmetic x
    · exact perform?_of_isShared rfl arithmetic x
  · intro x
    exact ⟨Offset.shiftRight x n, rfl, Offset.toInt_shiftRight x n⟩
  · intro x y power
    exact congrArg some (x.div_eq_shiftRight power).symm
  · intro x y small power
    rw [← Offset.div_eq_shiftRight_iff x small power]
    exact Option.some_inj.trans eq_comm
  · intro x
    refine ⟨x.shiftLeft n, rfl, ?_⟩
    rw [← x.shiftRight_shiftLeft_eq_iff n]
    exact Option.some_inj.trans (Iff.of_eq (Except.ok.injEq _ _))
  · intro x
    refine ⟨Offset.shiftLeft x n, rfl, ?_⟩
    rw [← Offset.shiftRight_shiftLeft_eq_iff x n]
    exact Option.some_inj.trans (Iff.of_eq (Except.ok.injEq _ _))

open Operation in
/-- A distance beyond a word of 32 bits halves. An odd offset below zero tells the shift from the
division, and an even one does not. -/
theorem shifts_are_products_and_quotients_of_halves :
    let odd : Offset .hosted32 := .ofInt (-3)
    let even : Offset .hosted32 := .ofInt (-4)
    (shiftRight 33).perform? odd ≠ (div (.int 2)).perform? odd ∧
      (shiftRight 33).perform? even = (div (.int 2)).perform? even ∧
      ∃ left : Offset .hosted32, (shiftLeft 33).perform? odd = some (.ok left) ∧
        (shiftRight 33).perform? left = some (.ok odd) := by
  intro odd even
  obtain ⟨-, -, -, -, -, division, -, back⟩ := shifts_are_products_and_quotients .hosted32 33
  have two : (Operand.int 2).residue .hosted32 = 2 ^ (33 % Model.hosted32.bits) := by
    decide +kernel
  have odd_value : odd.toLong.toInt = -3 := by decide +kernel
  have even_value : even.toLong.toInt = -4 := by decide +kernel
  refine ⟨?_, ?_, ?_⟩
  · rw [ne_eq, division odd (.int 2) (by decide) two, odd_value]
    decide
  · rw [division even (.int 2) (by decide) two, even_value]
    decide
  · obtain ⟨left, shifted, restored⟩ := back odd
    rw [odd_value] at restored
    exact ⟨left, shifted, restored.2 (by decide)⟩

end MachineWord
