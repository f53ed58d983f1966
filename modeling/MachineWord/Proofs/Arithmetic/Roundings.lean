import Mathlib
import MachineWord.Arithmetic.Multiples

/-!
# Unsigned division and rounding

Addresses and sizes are divided as unsigned numbers by the word of an operand, and rounded to its
multiples. Rounding down finds the greatest multiple that is not above the value. Rounding up finds
the least multiple that is not below it, and wraps around if that is not a word. Then the result
may be no multiple at all, so what one expects of a rounding holds only where there is room for a
multiple (`Value.HasRoom`): a second rounding changes nothing, and the order of values is kept
(`roundings_are_multiples`).
-/

set_option autoImplicit false

namespace MachineWord

variable {M : Model} {v : View}

/-- An integer is the least multiple of a number that is not below another one, less the number of
words if this multiple reaches a bound. -/
def Model.IsMultipleAbove (M : Model) (bound : Int) (m : Nat) (k l : Int) : Prop :=
  ∃ least, IsLeast {n : Int | (m : Int) ∣ n ∧ k ≤ n} least ∧
    l = if least < bound then least else least - 2 ^ M.bits

namespace Value

/-- A value that is rounded down to a multiple of a number. -/
def IsRoundedDown (m : Nat) (x z : Value M v) : Prop :=
  IsGreatest {k : Int | (m : Int) ∣ k ∧ k ≤ x.bits.toNat} z.bits.toNat

/-- A value that is rounded up to a multiple of a number, and wraps around if that multiple is not
a word. -/
def IsRoundedUp (m : Nat) (x z : Value M v) : Prop :=
  M.IsMultipleAbove (2 ^ M.bits) m x.bits.toNat z.bits.toNat

/-- A multiple of a number that is not below the value is a word, so rounding up does not wrap. -/
def HasRoom (m : Nat) (x : Value M v) : Prop :=
  ∃ k : Int, (m : Int) ∣ k ∧ x.bits.toNat ≤ k ∧ k < 2 ^ M.bits

end Value

/-- On the values with a property an operation is a rounding: a second one changes nothing, and
the order of values is kept. -/
structure Operation.Rounds (op : Operation) (P : Value M v → Prop) : Prop where
  idempotent : ∀ x z, P x → op.perform? x = some (.ok z) → op.perform? z = some (.ok z)
  monotone : ∀ x x' z z', P x → P x' → x.bits.toNat ≤ x'.bits.toNat →
    op.perform? x = some (.ok z) → op.perform? x' = some (.ok z') → z.bits.toNat ≤ z'.bits.toNat

/-! ## Addresses and sizes -/

section Unsigned

variable (unsigned : v ∈ [View.address, .size]) (x : Value M v)

include unsigned

theorem Operation.perform?_of_unsigned (op : Operation) : op.perform? x = op.onUnsigned x := by
  rcases List.mem_pair.1 unsigned with rfl | rfl <;> rfl

theorem Query.answer?_isRounded (y : Operand) :
    (isRounded y).answer? x = some (.flag <$> x.isRounded y) := by
  rcases List.mem_pair.1 unsigned with rfl | rfl <;> rfl

end Unsigned

/-! ## Values -/

namespace Value

variable (x : Value M v) {y : Operand}

theorem mod_of_residue (zero : y.residue M = 0) : x.mod y = .error (.divisionByZero v) := by
  rw [mod, Operand.divisor_of_residue zero]
  rfl

section Divisor

variable (nonzero : y.residue M ≠ 0)

include nonzero

theorem remainder_lt :
    (ofNumber (x.bits.toNat % y.residue M) : Value M v).bits.toNat < y.residue M := by
  have remainder := x.toNat_bits_remainder nonzero
  have small := Nat.mod_lt x.bits.toNat (Nat.pos_of_ne_zero nonzero)
  omega

theorem eq_quotient_mul_add_remainder : x.bits.toNat =
    (ofNumber (x.bits.toNat / y.residue M) : Value M v).bits.toNat * y.residue M +
      (ofNumber (x.bits.toNat % y.residue M) : Value M v).bits.toNat := by
  have word : (x.bits.toNat : Int) < 2 ^ M.bits := by exact_mod_cast x.toNat_bits_lt
  have small : (x.bits.toNat : Int) / y.residue M ≤ x.bits.toNat :=
    Int.ediv_le_self _ (Int.natCast_nonneg _)
  have quotient := toNat_bits_ofNumber_of_lt (M := M) (v := v)
    (Int.ediv_nonneg (Int.natCast_nonneg x.bits.toNat) (Int.natCast_nonneg (y.residue M)))
    (small.trans_lt word)
  apply Int.ofNat_inj.1
  push_cast
  rw [quotient, x.toNat_bits_remainder nonzero, Int.ediv_mul_add_emod]

end Divisor

section Multiples

variable {m : Nat} (positive : 0 < m)

include positive

theorem multipleBelow_bounds :
    0 ≤ multipleBelow m x.bits.toNat ∧ multipleBelow m x.bits.toNat ≤ x.bits.toNat := by
  have divisor : (0 : Int) < m := by exact_mod_cast positive
  obtain ⟨⟨-, below⟩, greatest⟩ := isGreatest_multipleBelow divisor x.bits.toNat
  exact ⟨greatest ⟨Int.dvd_zero _, Int.natCast_nonneg _⟩, below⟩

theorem toNat_bits_multipleBelow :
    ((ofNumber (multipleBelow m x.bits.toNat) : Value M v).bits.toNat : Int) =
      multipleBelow m x.bits.toNat := by
  obtain ⟨nonneg, below⟩ := x.multipleBelow_bounds positive
  have word : (x.bits.toNat : Int) < 2 ^ M.bits := by exact_mod_cast x.toNat_bits_lt
  exact toNat_bits_ofNumber_of_lt nonneg (below.trans_lt word)

theorem hasRoom_iff : x.HasRoom m ↔ multipleAbove m x.bits.toNat < 2 ^ M.bits := by
  have divisor : (0 : Int) < m := by exact_mod_cast positive
  obtain ⟨⟨multiple, above⟩, least⟩ := isLeast_multipleAbove divisor x.bits.toNat
  constructor
  · rintro ⟨k, multiple', above', word⟩
    exact (least ⟨multiple', above'⟩).trans_lt word
  · intro word
    exact ⟨_, multiple, above, word⟩

theorem isRoundedDown_ofNumber :
    x.IsRoundedDown m (.ofNumber (multipleBelow m x.bits.toNat)) := by
  rw [IsRoundedDown, x.toNat_bits_multipleBelow positive]
  exact isGreatest_multipleBelow (by exact_mod_cast positive) _

section Word

variable (word : m < 2 ^ M.bits)

include word

/-- The multiple above wraps around at most once. -/
theorem toNat_bits_multipleAbove :
    ((ofNumber (multipleAbove m x.bits.toNat) : Value M v).bits.toNat : Int) =
      if multipleAbove m x.bits.toNat < 2 ^ M.bits then multipleAbove m x.bits.toNat
      else multipleAbove m x.bits.toNat - 2 ^ M.bits := by
  have divisor : (0 : Int) < m := by exact_mod_cast positive
  have small : (m : Int) < 2 ^ M.bits := by exact_mod_cast word
  have pattern : (x.bits.toNat : Int) < 2 ^ M.bits := by exact_mod_cast x.toNat_bits_lt
  have above := le_multipleAbove divisor x.bits.toNat
  have near := multipleAbove_lt divisor x.bits.toNat
  rw [toNat_bits_ofNumber]
  split
  next room => exact Int.emod_eq_of_lt (by omega) room
  next => rw [← Int.sub_emod_right, Int.emod_eq_of_lt (by omega) (by omega)]

theorem isRoundedUp_ofNumber :
    x.IsRoundedUp m (.ofNumber (multipleAbove m x.bits.toNat)) :=
  ⟨_, isLeast_multipleAbove (by exact_mod_cast positive) _,
    x.toNat_bits_multipleAbove positive word⟩

theorem toNat_bits_multipleAbove_of_hasRoom (room : x.HasRoom m) :
    ((ofNumber (multipleAbove m x.bits.toNat) : Value M v).bits.toNat : Int) =
      multipleAbove m x.bits.toNat := by
  rw [x.toNat_bits_multipleAbove positive word, if_pos ((x.hasRoom_iff positive).1 room)]

/-- Rounding up keeps the multiples and nothing else, also if it wraps. -/
theorem ofNumber_multipleAbove_eq_iff :
    ofNumber (multipleAbove m x.bits.toNat) = x ↔ m ∣ x.bits.toNat := by
  constructor
  · intro same
    have wrapped := x.toNat_bits_multipleAbove positive word
    have near := multipleAbove_lt (m := m) (by exact_mod_cast positive) x.bits.toNat
    have small : (m : Int) < 2 ^ M.bits := by exact_mod_cast word
    rw [same] at wrapped
    split at wrapped
    · exact Int.natCast_dvd_natCast.1 (multipleAbove_eq_self_iff.1 wrapped.symm)
    · -- What has wrapped around is below the value, because the divisor is a word.
      omega
  · intro multiple
    rw [multipleAbove_eq_self_iff.2 (Int.natCast_dvd_natCast.2 multiple), ofNumber_bits]

end Word

end Multiples

end Value

/-! ## Operations -/

namespace Operation

variable (unsigned : v ∈ [View.address, .size]) {y : Operand}

include unsigned

theorem isRefused_of_residue (zero : y.residue M = 0) (x : Value M v) :
    (∀ op ∈ [div y, mod y, roundUp y, roundDown y],
      IsRefused (op.perform? x) (v.name ++ ": division by zero")) ∧
    IsRefused ((Query.isRounded y).answer? x) (v.name ++ ": division by zero") := by
  have divided : x.div y = .error (.divisionByZero v) := by
    rw [Value.div, Operand.divisor_of_residue zero]
    rfl
  have remained := x.mod_of_residue zero
  have rounded : x.isRounded y = .error (.divisionByZero v) := by
    rw [Value.isRounded, remained]
    rfl
  have above : x.roundUp y = .error (.divisionByZero v) := by
    rw [Value.roundUp, remained]
    rfl
  have below : x.roundDown y = .error (.divisionByZero v) := by
    rw [Value.roundDown, remained]
    rfl
  refine ⟨?_, ?_⟩
  · intro op listed
    refine ⟨.divisionByZero v, (op.perform?_of_unsigned unsigned x).trans ?_, rfl⟩
    simp only [List.mem_cons, List.not_mem_nil, or_false] at listed
    rcases listed with rfl | rfl | rfl | rfl
    · exact congrArg some divided
    · exact congrArg some remained
    · exact congrArg some above
    · exact congrArg some below
  · refine ⟨.divisionByZero v, (Query.answer?_isRounded unsigned x y).trans ?_, rfl⟩
    rw [rounded]
    rfl

section Divisor

variable (nonzero : y.residue M ≠ 0) (x : Value M v)

include nonzero

theorem perform?_div :
    (div y).perform? x = some (.ok (.ofNumber (x.bits.toNat / y.residue M))) := by
  rw [perform?_of_unsigned unsigned, onUnsigned, Value.div_eq x nonzero]

theorem perform?_mod :
    (mod y).perform? x = some (.ok (.ofNumber (x.bits.toNat % y.residue M))) := by
  rw [perform?_of_unsigned unsigned, onUnsigned, Value.mod_eq x nonzero]

theorem perform?_roundDown : (roundDown y).perform? x =
    some (.ok (.ofNumber (multipleBelow (y.residue M) x.bits.toNat))) := by
  rw [perform?_of_unsigned unsigned, onUnsigned, Value.roundDown_eq_ofNumber x nonzero]

theorem perform?_roundUp : (roundUp y).perform? x =
    some (.ok (.ofNumber (multipleAbove (y.residue M) x.bits.toNat))) := by
  rw [perform?_of_unsigned unsigned, onUnsigned, Value.roundUp_eq_ofNumber x nonzero]

theorem answer?_isRounded : (Query.isRounded y).answer? x =
    some (.ok (.flag (decide (y.residue M ∣ x.bits.toNat)))) := by
  rw [Query.answer?_isRounded unsigned, Value.isRounded_eq x nonzero]
  rfl

theorem exists_perform? : ∀ op ∈ [div y, mod y, roundUp y, roundDown y],
    ∃ z, op.perform? x = some (.ok z) := by
  simp only [List.forall_mem_cons, List.not_mem_nil, false_implies, implies_true, and_true]
  exact ⟨⟨_, perform?_div unsigned nonzero x⟩, ⟨_, perform?_mod unsigned nonzero x⟩,
    ⟨_, perform?_roundUp unsigned nonzero x⟩, ⟨_, perform?_roundDown unsigned nonzero x⟩⟩

omit x

theorem rounds_roundDown : (roundDown y).Rounds fun _ : Value M v => True where
  idempotent := by
    intro x z _ performed
    have positive := Nat.pos_of_ne_zero nonzero
    have itself := dvd_multipleBelow (y.residue M) x.bits.toNat
    rw [perform?_roundDown unsigned nonzero] at performed ⊢
    cases performed
    rw [x.toNat_bits_multipleBelow positive, multipleBelow_eq_self_iff.2 itself]
  monotone := by
    intro x x' z z' _ _ le performed performed'
    have positive := Nat.pos_of_ne_zero nonzero
    rw [perform?_roundDown unsigned nonzero] at performed performed'
    cases performed
    cases performed'
    obtain ⟨⟨multiple, below⟩, -⟩ := x.isRoundedDown_ofNumber positive
    obtain ⟨-, greatest⟩ := x'.isRoundedDown_ofNumber positive
    exact_mod_cast greatest ⟨multiple, below.trans (by exact_mod_cast le)⟩

theorem rounds_roundUp : (roundUp y).Rounds (Value.HasRoom (y.residue M) : Value M v → Prop) where
  idempotent := by
    intro x z room performed
    have above := x.toNat_bits_multipleAbove_of_hasRoom (Nat.pos_of_ne_zero nonzero)
      (y.residue_lt M) room
    have itself := dvd_multipleAbove (y.residue M) x.bits.toNat
    rw [perform?_roundUp unsigned nonzero] at performed ⊢
    cases performed
    rw [above, multipleAbove_eq_self_iff.2 itself]
  monotone := by
    intro x x' z z' room room' le performed performed'
    have positive := Nat.pos_of_ne_zero nonzero
    have above := x.toNat_bits_multipleAbove_of_hasRoom positive (y.residue_lt M) room
    have above' := x'.toNat_bits_multipleAbove_of_hasRoom positive (y.residue_lt M) room'
    rw [perform?_roundUp unsigned nonzero] at performed performed'
    cases performed
    cases performed'
    have divisor : (0 : Int) < y.residue M := by exact_mod_cast positive
    obtain ⟨⟨multiple, beyond⟩, -⟩ := isLeast_multipleAbove divisor x'.bits.toNat
    obtain ⟨-, least⟩ := isLeast_multipleAbove divisor x.bits.toNat
    have ordered := least ⟨multiple, (Int.ofNat_le.2 le).trans beyond⟩
    rw [← above, ← above'] at ordered
    exact_mod_cast ordered

end Divisor

end Operation

open Operation

/-- **Addresses and sizes are divided and rounded as unsigned numbers.** Division, the remainder
and the roundings are refused exactly if the divisor is zero modulo the number of words, whatever
its type. Otherwise all of them have a result: the quotient and the remainder belong together, a
value counts as rounded if it is a multiple, and the roundings lead to the multiples next to it.
Rounding up wraps around where there is no room for a multiple, but never keeps a value that is
not one. Rounding down is a rounding of all values, and rounding up of those with room. -/
theorem roundings_are_multiples (M : Model) (y : Operand) : ∀ v ∈ [View.address, .size],
    (∀ x : Value M v,
      (∀ op ∈ [div y, mod y, roundUp y, roundDown y],
        IsRefused (op.perform? x) (v.name ++ ": division by zero") ↔ y.residue M = 0) ∧
      (IsRefused ((Query.isRounded y).answer? x) (v.name ++ ": division by zero") ↔
        y.residue M = 0)) ∧
    (y.residue M ≠ 0 →
      (∀ x : Value M v, ∃ quotient remainder below above : Value M v,
        (div y).perform? x = some (.ok quotient) ∧ (mod y).perform? x = some (.ok remainder) ∧
        (roundDown y).perform? x = some (.ok below) ∧ (roundUp y).perform? x = some (.ok above) ∧
        (Query.isRounded y).answer? x =
          some (.ok (.flag (decide (y.residue M ∣ x.bits.toNat)))) ∧
        x.bits.toNat = quotient.bits.toNat * y.residue M + remainder.bits.toNat ∧
        remainder.bits.toNat < y.residue M ∧
        x.IsRoundedDown (y.residue M) below ∧ x.IsRoundedUp (y.residue M) above ∧
        (above = x ↔ y.residue M ∣ x.bits.toNat) ∧
        (x.HasRoom (y.residue M) → y.residue M ∣ above.bits.toNat)) ∧
      (roundDown y).Rounds (fun _ : Value M v => True) ∧
      (roundUp y).Rounds (Value.HasRoom (y.residue M) : Value M v → Prop)) := by
  intro v unsigned
  refine ⟨fun x => ⟨?_, ?_⟩, fun nonzero => ⟨fun x => ?_, rounds_roundDown unsigned nonzero,
    rounds_roundUp unsigned nonzero⟩⟩
  · intro op listed
    exact isRefused_iff (fun zero => (isRefused_of_residue unsigned zero x).1 op listed)
      fun nonzero => exists_perform? unsigned nonzero x op listed
  · exact isRefused_iff (fun zero => (isRefused_of_residue unsigned zero x).2)
      fun nonzero => ⟨_, answer?_isRounded unsigned nonzero x⟩
  · have positive := Nat.pos_of_ne_zero nonzero
    have word := y.residue_lt M
    refine ⟨_, _, _, _, perform?_div unsigned nonzero x, perform?_mod unsigned nonzero x,
      perform?_roundDown unsigned nonzero x, perform?_roundUp unsigned nonzero x,
      answer?_isRounded unsigned nonzero x, x.eq_quotient_mul_add_remainder nonzero,
      x.remainder_lt nonzero, x.isRoundedDown_ofNumber positive,
      x.isRoundedUp_ofNumber positive word, x.ofNumber_multipleAbove_eq_iff positive word, ?_⟩
    intro room
    have multiple := dvd_multipleAbove (y.residue M) x.bits.toNat
    rw [← x.toNat_bits_multipleAbove_of_hasRoom positive word room] at multiple
    exact Int.natCast_dvd_natCast.1 multiple

/-- A long that is seven only within a word of 32 bits rounds up with and without room. -/
theorem roundings_are_multiples_of_long :
    let low : Address .hosted32 := .ofBits 8
    let high : Address .hosted32 := .ofBits 0xffffffff
    let y : Operand := .long 0x100000007
    (y.residue .hosted32 ≠ 0 ∧ low.HasRoom (y.residue .hosted32)) ∧
      (∃ above, (roundUp y).perform? low = some (.ok above) ∧
        y.residue .hosted32 ∣ above.bits.toNat) ∧
      (∃ above, (roundUp y).perform? high = some (.ok above) ∧
        high.IsRoundedUp (y.residue .hosted32) above) ∧
      (roundUp y).perform? high = some (.ok (.ofBits 3)) := by
  intro low high y
  have nonzero : y.residue .hosted32 ≠ 0 := by decide
  have room : low.HasRoom (y.residue .hosted32) := ⟨14, by decide, by decide, by decide⟩
  obtain ⟨-, divided⟩ := roundings_are_multiples .hosted32 y .address (by decide)
  obtain ⟨results, -⟩ := divided nonzero
  obtain ⟨-, -, -, below, -, -, -, performed, -, -, -, -, -, -, multiple⟩ := results low
  obtain ⟨-, -, -, above, -, -, -, performed', -, -, -, -, wrapped, -⟩ := results high
  exact ⟨⟨nonzero, room⟩, ⟨below, performed, multiple room⟩, ⟨above, performed', wrapped⟩,
    by decide⟩

end MachineWord
