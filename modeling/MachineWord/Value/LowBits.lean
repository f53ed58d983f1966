import Mathlib
import MachineWord.Value.Lemmas

/-!
# Low bits

Two patterns that agree in their low bits are the same number modulo a power of two. Sums,
products and the operations on single bits keep the agreement: none of their bits depends on a
bit above it. So it does not matter when such a computation is cut off at the size of a word,
nor whether a word is extended by zeros or by its sign before it is used.

A value is determined by the bits of its pattern within a word (`Value.ofBits_congr`).
-/

set_option autoImplicit false

namespace MachineWord

/-- Two patterns have the same bits below a position. -/
def LowBits (w : Nat) (p q : BitVec 64) : Prop := p.setWidth w = q.setWidth w

namespace LowBits

variable {w : Nat} {p q p' q' : BitVec 64}

theorem refl (p : BitVec 64) : LowBits w p p := rfl

theorem symm (same : LowBits w p q) : LowBits w q p := Eq.symm same

theorem trans {r : BitVec 64} (first : LowBits w p q) (second : LowBits w q r) : LowBits w p r :=
  Eq.trans first second

theorem of_le {v : Nat} (narrower : v ≤ w) (same : LowBits w p q) : LowBits v p q := by
  rw [LowBits, ← BitVec.setWidth_setWidth_of_le p narrower, same,
    BitVec.setWidth_setWidth_of_le q narrower]

/-- The low bits are the remainder modulo a power of two. -/
theorem iff_mod : LowBits w p q ↔ p.toNat % 2 ^ w = q.toNat % 2 ^ w := by
  rw [LowBits, ← BitVec.toNat_inj, BitVec.toNat_setWidth, BitVec.toNat_setWidth]

/-! ## Operations that keep the agreement -/

section Operations

variable (left : LowBits w p q) (right : LowBits w p' q')

include left

theorem not (bound : w ≤ 64) : LowBits w (~~~p) (~~~q) := by
  rw [LowBits, BitVec.setWidth_not bound, BitVec.setWidth_not bound, left]

theorem neg (bound : w ≤ 64) : LowBits w (-p) (-q) := by
  rw [LowBits, BitVec.setWidth_neg_of_le bound, BitVec.setWidth_neg_of_le bound, left]

theorem shiftLeft (bound : w ≤ 64) (k : Nat) : LowBits w (p <<< k) (q <<< k) := by
  rw [LowBits, BitVec.setWidth_shiftLeft_of_le bound, BitVec.setWidth_shiftLeft_of_le bound, left]

include right

theorem add (bound : w ≤ 64) : LowBits w (p + p') (q + q') := by
  rw [LowBits, BitVec.setWidth_add _ _ bound, BitVec.setWidth_add _ _ bound, left, right]

theorem sub (bound : w ≤ 64) : LowBits w (p - p') (q - q') := by
  rw [BitVec.sub_eq_add_neg, BitVec.sub_eq_add_neg]
  exact left.add (right.neg bound) bound

theorem mul (bound : w ≤ 64) : LowBits w (p * p') (q * q') := by
  rw [LowBits, BitVec.setWidth_mul _ _ bound, BitVec.setWidth_mul _ _ bound, left, right]

theorem and : LowBits w (p &&& p') (q &&& q') := by
  rw [LowBits, BitVec.setWidth_and, BitVec.setWidth_and, left, right]

theorem or : LowBits w (p ||| p') (q ||| q') := by
  rw [LowBits, BitVec.setWidth_or, BitVec.setWidth_or, left, right]

theorem xor : LowBits w (p ^^^ p') (q ^^^ q') := by
  rw [LowBits, BitVec.setWidth_xor, BitVec.setWidth_xor, left, right]

end Operations

/-- Rounding up to a multiple of a power of two, by a mask of the bits below it. -/
theorem align (bound : w ≤ 64) (left : LowBits w p q) (low : LowBits w p' q') :
    LowBits w ((p + p') &&& ~~~p') ((q + q') &&& ~~~q') :=
  (left.add low bound).and (low.not bound)

end LowBits

/-! ## Words -/

namespace Model

variable (M : Model) {p q : BitVec 64}

theorem truncate_eq_iff : M.truncate p = M.truncate q ↔ LowBits M.bits p q := by
  rw [LowBits.iff_mod, ← BitVec.toNat_inj, toNat_truncate, toNat_truncate]

theorem lowBits_truncate (p : BitVec 64) : LowBits M.bits (M.truncate p) p :=
  M.truncate_eq_iff.1 (M.truncate_truncate p)

theorem lowBits_signExtend (p : BitVec 64) : LowBits M.bits (M.signExtend p).toBitVec p :=
  M.setWidth_signExtend p

/-- The sign extension of a word does not look beyond it. -/
theorem signExtend_congr (same : LowBits M.bits p q) : M.signExtend p = M.signExtend q := by
  rw [signExtend, signExtend, same]

end Model

namespace Value

variable {M : Model} {v : View}

/-- Patterns with the same bits within a word make the same value. -/
theorem ofBits_congr {p q : BitVec 64} (same : LowBits M.bits p q) :
    (ofBits p : Value M v) = ofBits q := by
  apply ext_bits
  rw [bits_ofBits, bits_ofBits]
  exact M.truncate_eq_iff.2 same

theorem lowBits_ofBits (p : BitVec 64) : LowBits M.bits (ofBits p : Value M v).bits p := by
  rw [bits_ofBits]
  exact M.lowBits_truncate p

/-- The number that a value stands for has the pattern of the value within a word. -/
theorem lowBits_toLong (x : Value M v) : LowBits M.bits x.toLong.toBitVec x.bits := by
  rw [toLong]
  split
  · exact M.lowBits_signExtend x.bits
  · exact LowBits.refl x.bits

end Value

end MachineWord
