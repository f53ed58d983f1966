import Mathlib
import MachineWord.Arithmetic.Shared
import MachineWord.Cursor.Basic

/-!
# Operands modulo the number of words

An operand has a pattern of 64 bits, and a word has room for 32 of them in some models. The bits
beyond the size of a word do not matter, in whatever step of an operation they are cut off
(`operands_interchangeable`). Division and alignment take the word of the operand before they look
at it, and a signed divisor extends that word by its sign. Rounding up takes the word of the operand
for the remainder, and may take all bits of the operand for the sum (`Value.roundUp_eq`).
-/

set_option autoImplicit false

namespace MachineWord

/-- The operations that have an operand. -/
inductive Operator where
  | add
  | sub
  | mul
  | div
  | mod
  | and
  | or
  | xor
  | align
  | roundUp
  | roundDown
  deriving DecidableEq, Repr

/-- The operation with an operand. -/
def Operator.on : Operator → Operand → Operation
  | add => .add
  | sub => .sub
  | mul => .mul
  | div => .div
  | mod => .mod
  | and => .and
  | or => .or
  | xor => .xor
  | align => .align
  | roundUp => .roundUp
  | roundDown => .roundDown

/-- The questions that have an operand. -/
inductive Test where
  | isAligned
  | isRounded
  deriving DecidableEq, Repr

/-- The question with an operand. -/
def Test.on : Test → Operand → Query
  | isAligned => .isAligned
  | isRounded => .isRounded

/-- Two operands lead to the same results, and to the same faults, in all that is computed with
them: operations on values, questions about values and moves of pointers. -/
structure Operand.Interchangeable (M : Model) (y z : Operand) : Prop where
  operation : ∀ (o : Operator) {v : View} (x : Value M v),
    (o.on y).perform? x = (o.on z).perform? x
  question : ∀ (t : Test) {v : View} (x : Value M v), (t.on y).answer? x = (t.on z).answer? x
  move : ∀ (o : Operator) {μ : Type} [Block μ] (memory : μ) (p : Pointer M),
    Cursor.target memory p (.operate (o.on y)) = Cursor.target memory p (.operate (o.on z))
  add : ∀ p : Pointer M, p.add y = p.add z
  sub : ∀ p : Pointer M, p.sub y = p.sub z

variable {M : Model} {v : View}

/-- Rounding up may add all bits of the operand, less the remainder. -/
theorem Value.roundUp_eq (x : Value M v) (y : Operand) :
    x.roundUp y = (do
      let remainder ← x.mod y
      if remainder.isZero then return x
      else return x.add (.unsignedLong (.ofBitVec (y.pattern M - remainder.bits)))) := by
  rw [Value.roundUp]
  cases x.mod y with
  | ok remainder =>
      have sum : (.ofBits (x.bits + (y.wordPattern M - remainder.bits)) : Value M v) =
          .ofBits (x.bits + (y.pattern M - remainder.bits)) :=
        ofBits_congr ((LowBits.refl _).add
          ((M.lowBits_truncate (y.pattern M)).sub (LowBits.refl _) M.bits_le) M.bits_le)
      exact congrArg (fun rounded => if remainder.isZero then Except.ok x else .ok rounded) sum
  | error fault => rfl

section Congruence

variable {y z : Operand} (same : LowBits M.bits (y.pattern M) (z.pattern M))

include same

namespace Operand

theorem wordPattern_congr : y.wordPattern M = z.wordPattern M := M.truncate_eq_iff.2 same

theorem divisor_congr : y.divisor M v = z.divisor M v := by
  rw [divisor, divisor, wordPattern_congr same]

theorem signedDivisor_congr : y.signedDivisor M v = z.signedDivisor M v := by
  rw [signedDivisor, signedDivisor, signed, signed, M.signExtend_congr same]

theorem alignment_congr : y.alignment M v = z.alignment M v := by
  rw [alignment, alignment, wordPattern_congr same]

end Operand

namespace Value

variable (x : Value M v)

theorem add_congr : x.add y = x.add z :=
  ofBits_congr ((LowBits.refl x.bits).add same M.bits_le)

theorem sub_congr : x.sub y = x.sub z :=
  ofBits_congr ((LowBits.refl x.bits).sub same M.bits_le)

theorem mul_congr : x.mul y = x.mul z :=
  ofBits_congr ((LowBits.refl x.bits).mul same M.bits_le)

theorem and_congr : x.and y = x.and z := ofBits_congr ((LowBits.refl x.bits).and same)

theorem or_congr : x.or y = x.or z := ofBits_congr ((LowBits.refl x.bits).or same)

theorem xor_congr : x.xor y = x.xor z := ofBits_congr ((LowBits.refl x.bits).xor same)

theorem div_congr : x.div y = x.div z := by
  rw [div, div, Operand.divisor_congr same]

theorem mod_congr : x.mod y = x.mod z := by
  rw [mod, mod, Operand.divisor_congr same]

theorem align_congr : x.align y = x.align z := by
  rw [align, align, Operand.alignment_congr same]

theorem roundUp_congr : x.roundUp y = x.roundUp z := by
  rw [roundUp_eq, roundUp_eq, mod_congr same]
  have sum (remainder : Value M v) :
      x.add (.unsignedLong (.ofBitVec (y.pattern M - remainder.bits))) =
        x.add (.unsignedLong (.ofBitVec (z.pattern M - remainder.bits))) :=
    x.add_congr (same.sub (LowBits.refl remainder.bits) M.bits_le)
  simp only [sum]

theorem roundDown_congr : x.roundDown y = x.roundDown z := by
  rw [roundDown, roundDown, mod_congr same]

theorem isAligned_congr : x.isAligned y = x.isAligned z := by
  rw [isAligned, isAligned, Operand.alignment_congr same]

theorem isRounded_congr : x.isRounded y = x.isRounded z := by
  rw [isRounded, isRounded, mod_congr same]

end Value

namespace Operator

variable (o : Operator)

theorem onUnsigned_congr (x : Value M v) : (o.on y).onUnsigned x = (o.on z).onUnsigned x := by
  cases o with
  | add => exact congrArg (some ∘ Except.ok) (x.add_congr same)
  | sub => exact congrArg (some ∘ Except.ok) (x.sub_congr same)
  | mul => exact congrArg (some ∘ Except.ok) (x.mul_congr same)
  | div => exact congrArg some (x.div_congr same)
  | mod => exact congrArg some (x.mod_congr same)
  | and => exact congrArg (some ∘ Except.ok) (x.and_congr same)
  | or => exact congrArg (some ∘ Except.ok) (x.or_congr same)
  | xor => exact congrArg (some ∘ Except.ok) (x.xor_congr same)
  | align => exact congrArg some (x.align_congr same)
  | roundUp => exact congrArg some (x.roundUp_congr same)
  | roundDown => exact congrArg some (x.roundDown_congr same)

theorem onOffset_congr (x : Offset M) : (o.on y).onOffset x = (o.on z).onOffset x := by
  -- Only division looks at the sign, and the roundings are not offered. All else is unsigned.
  have shared (h : (o.on y).isShared = true) (h' : (o.on z).isShared = true) :
      (o.on y).onOffset x = (o.on z).onOffset x := by
    rw [Operation.onOffset_of_isShared h, Operation.onOffset_of_isShared h',
      o.onUnsigned_congr same]
  cases o with
  | div =>
      have divided : x.div y = x.div z := by
        rw [Offset.div, Offset.div, Operand.signedDivisor_congr same]
      exact congrArg some divided
  | mod =>
      have remainder : x.mod y = x.mod z := by
        rw [Offset.mod, Offset.mod, Operand.signedDivisor_congr same]
      exact congrArg some remainder
  | roundUp => rfl
  | roundDown => rfl
  | _ => exact shared rfl rfl

theorem perform?_congr (x : Value M v) : (o.on y).perform? x = (o.on z).perform? x := by
  cases v with
  | word => rfl
  | address => exact o.onUnsigned_congr same x
  | offset => exact o.onOffset_congr same x
  | size => exact o.onUnsigned_congr same x
  | reference => rfl

end Operator

theorem Test.answer?_congr (t : Test) (x : Value M v) :
    (t.on y).answer? x = (t.on z).answer? x := by
  have flag {first second : Except Fault Bool} (equal : first = second) :
      some (Query.Answer.flag <$> first) = some (Query.Answer.flag <$> second) := by
    rw [equal]
  cases t with
  | isAligned =>
      cases v with
      | address => exact flag (x.isAligned_congr same)
      | size => exact flag (x.isAligned_congr same)
      | offset =>
          have aligned : Offset.isAligned x y = Offset.isAligned x z := by
            rw [Offset.isAligned_eq, Offset.isAligned_eq, Value.isAligned_congr same]
          exact flag aligned
      | word => rfl
      | reference => rfl
  | isRounded =>
      cases v with
      | address => exact flag (x.isRounded_congr same)
      | size => exact flag (x.isRounded_congr same)
      | _ => rfl

theorem Operand.interchangeable_of_lowBits : y.Interchangeable M z where
  operation o _ x := o.perform?_congr same x
  question t _ x := t.answer?_congr same x
  move o _ _ memory p := by
    rw [Cursor.target, Cursor.target, o.perform?_congr same]
  add p := congrArg Pointer.mk (p.address.add_congr same)
  sub p := congrArg Pointer.mk (p.address.sub_congr same)

end Congruence

namespace Operand

/-- The sum with zero shows the word of an operand. -/
theorem Interchangeable.lowBits {y z : Operand} (same : y.Interchangeable M z) :
    LowBits M.bits (y.pattern M) (z.pattern M) := by
  have sums := same.operation .add (.zero : Address M)
  have values := congrArg Value.bits (Except.ok.inj (Option.some.inj sums))
  have zero : (.zero : Address M).bits = 0#64 := by
    rw [Value.zero, Value.bits_ofBits]
    exact BitVec.zero_and
  rw [Value.add, Value.add, Value.bits_ofBits, Value.bits_ofBits, zero, BitVec.zero_add,
    BitVec.zero_add] at values
  exact M.truncate_eq_iff.1 values

theorem lowBits_operand_ofBits (p : BitVec 64) :
    LowBits M.bits p ((.ofBits p : Value M v).operand.pattern M) := by
  rw [pattern_operand]
  exact (Value.lowBits_ofBits p).symm

end Operand

/-- **Only the word of an operand matters.** Two operands of any types are interchangeable, in all
operations, questions and moves that have an operand and for results and faults alike, if and only
if their patterns are congruent modulo the number of words. So an int, a long or a pattern may be
replaced by the word that it makes, under any view. -/
theorem operands_interchangeable (M : Model) :
    (∀ y z : Operand, y.Interchangeable M z ↔
      (y.pattern M).toNat ≡ (z.pattern M).toNat [MOD 2 ^ M.bits]) ∧
    (∀ (v : View) (n : Int32),
      (Operand.int n).Interchangeable M (.ofInt n : Value M v).operand) ∧
    (∀ (v : View) (n : Int64),
      (Operand.long n).Interchangeable M (.ofLong n : Value M v).operand) ∧
    (∀ (v : View) (n : UInt64),
      (Operand.unsignedLong n).Interchangeable M (.ofBits n.toBitVec : Value M v).operand) := by
  have made (y : Operand) (v : View) :
      y.Interchangeable M (.ofBits (y.pattern M) : Value M v).operand :=
    Operand.interchangeable_of_lowBits (Operand.lowBits_operand_ofBits (y.pattern M))
  refine ⟨?_, fun v n => made (.int n) v, fun v n => made (.long n) v,
    fun v n => made (.unsignedLong n) v⟩
  intro y z
  constructor
  · intro same
    exact LowBits.iff_mod.1 same.lowBits
  · intro congruent
    exact Operand.interchangeable_of_lowBits (LowBits.iff_mod.2 congruent)

end MachineWord
