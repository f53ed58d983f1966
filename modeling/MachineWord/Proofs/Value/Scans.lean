import Mathlib
import MachineWord.Arithmetic.Shared
import MachineWord.Value.Counts

/-!
# Scans of a value

The bits set of a value lie between the lowest and the highest one, and the counts of zeros and of
bits needed follow from these two (`Value.spans_of_ne_zero`). The machine finds the lowest bit by a
count of zeros of 64 bits, which for zero is cut off at the size of a word (`trailingZeros_eq`). A
pattern has just its lowest bit in common with its negation (`and_neg_eq_twoPow`), also when both
are cut off at the size of a word.

The narrowest width category that holds a value is the least one with room for all its bits. There
is one, since a word itself has the bits of a category, and it grows with the value.
-/

set_option autoImplicit false

namespace MachineWord

/-! ## Patterns -/

/-- A pattern and its negation have just the lowest bit set in common. -/
theorem and_neg_eq_twoPow {p : BitVec 64} (nonzero : p ≠ 0) :
    p &&& -p = BitVec.twoPow 64 p.ctz.toNat := by
  have lowest : p.getLsbD p.ctz.toNat = true := BitVec.getLsbD_true_ctz_of_ne_zero nonzero
  have below (i : Nat) (lower : i < p.ctz.toNat) : p.getLsbD i = false :=
    BitVec.getLsbD_false_of_lt_ctz lower
  have within : p.ctz.toNat < 64 := BitVec.lt_of_getLsbD lowest
  apply BitVec.eq_of_getLsbD_eq
  intro i small
  rw [BitVec.getLsbD_and, BitVec.getLsbD_neg, BitVec.getLsbD_twoPow]
  rcases Nat.lt_trichotomy i p.ctz.toNat with lower | rfl | higher
  · rw [below i lower, decide_eq_false (Nat.ne_of_gt lower)]
    simp
  · have none : ¬ ∃ j < p.ctz.toNat, p.getLsbD j = true := by
      rintro ⟨j, lower, set⟩
      rw [below j lower] at set
      contradiction
    simp [lowest, none, within]
  · have some : ∃ j < i, p.getLsbD j = true := ⟨_, higher, lowest⟩
    rw [decide_eq_false (Nat.ne_of_lt higher), decide_eq_true some, decide_eq_true small]
    simp

/-- The numbers of a range that satisfy a test, from the first one up to the first that does
not. -/
theorem length_takeWhile_upward {test : Nat → Bool} {n k : Nat} (le : k ≤ n)
    (below : ∀ i, i < k → test i = true) (stop : k < n → test k = false) :
    ((List.range n).takeWhile test).length = k := by
  obtain ⟨rest, rfl⟩ := Nat.exists_eq_add_of_le le
  have passed : ∀ i ∈ List.range k, test i = true := fun i listed =>
    below i (List.mem_range.1 listed)
  rw [List.range_add, List.takeWhile_append_of_pos passed, List.length_append, List.length_range]
  cases rest with
  | zero => rfl
  | succ rest =>
      have failed : ¬ test (k + 0) = true := by
        rw [Nat.add_zero, stop (by omega)]
        decide
      rw [List.range_succ_eq_map, List.map_cons, List.takeWhile_cons_of_neg failed]
      rfl

/-- The category of a word has the bits of a word. -/
theorem Model.bits_width (M : Model) : M.width.bits = M.bits := by
  rw [width, bits]
  cases M.size <;> rfl

namespace Value

variable {M : Model} {v : View} {x : Value M v} {i : Nat}

/-! ## The lowest and the highest bit set -/

/-- A bit that is set lies below the size of a word. -/
theorem lt_of_testBit (set : x.testBit i = true) : i < M.bits := by
  have large : 2 ^ i ≤ x.bits.toNat := Nat.ge_two_pow_of_testBit set
  exact (Nat.pow_lt_pow_iff_right (by decide)).1 (large.trans_lt x.toNat_bits_lt)

/-- What the scans of a value find if its bits set lie from one index up to another. -/
structure Spans (x : Value M v) (lowest highest : Nat) : Prop where
  lowest_eq : x.lowestSetBit? = some lowest
  highest_eq : x.highestSetBit? = some highest
  le : lowest ≤ highest
  lt_bits : highest < M.bits
  lowest_set : x.testBit lowest = true
  highest_set : x.testBit highest = true
  between (i : Nat) (set : x.testBit i = true) : lowest ≤ i ∧ i ≤ highest
  two_pow_le : 2 ^ highest ≤ x.bits.toNat
  lt_two_pow : x.bits.toNat < 2 ^ (highest + 1)
  /-- The word has just the lowest bit in common with its negation. -/
  and_neg : (Offset.and (x.as .offset) (Offset.neg (x.as .offset)).operand).bits.toNat = 2 ^ lowest
  leadingZeros_eq : x.leadingZeros = M.bits - 1 - highest
  trailingZeros_eq : x.trailingZeros = lowest
  effectiveBits_eq : x.effectiveBits = highest + 1

theorem testBit_ctz (nonzero : x.bits ≠ 0) : x.testBit x.bits.ctz.toNat = true :=
  BitVec.getLsbD_true_ctz_of_ne_zero nonzero

theorem testBit_of_lt_ctz (lower : i < x.bits.ctz.toNat) : x.testBit i = false :=
  BitVec.getLsbD_false_of_lt_ctz lower

theorem lowestSetBit?_eq (nonzero : x.bits ≠ 0) :
    x.lowestSetBit? = some x.bits.ctz.toNat := by
  have set := testBit_ctz nonzero
  refine List.find?_range_eq_some.2 ⟨set, List.mem_range.2 (lt_of_testBit set), ?_⟩
  intro i lower
  rw [testBit_of_lt_ctz lower]
  rfl

/-- The machine counts the zeros below the lowest bit set, up to the size of a word. -/
theorem trailingZeros_eq (x : Value M v) : x.trailingZeros = min x.bits.ctz.toNat M.bits := by
  refine length_takeWhile_upward (Nat.min_le_right _ _) ?_ ?_
  · intro i lower
    rw [testBit_of_lt_ctz (lower.trans_le (Nat.min_le_left _ _))]
    rfl
  · intro inside
    have short : x.bits.ctz.toNat < M.bits := by omega
    have nonzero : x.bits ≠ 0 :=
      BitVec.ctz_lt_iff_ne_zero.1 (BitVec.lt_def.2 (short.trans_le M.bits_le))
    rw [Nat.min_eq_left short.le, testBit_ctz nonzero]
    rfl

theorem highestSetBit?_eq (nonzero : x.bits ≠ 0) :
    x.highestSetBit? = some x.bits.toNat.log2 :=
  if_neg (mt beq_iff_eq.1 nonzero)

/-- The word of a value has just the lowest bit in common with its negation, also where both are
cut off at the size of a word. -/
theorem toNat_and_neg (nonzero : x.bits ≠ 0) :
    (Offset.and (x.as .offset) (Offset.neg (x.as .offset)).operand).bits.toNat =
      2 ^ x.bits.ctz.toNat := by
  have within : x.bits.ctz.toNat < M.bits := lt_of_testBit (testBit_ctz nonzero)
  have low : LowBits M.bits (x.bits &&& M.truncate (-x.bits)) (x.bits &&& -x.bits) :=
    .and (.refl _) (M.lowBits_truncate _)
  rw [Offset.and_eq, Value.and, Operand.pattern_operand, Offset.neg_eq, bits_ofBits, bits_ofBits,
    bits_as, M.truncate_eq_iff.2 low, and_neg_eq_twoPow nonzero, Model.toNat_truncate,
    BitVec.toNat_twoPow]
  have short : 2 ^ x.bits.ctz.toNat < 2 ^ M.bits := Nat.pow_lt_pow_right (by decide) within
  have space : 2 ^ M.bits ≤ 2 ^ 64 := Nat.pow_le_pow_right (by decide) M.bits_le
  rw [Nat.mod_eq_of_lt (short.trans_le space), Nat.mod_eq_of_lt short]

/-- All scans of a value other than zero agree. -/
theorem spans_of_ne_zero (nonzero : x.bits ≠ 0) :
    x.Spans x.bits.ctz.toNat x.bits.toNat.log2 := by
  have number : x.bits.toNat ≠ 0 := fun zero => nonzero (BitVec.eq_of_toNat_eq zero)
  have lowest_set : x.testBit x.bits.ctz.toNat = true := testBit_ctz nonzero
  have highest_set : x.testBit x.bits.toNat.log2 = true := Nat.testBit_log2 number
  have lt_two_pow : x.bits.toNat < 2 ^ (x.bits.toNat.log2 + 1) := Nat.lt_log2_self
  have between (i : Nat) (set : x.testBit i = true) :
      x.bits.ctz.toNat ≤ i ∧ i ≤ x.bits.toNat.log2 := by
    constructor
    · by_contra lower
      rw [testBit_of_lt_ctz (Nat.not_le.1 lower)] at set
      contradiction
    · have large : 2 ^ i ≤ x.bits.toNat := Nat.ge_two_pow_of_testBit set
      exact Nat.le_of_lt_succ
        ((Nat.pow_lt_pow_iff_right (by decide)).1 (large.trans_lt lt_two_pow))
  have size : x.bits.toNat.size = x.bits.toNat.log2 + 1 := by
    have positive : 0 < x.bits.toNat.size := Nat.size_pos.2 (Nat.pos_of_ne_zero number)
    rw [log2_eq_size_sub_one number]
    omega
  exact {
    lowest_eq := lowestSetBit?_eq nonzero
    highest_eq := highestSetBit?_eq nonzero
    le := (between _ highest_set).1
    lt_bits := lt_of_testBit highest_set
    lowest_set
    highest_set
    between
    two_pow_le := Nat.log2_self_le number
    lt_two_pow
    and_neg := toNat_and_neg nonzero
    leadingZeros_eq := by rw [leadingZeros_eq, size, Nat.sub_sub, Nat.add_comm]
    trailingZeros_eq := by
      rw [trailingZeros_eq]
      exact Nat.min_eq_left (lt_of_testBit lowest_set).le
    effectiveBits_eq := x.effectiveBits_eq.trans size }

theorem bits_eq_zero_iff : x.bits = 0 ↔ x = zero := by
  have bits : (zero : Value M v).bits = 0 := BitVec.eq_of_toNat_eq toNat_bits_zero
  rw [← bits, bits_inj]

/-- Zero has no bit set, and needs none. -/
theorem scans_zero (none : x.bits = 0) :
    x.lowestSetBit? = .none ∧ x.highestSetBit? = .none ∧ x.leadingZeros = M.bits ∧
      x.trailingZeros = M.bits ∧ x.effectiveBits = 0 := by
  have size : x.bits.toNat.size = 0 := by rw [none]; exact Nat.size_zero
  have count : M.bits ≤ x.bits.ctz.toNat := by
    refine M.bits_le.trans (Nat.not_lt.1 fun short => ?_)
    exact BitVec.ctz_lt_iff_ne_zero.1 (BitVec.lt_def.2 short) none
  refine ⟨?_, if_pos (beq_iff_eq.2 none), ?_, ?_, ?_⟩
  · refine List.find?_eq_none.2 fun i listed set => ?_
    rw [testBit_of_lt_ctz ((List.mem_range.1 listed).trans_le count)] at set
    contradiction
  · rw [leadingZeros_eq, size, Nat.sub_zero]
  · rw [trailingZeros_eq, Nat.min_eq_right count]
  · rw [effectiveBits_eq, size]

/-! ## Width categories -/

theorem effectiveBits_le_iff (x : Value M v) (n : Nat) :
    x.effectiveBits ≤ n ↔ x.bits.toNat < 2 ^ n := by
  rw [effectiveBits_eq, Nat.size_le]

/-- The category of a value is the least one with room for its bits. -/
theorem effectiveWidth?_eq_some_iff (x : Value M v) (w : Width) :
    x.effectiveWidth? = some w ↔
      x.bits.toNat < 2 ^ w.bits ∧ ∀ u : Width, x.bits.toNat < 2 ^ u.bits → w.bits ≤ u.bits := by
  simp only [effectiveWidth?, Width.narrowest?_eq_some_iff, effectiveBits_le_iff]

/-- A value has a category, which is not wider than a word. -/
theorem exists_effectiveWidth (x : Value M v) :
    ∃ w, x.effectiveWidth? = some w ∧ x.bits.toNat < 2 ^ w.bits ∧
      (∀ u : Width, x.bits.toNat < 2 ^ u.bits → w.bits ≤ u.bits) ∧ w.bits ≤ M.bits := by
  have room : x.bits.toNat < 2 ^ M.width.bits := M.bits_width ▸ x.toNat_bits_lt
  cases found : x.effectiveWidth? with
  | some w =>
      obtain ⟨holds, least⟩ := (x.effectiveWidth?_eq_some_iff w).1 found
      exact ⟨w, rfl, holds, least, M.bits_width ▸ least M.width room⟩
  | none =>
      have refused := List.find?_eq_none.1 found M.width (Width.mem_all _)
      rw [decide_eq_true_iff, effectiveBits_le_iff] at refused
      exact absurd room refused

/-- The category of a larger number is not narrower. -/
theorem effectiveWidth?_mono {u : View} {x : Value M v} {y : Value M u}
    (le : x.bits.toNat ≤ y.bits.toNat) {w w' : Width} (found : x.effectiveWidth? = some w)
    (found' : y.effectiveWidth? = some w') : w.bits ≤ w'.bits :=
  ((x.effectiveWidth?_eq_some_iff w).1 found).2 w'
    (le.trans_lt ((y.effectiveWidth?_eq_some_iff w').1 found').1)

/-- **Bit scans and effective widths.** In a value other than zero the scans find a lowest and a
highest bit set, which are the ends of its bits, bound it by powers of two and determine the counts
of zeros and of bits needed (`Spans`). Zero has neither bit, as many zeros on both sides as a word
has bits, and needs no bits. These are the counts of the machine, which counts in 64 bits, and none
of its subtractions overflows. Each value has an effective width, which is the least category with
room for it and no wider than a word, and it grows with the number that the value stands for. -/
theorem scans_and_widths (M : Model) (v : View) :
    (∀ x : Value M v, x ≠ zero → ∃ lowest highest, x.Spans lowest highest) ∧
    ((zero : Value M v).lowestSetBit? = none ∧ (zero : Value M v).highestSetBit? = none ∧
      (zero : Value M v).leadingZeros = M.bits ∧ (zero : Value M v).trailingZeros = M.bits ∧
      (zero : Value M v).effectiveBits = 0) ∧
    (∀ x : Value M v, M.countLeadingZeros x.bits = .ok x.leadingZeros ∧
      M.countEffectiveBits x.bits = .ok x.effectiveBits ∧
      M.findHighestSetBit x.bits = .ok x.highestSetBit? ∧
      min x.bits.ctz.toNat M.bits = x.trailingZeros) ∧
    (∀ x : Value M v, ∃ w, x.effectiveWidth? = some w ∧ x.bits.toNat < 2 ^ w.bits ∧
      (∀ u : Width, x.bits.toNat < 2 ^ u.bits → w.bits ≤ u.bits) ∧ w.bits ≤ M.bits) ∧
    ∀ (x y : Value M v) (w u : Width), x.bits.toNat ≤ y.bits.toNat → x.effectiveWidth? = some w →
      y.effectiveWidth? = some u → w.bits ≤ u.bits := by
  refine ⟨?_, ?_, ?_, exists_effectiveWidth, ?_⟩
  · intro x nonzero
    exact ⟨_, _, spans_of_ne_zero (mt bits_eq_zero_iff.1 nonzero)⟩
  · exact scans_zero (bits_eq_zero_iff.2 rfl)
  · intro x
    exact ⟨x.countLeadingZeros_bits, x.countEffectiveBits_bits, x.findHighestSetBit_bits,
      x.trailingZeros_eq.symm⟩
  · intro x y w u le found found'
    exact effectiveWidth?_mono le found found'

/-- The two bits on both sides of the least category. -/
theorem scans_and_widths_of_two_bits :
    let x : Address .hosted32 := .ofBits 0x180
    x.Spans 7 8 ∧ x.effectiveWidth? = some .bits16 ∧
      ∀ w, (ofBits 0x80 : Address .hosted32).effectiveWidth? = some w → w.bits ≤ 16 := by
  intro x
  obtain ⟨spans, -, -, -, monotone⟩ := scans_and_widths .hosted32 .address
  obtain ⟨lowest, highest, found⟩ := spans x (by decide)
  have lowest_eq : lowest = 7 :=
    Option.some.inj (found.lowest_eq.symm.trans (by decide +kernel))
  have highest_eq : highest = 8 :=
    Option.some.inj (found.highest_eq.symm.trans (by decide +kernel))
  have width : x.effectiveWidth? = some .bits16 := by decide +kernel
  subst lowest_eq highest_eq
  exact ⟨found, width, fun w narrower => monotone _ x w .bits16 (by decide +kernel) narrower width⟩

end Value

end MachineWord
