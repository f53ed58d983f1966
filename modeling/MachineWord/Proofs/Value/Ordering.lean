import Mathlib
import MachineWord.Proofs.Arithmetic.Quotients
import MachineWord.Value.Order

/-!
# Values in order

A value is compared as a number, which is signed for offsets and unsigned for all others
(`Value.compare_eq`). The number determines the value, so the order of a view is total and agrees
with equality, and a sorted list is the only arrangement of its values with growing numbers. The
order of offsets is that of addresses whose sign bit is flipped, because the flip adds half of the
number of words to the number (`Value.toNat_bits_xor_sign`). The distinct values of a list of longs
are as many as the remainders of the longs, whatever the view and the mode.
-/

set_option autoImplicit false

namespace MachineWord

variable {M : Model} {v : View}

/-- A flip of the highest bit adds half of the range to a number of the lower half, and takes it
away from one of the upper half. -/
theorem xor_two_pow {n k : Nat} (small : n < 2 * 2 ^ k) :
    n ^^^ 2 ^ k = if n < 2 ^ k then n + 2 ^ k else n - 2 ^ k := by
  have parts := Nat.div_add_mod (n ^^^ 2 ^ k) (2 ^ k)
  rw [Nat.xor_div_two_pow, Nat.xor_mod_two_pow, Nat.div_self (Nat.two_pow_pos k), Nat.mod_self,
    Nat.xor_zero] at parts
  split
  next low =>
      rw [Nat.div_eq_of_lt low, Nat.mod_eq_of_lt low] at parts
      rw [← parts]
      simp [Nat.add_comm]
  next high =>
      have upper := Nat.le_of_not_lt high
      have quotient : n / 2 ^ k = 1 := Nat.div_eq_of_lt_le (by omega) (by omega)
      have remainder : n % 2 ^ k = n - 2 ^ k := by
        rw [Nat.mod_eq_sub_mod upper, Nat.mod_eq_of_lt (by omega)]
      rw [quotient, remainder] at parts
      rw [← parts]
      simp

namespace Value

/-! ## The number of a value -/

/-- The number that a value is ordered by. -/
def number (x : Value M v) : Int :=
  if v.isSigned then (x.bits.toNat : Int).bmod (2 ^ M.bits) else x.bits.toNat

variable (x y : Value M v)

/-- The number is one of the integers whose value it is. -/
theorem ofNumber_number : ofNumber x.number = x := by
  rw [number]
  split
  · exact (ofNumber_congr (bmod_modEq le_rfl _)).trans x.ofNumber_bits
  · exact x.ofNumber_bits

theorem number_injective : Function.Injective (number : Value M v → Int) := by
  intro x y same
  rw [← x.ofNumber_number, same, y.ofNumber_number]

theorem number_of_isSigned (signed : v.isSigned = true) :
    x.number = x.toLong.toInt ∧ M.HasSigned x.number := by
  rw [number, if_pos signed, toLong, if_pos signed, toInt_signExtend]
  exact ⟨rfl, M.hasSigned_bmod _⟩

theorem number_of_not_isSigned (unsigned : v.isSigned = false) : x.number = x.bits.toNat := by
  simp [number, unsigned]

/-! ## Comparison -/

/-- Values are compared as their numbers. -/
theorem compare_eq : compare x y = compare x.number y.number := by
  change (if v.isSigned then compare x.toLong.toInt y.toLong.toInt
    else compare x.bits.toNat y.bits.toNat) = _
  split
  next signed => rw [(x.number_of_isSigned signed).1, (y.number_of_isSigned signed).1]
  next unsigned =>
      have same := Bool.eq_false_iff.2 unsigned
      rw [x.number_of_not_isSigned same, y.number_of_not_isSigned same]
      simp [compare, compareOfLessAndEq]

theorem compare_eq_compareOn : (compare : Value M v → Value M v → Ordering) = compareOn number := by
  funext x y
  exact x.compare_eq y

instance : Std.TransOrd (Value M v) := by
  change Std.TransCmp (compare : Value M v → Value M v → Ordering)
  rw [compare_eq_compareOn]
  infer_instance

instance : Std.LawfulEqOrd (Value M v) where
  eq_of_compare {x y} same := by
    rw [compare_eq] at same
    exact number_injective (Std.LawfulEqOrd.eq_of_compare same)

theorem isLE_compare_iff : (compare x y).isLE ↔ x.number ≤ y.number := by
  rw [compare_eq]
  exact Int.isLE_compare

/-- Values are equal if their longs agree modulo the number of words. -/
theorem ofLong_inj {a b : Int64} :
    (ofLong a : Value M v) = ofLong b ↔ a.toInt ≡ b.toInt [ZMOD 2 ^ M.bits] := by
  rw [ofLong_eq, ofLong_eq, ofNumber_inj]

/-! ## The sign bit -/

/-- The address of an offset with the sign bit flipped lies half of the number of words above the
signed number. -/
theorem toNat_bits_xor_sign (x : Offset M) {sign : Operand}
    (top : sign.residue M = 2 ^ (M.bits - 1)) :
    (((x.as .address).xor sign).bits.toNat : Int) = x.number + 2 ^ (M.bits - 1) := by
  have small := x.toNat_bits_lt
  have signed : x.number = (x.bits.toNat : Int).bmod (2 ^ M.bits) := if_pos rfl
  rw [signed, xor, toNat_bits_ofBits, BitVec.toNat_xor, Nat.xor_mod_two_pow, bits_as,
    ← Operand.residue, top, Nat.mod_eq_of_lt small, xor_two_pow (M.two_pow_bits_eq ▸ small),
    Int.bmod_def, Int.emod_eq_of_lt (by positivity) (by exact_mod_cast small)]
  have cast : (2 : Int) ^ (M.bits - 1) = (2 ^ (M.bits - 1) : Nat) := by push_cast; rfl
  rw [cast]
  rw [M.two_pow_bits_eq] at small ⊢
  generalize 2 ^ (M.bits - 1) = half at small ⊢
  split <;> split <;> omega

/-- Offsets are ordered as the addresses with the sign bit flipped. -/
theorem compare_xor_sign (x y : Offset M) {sign : Operand}
    (top : sign.residue M = 2 ^ (M.bits - 1)) :
    compare ((x.as .address).xor sign) ((y.as .address).xor sign) = compare x y := by
  have unsigned (z : Address M) : z.number = z.bits.toNat := z.number_of_not_isSigned rfl
  rw [compare_eq, compare_eq, unsigned, unsigned, x.toNat_bits_xor_sign top,
    y.toNat_bits_xor_sign top]
  simp [compare, compareOfLessAndEq]

/-! ## Sorted lists -/

section Lists

variable (values : List (Value M v))

theorem sorted_perm : (sorted values).Perm values := List.mergeSort_perm _ _

theorem pairwise_sorted : (sorted values).Pairwise fun x y => x.number ≤ y.number := by
  have trans (x y z : Value M v) (first : (compare x y).isLE) (second : (compare y z).isLE) :
      (compare x z).isLE := Std.TransCmp.isLE_trans first second
  have total (x y : Value M v) : (compare x y).isLE || (compare y x).isLE := by
    simp [isLE_compare_iff, Int.le_total]
  exact (List.pairwise_mergeSort trans total values).imp fun le => (isLE_compare_iff _ _).1 le

/-- Only one arrangement of values has growing numbers. -/
theorem eq_sorted {other : List (Value M v)} (arranged : other.Perm values)
    (ordered : other.Pairwise fun x y => x.number ≤ y.number) : other = sorted values := by
  refine (arranged.trans (sorted_perm values).symm).eq_of_pairwise ?_ ordered
    (pairwise_sorted values)
  intro x y _ _ le ge
  exact number_injective (Int.le_antisymm le ge)

/-! ## Distinct values -/

theorem distinct_eq_dedup : distinct values = values.dedup := by
  induction values with
  | nil => rfl
  | cons x rest ih =>
      rw [distinct, ih]
      split
      next repeated => rw [List.dedup_cons_of_mem repeated]
      next new => rw [List.dedup_cons_of_notMem new]

/-- The values of longs are as many as the remainders of the longs. -/
theorem length_distinct_ofLong (longs : List Int64) :
    (distinct (longs.map ofLong : List (Value M v))).length =
      (longs.map fun n => n.toInt % 2 ^ M.bits).toFinset.card := by
  have remainders : (longs.map fun n => n.toInt % 2 ^ M.bits) =
      (longs.map ofLong : List (Value M v)).map fun x => (x.bits.toNat : Int) := by
    simp [Function.comp_def, ofLong_eq, toNat_bits_ofNumber]
  have injective : Function.Injective fun x : Value M v => (x.bits.toNat : Int) := by
    intro x y same
    exact ext_bits (BitVec.eq_of_toNat_eq (Int.ofNat_inj.1 same))
  rw [remainders, List.card_toFinset, List.dedup_map_of_injective injective, List.length_map,
    distinct_eq_dedup]

end Lists

end Value

open Value in
/-- **Order, equality and hashes agree with the numbers of a view.** A value is compared as a
number, the signed one that its long stands for if it is an offset, and its pattern otherwise. The
order is total, values compare as equal exactly if they are equal, and this is if their patterns
are. Values with one pattern have one hash, in every model and every view. Two longs have the same
value exactly if they agree modulo the number of words. Offsets are ordered as the addresses with
the sign bit flipped. A list is sorted into its only arrangement with growing numbers. The distinct
values of a list of longs are as many as the remainders of the longs, in every view and in every
mode. -/
theorem values_are_ordered_as_numbers (M : Model) (v : View) :
    (∀ x : Value M v, if v.isSigned then x.number = x.toLong.toInt ∧ M.HasSigned x.number
      else x.number = x.bits.toNat) ∧
    (∀ x y : Value M v, compare x y = compare x.number y.number) ∧
    Std.TransOrd (Value M v) ∧
    (∀ x y : Value M v, (compare x y = .eq ↔ (x == y) = true) ∧
      ((x == y) = true ↔ x.bits = y.bits)) ∧
    (∀ (x : Value M v) {N : Model} {u : View} (y : Value N u), x.bits = y.bits →
      hash x = hash y) ∧
    (∀ a b : Int64, (ofLong a : Value M v) = ofLong b ↔ a.toInt ≡ b.toInt [ZMOD 2 ^ M.bits]) ∧
    (∀ (x y : Offset M) (sign : Operand), sign.residue M = 2 ^ (M.bits - 1) →
      ∃ x' y' : Address M,
        (Operation.xor sign).perform? (x.as .address) = some (.ok x') ∧
        (Operation.xor sign).perform? (y.as .address) = some (.ok y') ∧
        compare x y = compare x' y') ∧
    (∀ values : List (Value M v), (sorted values).Perm values ∧
      ((sorted values).Pairwise fun x y => x.number ≤ y.number) ∧
      ∀ other : List (Value M v), other.Perm values →
        (other.Pairwise fun x y => x.number ≤ y.number) → other = sorted values) ∧
    ∀ (longs : List Int64) (N : Model) (u : View), N.size = M.size →
      (distinct (longs.map ofLong : List (Value N u))).length =
        (longs.map fun n => n.toInt % 2 ^ M.bits).toFinset.card := by
  refine ⟨?_, compare_eq, inferInstance, ?_, ?_, fun a b => ofLong_inj, ?_, ?_, ?_⟩
  · intro x
    split
    next signed => exact x.number_of_isSigned signed
    next unsigned => exact x.number_of_not_isSigned (Bool.eq_false_iff.2 unsigned)
  · intro x y
    rw [Std.LawfulEqCmp.compare_eq_iff_eq, beq_iff_eq, bits_inj]
    exact ⟨Iff.rfl, Iff.rfl⟩
  · intro x N u y same
    exact congrArg hash same
  · intro x y sign top
    exact ⟨_, _, rfl, rfl, (x.compare_xor_sign y top).symm⟩
  · intro values
    exact ⟨sorted_perm values, pairwise_sorted values, fun _ => eq_sorted values⟩
  · intro longs N u size
    have bits : M.bits = N.bits := congrArg WordSize.bits size.symm
    rw [bits, length_distinct_ofLong]

/-- The least offset of 32 bits comes before the largest one, as the flipped sign bits say. A long
beyond 32 bits repeats a value, for sizes of the other mode too, and the hash is that of the
pattern. -/
theorem values_are_ordered_as_numbers_around_sign :
    let least : Offset .hosted32 := .ofBits 0x80000000
    let largest : Offset .hosted32 := .ofBits 0x7fffffff
    let least' : Size .target64 := .ofBits 0x80000000
    compare least largest = compare (.ofBits 0 : Address .hosted32) (.ofBits 0xffffffff) ∧
      [least, largest] = Value.sorted [largest, least] ∧ hash least = hash least' ∧
      (Value.distinct ([-1, 0xffffffff, 0].map Value.ofLong : List (Size .target32))).length = 2 := by
  intro least largest least'
  obtain ⟨-, -, -, -, hashes, -, flipped, sorts, counts⟩ :=
    values_are_ordered_as_numbers .hosted32 .offset
  obtain ⟨x, y, performed, performed', order⟩ :=
    flipped least largest (.int Int32.minValue) (by decide)
  have first : x = .ofBits 0 := Except.ok.inj (Option.some.inj (performed.symm.trans (by decide)))
  have last : y = .ofBits 0xffffffff :=
    Except.ok.inj (Option.some.inj (performed'.symm.trans (by decide)))
  refine ⟨?_, (sorts [largest, least]).2.2 _ (.swap _ _ _) (by decide),
    hashes least least' (by decide), ?_⟩
  · rw [order, first, last]
  · rw [counts _ .target32 .size rfl]
    decide

end MachineWord
