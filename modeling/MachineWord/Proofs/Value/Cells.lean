import Mathlib
import MachineWord.Memory.Access
import MachineWord.Pointer.Basic
import MachineWord.Register.Basic
import MachineWord.Value.Counts
import MachineWord.Value.LowBits
import MachineWord.Value.Number
import MachineWord.Value.Stream

/-!
# The cells of words

A word is kept in a canonical cell. In numbers this is a range (`canonical_iff_inRange`): the cell
of a target word is below the number of words, and the cell of a hosted word is a signed number of
the size of a word. A program makes words from seeds and numerals, by operations, by loads and
swaps of a memory, and from streams, and looks at them under any view (`Obtainable`). The cells of
such words are exactly those in the range (`words_keep_canonical_cells`), and so no count that the
machine makes of a pattern overflows.
-/

set_option autoImplicit false

namespace MachineWord

namespace Model

/-- The range of the cells of a model: the signed numbers of the size of a word, or the patterns
without a bit beyond it. -/
def InRange : (M : Model) → M.Cell → Prop
  | ⟨size, .hosted⟩, cell =>
    -2 ^ (size.bits - 1) ≤ Int64.toInt cell ∧ Int64.toInt cell < 2 ^ (size.bits - 1)
  | ⟨size, .target⟩, cell => BitVec.toNat cell < 2 ^ size.bits

/-- A long is the number that its pattern is read as in the size of a word if it lies in the range
of signed numbers of that size. -/
theorem signExtend_toBitVec_eq_iff (M : Model) (n : Int64) :
    M.signExtend n.toBitVec = n ↔ -2 ^ (M.bits - 1) ≤ n.toInt ∧ n.toInt < 2 ^ (M.bits - 1) := by
  have value : (M.signExtend n.toBitVec).toInt = n.toInt.bmod (2 ^ M.bits) := by
    rw [Value.toInt_signExtend, ← Int.bmod_bmod_of_dvd (pow_dvd_pow 2 M.bits_le),
      ← BitVec.toInt_eq_toNat_bmod]
    rfl
  have half : (2 : Int) ^ M.bits = 2 * 2 ^ (M.bits - 1) := by
    rw [← pow_succ', Nat.sub_add_cancel M.bits_pos]
  rw [← Int64.toInt_inj, value, Int.bmod_eq_iff (Nat.two_pow_pos _), Int.sub_self,
    Nat.cast_pow, Nat.cast_ofNat, half]
  simp only [dvd_zero, and_true]
  omega

/-- A pattern has no bit to cut off if it is below the number of words. -/
theorem truncate_eq_self_iff (M : Model) (p : BitVec 64) :
    M.truncate p = p ↔ p.toNat < 2 ^ M.bits := by
  rw [← BitVec.toNat_inj, toNat_truncate]
  exact Nat.mod_eq_iff_lt (Nat.two_pow_pos _).ne'

/-- The canonical cells of a model are those in its range. -/
theorem canonical_iff_inRange {M : Model} (cell : M.Cell) :
    M.Canonical cell ↔ M.InRange cell := by
  rcases M with ⟨size, _ | _⟩
  · have low := lowBits_truncate ⟨size, .hosted⟩ (Int64.toBitVec cell)
    have kept : encode ⟨size, .hosted⟩ (decode ⟨size, .hosted⟩ cell) =
        signExtend ⟨size, .hosted⟩ (Int64.toBitVec cell) :=
      signExtend_congr _ ((lowBits_truncate _ _).trans low)
    rw [Canonical, kept]
    exact signExtend_toBitVec_eq_iff ⟨size, .hosted⟩ cell
  · exact truncate_eq_self_iff ⟨size, .target⟩ cell

/-- The cell in which a pattern is kept is in range, whatever its bits beyond a word. -/
theorem inRange_encode (M : Model) (p : BitVec 64) : M.InRange (M.encode p) :=
  (canonical_iff_inRange _).1 (M.canonical_encode p)

end Model

/-! ## Words of programs -/

/-- The values that a program can have made. The operand of an operation, the values of a swap,
memories and streams are arbitrary. -/
inductive Obtainable {M : Model} : {v : View} → Value M v → Prop where
  | seed {v : View} (s : Seed) : Obtainable (s.value : Value M v)
  | parse {radix : Nat} {text : String} {x : Address M} (read : Address.parse radix text = .ok x) :
      Obtainable x
  | view {v : View} {x : Value M v} (made : Obtainable x) (u : View) : Obtainable (x.as u)
  | operate {v : View} {x y : Value M v} (made : Obtainable x) {op : Operation}
      (performed : op.perform? x = some (.ok y)) : Obtainable y
  | loadWord {μ : Type} [Memory μ] {memory : μ} {p : Pointer M} {offset : Offset M} {x : Word M}
      (loaded : p.fetch memory .word offset = .ok x) : Obtainable x
  | loadReference {μ : Type} [Memory μ] {memory : μ} {p : Pointer M} {offset : Offset M}
      {x : Reference M} (loaded : p.fetch memory .reference offset = .ok x) : Obtainable x
  | swap {μ : Type} [Memory μ] {memory : μ} {p : Pointer M} {offset : Offset M} {v : View}
      {expected new x : Value M v}
      (swapped : (p.swapWord offset expected new : Access μ _).answer memory = .ok x) :
      Obtainable x
  | read {order : ByteOrder} {stream rest : List UInt8} {v : View} {x : Value M v}
      (found : Value.read? order stream = some (x, rest)) : Obtainable x

/-- Patterns of values are equal exactly if their cells are, under the same view or not. -/
theorem Value.bits_eq_iff {M : Model} {u v : View} (x : Value M u) (y : Value M v) :
    x.bits = y.bits ↔ x.cell = y.cell := by
  constructor
  · intro same
    have words : x.as v = y := ext_bits same
    exact congrArg Value.cell words
  · exact congrArg M.decode

/-- **Words keep canonical cells.** Whatever 64 bits a pattern has, the cell in which it is kept
lies in the range of the model, the pattern that comes back is its remainder modulo the number of
words, and it is kept in the same cell again. So the cells of the values that programs make are
those in the range and no others. For every value the pattern is below the number of words, and
the machine counts its zeros, its bits and its digits without an overflow. Values are equal exactly
if their cells are. -/
theorem words_keep_canonical_cells (M : Model) :
    (∀ p : BitVec 64, M.InRange (M.encode p) ∧
      (M.decode (M.encode p)).toNat = p.toNat % 2 ^ M.bits ∧
      M.encode (M.decode (M.encode p)) = M.encode p) ∧
    (∀ cell : M.Cell, (∃ (v : View) (x : Value M v), Obtainable x ∧ x.cell = cell) ↔
      M.InRange cell) ∧
    (∀ (v : View) (x : Value M v),
      x.bits.toNat < 2 ^ M.bits ∧ M.encode x.bits = x.cell ∧
      M.countLeadingZeros x.bits = .ok x.leadingZeros ∧
      M.countEffectiveBits x.bits = .ok x.effectiveBits ∧
      M.findHighestSetBit x.bits = .ok x.highestSetBit? ∧
      ∀ fill, M.fillHex fill x.bits = .ok (x.paddedHex fill)) ∧
    (∀ (u v : View) (x : Value M u) (y : Value M v), x.bits = y.bits ↔ x.cell = y.cell) ∧
    ∀ (v : View) (x y : Value M v), (x == y) = true ↔ x.cell = y.cell := by
  refine ⟨?_, ?_, ?_, fun u v => Value.bits_eq_iff, ?_⟩
  · intro p
    exact ⟨M.inRange_encode p, by rw [M.decode_encode, Model.toNat_truncate],
      M.canonical_encode p⟩
  · intro cell
    constructor
    · rintro ⟨v, x, -, rfl⟩
      exact (Model.canonical_iff_inRange _).1 x.canonical
    · intro inRange
      refine ⟨.word, (Seed.bits (M.decode cell)).value, .seed _, ?_⟩
      exact (Model.canonical_iff_inRange cell).2 inRange
  · intro v x
    exact ⟨x.toNat_bits_lt, x.canonical, x.countLeadingZeros_bits, x.countEffectiveBits_bits,
      x.findHighestSetBit_bits, x.fillHex_bits⟩
  · intro v x y
    rw [beq_iff_eq, ← Value.bits_inj, Value.bits_eq_iff]

end MachineWord
