import Mathlib
import MachineWord.Memory.Region.Swap
import MachineWord.Proofs.Memory.Typed

/-!
# Typed swaps

Ints, words and references are the kinds that can be swapped. A swap refuses an address that
is not a multiple of the number of bytes of its kind, and bytes that do not all lie in the
region. Any other swap is a read, a comparison and a write made in one step (`swap_of_inside`): it
answers what the read answers, and it leaves the region that the write leaves if the answer is
the expected value, and the same region otherwise. Whether the memory compares half a cell or
a whole exchanged cell cannot be told from the outside.
-/

set_option autoImplicit false

namespace MachineWord

/-- A kind of value that can be swapped. -/
inductive SwapKind where
  | int
  | word
  | reference
  deriving DecidableEq, Repr

namespace SwapKind

/-- The kind among all kinds of values that memory can hold. -/
def scalar : SwapKind → Scalar
  | int => .int
  | word => .word
  | reference => .reference

/-- The size of the words that memory swaps for a kind. -/
def size (M : Model) : SwapKind → WordSize
  | int => .w32
  | word => M.size
  | reference => M.size

variable {M : Model} (k : SwapKind)

theorem scalar_ne_boolean : k.scalar ≠ .boolean := by cases k <;> exact nofun

theorem bytes_scalar (M : Model) : k.scalar.bytes M = (k.size M).bytes := by cases k <;> rfl

/-- The pattern in which memory swaps a value. -/
def pattern (x : k.scalar.Carrier M) : BitVec (k.size M).bits :=
  BitVec.ofNat _ (k.scalar.encode M x)

theorem toNat_pattern (x : k.scalar.Carrier M) : (k.pattern x).toNat = k.scalar.encode M x := by
  have small := k.scalar.encode_lt M x
  rw [bytes_scalar, ← WordSize.two_pow_bits] at small
  rw [pattern, BitVec.toNat_ofNat, Nat.mod_eq_of_lt small]

/-- A pattern is that of the value decoded from it. -/
theorem eq_pattern_iff (held : BitVec (k.size M).bits) (x : k.scalar.Carrier M) :
    held = k.pattern x ↔ k.scalar.decode M held.toNat = x := by
  constructor
  · rintro rfl
    rw [toNat_pattern, Scalar.decode_encode]
  · rintro rfl
    have small : held.toNat < 256 ^ k.scalar.bytes M := by
      rw [bytes_scalar, ← WordSize.two_pow_bits]
      exact held.isLt
    apply BitVec.eq_of_toNat_eq
    rw [toNat_pattern, Scalar.encode_decode M _ k.scalar_ne_boolean small]

end SwapKind

namespace Region

/-- The four bytes of half a cell. Half cells are numbered by their distance from the base. -/
def halfCell (r : Region) (i : Nat) : List UInt8 :=
  ((cellBytes (r.cells.getD (i / 2) 0)).drop (4 * (i % 2))).take 4

theorem halfCell_eq_bytesAt (r : Region) (i : Nat) : r.halfCell i = r.bytesAt (4 * i) 4 := by
  have cell : 4 * i / 8 = i / 2 := by omega
  have half : 4 * i % 8 = 4 * (i % 2) := by omega
  have bytes := r.bytesAt_of_cell (show 4 * i % 8 + 4 ≤ 8 by omega)
  rwa [cell, half] at bytes

end Region

namespace Pointer

section Definition

variable {M : Model} {μ : Type} [Memory μ]

/-- Replaces a value at an offset by a new one if it is the expected one. Answers the value
that was there. -/
def swap (p : Pointer M) (offset : Offset M) :
    (k : SwapKind) → (expected new : k.scalar.Carrier M) → Access μ (k.scalar.Carrier M)
  | .int, expected, new => p.swapInt offset expected new
  | .word, (expected : Word M), new => p.swapWord offset expected new
  | .reference, (expected : Reference M), new => p.swapWord offset expected new

/-- All kinds are swapped as patterns. -/
theorem swap_eq (p : Pointer M) (offset : Offset M) (k : SwapKind)
    (expected new : k.scalar.Carrier M) :
    p.swap offset k expected new =
      (do
        let previous ← Access.exchange fun memory : μ =>
          Memory.swap memory (k.size M) (p.locate offset) (k.pattern expected) (k.pattern new)
        return k.scalar.decode M previous.toNat) := by
  cases k with
  | int =>
      have same (x : BitVec 32) : BitVec.ofNat 32 x.toNat = x := by
        rw [BitVec.ofNat_toNat, BitVec.setWidth_eq]
      have expected_eq : SwapKind.int.pattern expected = Int32.toBitVec expected := same _
      have new_eq : SwapKind.int.pattern new = Int32.toBitVec new := same _
      rw [expected_eq, new_eq]
      refine bind_congr fun previous => ?_
      exact congrArg (fun x => pure (Int32.ofBitVec x)) (same previous).symm
  | word =>
      simp only [swap, swapWord, SwapKind.pattern, SwapKind.scalar, Scalar.encode, Scalar.decode,
        BitVec.ofNat_toNat]
      rfl
  | reference =>
      simp only [swap, swapWord, SwapKind.pattern, SwapKind.scalar, Scalar.encode, Scalar.decode,
        BitVec.ofNat_toNat]
      rfl

end Definition

variable {M : Model} {r next : Region} (p : Pointer M) (offset : Offset M) (k : SwapKind)
  (expected new : k.scalar.Carrier M)

theorem swap_of_error {fault : Fault}
    (refused : r.swap (k.size M) (p.locate offset) (k.pattern expected) (k.pattern new) =
      .error fault) :
    p.swap offset k expected new r = .error fault r := by
  rw [swap_eq]
  refine Access.bind_of_error ?_
  change Access.exchange (fun memory : Region => memory.swap _ _ _ _) r = _
  rw [Access.exchange, refused]

theorem swap_of_ok {previous : BitVec (k.size M).bits}
    (swapped : r.swap (k.size M) (p.locate offset) (k.pattern expected) (k.pattern new) =
      .ok (previous, next)) :
    p.swap offset k expected new r = .ok (k.scalar.decode M previous.toNat) next := by
  rw [swap_eq]
  have exchanged : Access.exchange (fun memory : Region => Memory.swap memory (k.size M)
      (p.locate offset) (k.pattern expected) (k.pattern new)) r = .ok previous next := by
    change Access.exchange (fun memory : Region => memory.swap _ _ _ _) r = _
    rw [Access.exchange, swapped]
  exact Access.bind_of_ok exchanged

/-- The address of a swap is a multiple of the number of bytes that are swapped. -/
def Aligned : Prop := (p.locate offset).toNat % k.scalar.bytes M = 0

instance : Decidable (Aligned p offset k) := inferInstanceAs (Decidable (_ = 0))

/-- A swap of bytes of the region at an aligned address answers what is read there, and writes
if that is the expected value. -/
theorem swap_of_inside (aligned : Aligned p offset k) (inside : Inside r p k.scalar offset) :
    ∃ held next, p.fetch r k.scalar offset = .ok held ∧
      p.swap offset k expected new r = .ok held next ∧
      (held = expected → next = (p.write k.scalar offset new).after r) ∧
      (held ≠ expected → next = r) := by
  have bytes_eq := k.bytes_scalar M
  have multiple : (p.locate offset).toNat % (k.size M).bytes = 0 := by
    rw [← bytes_eq]
    exact aligned
  have contained : r.contains (p.locate offset) (k.size M).bytes = true := by
    rw [← bytes_eq]
    exact inside
  obtain ⟨next, swapped, found, missed⟩ :=
    Region.swap_of_contains multiple contained (k.pattern expected) (k.pattern new)
  refine ⟨_, next, ?_, p.swap_of_ok offset k expected new swapped, ?_, ?_⟩
  · rw [fetch_of_inside p offset inside, Region.toNat_wordAt, ← bytes_eq]
    rfl
  · intro same
    have patched := found ((k.eq_pattern_iff _ expected).2 same)
    rw [SwapKind.toNat_pattern, ← bytes_eq] at patched
    exact patched.unique (p.patched_write offset inside new)
  · intro different
    exact missed (mt (k.eq_pattern_iff _ expected).1 different)

theorem swap_of_not_aligned (odd : ¬ Aligned p offset k) : p.swap offset k expected new r =
    .error (.unalignedSwap (8 * k.scalar.bytes M) (p.locate offset).toNat) r := by
  have bytes_eq := k.bytes_scalar M
  have remainder : (p.locate offset).toNat % (k.size M).bytes ≠ 0 := by
    rw [← bytes_eq]
    exact odd
  rw [bytes_eq, ← WordSize.bits_eq]
  exact p.swap_of_error offset k expected new
    (Region.swap_of_unaligned remainder (k.pattern expected) (k.pattern new))

theorem swap_of_not_inside (aligned : Aligned p offset k)
    (outside : ¬ Inside r p k.scalar offset) : p.swap offset k expected new r =
    .error (.outside (k.scalar.bytes M) (p.locate offset).toNat r.base.toNat
      (r.base.toNat + r.size)) r := by
  have bytes_eq := k.bytes_scalar M
  have multiple : (p.locate offset).toNat % (k.size M).bytes = 0 := by
    rw [← bytes_eq]
    exact aligned
  have outside' : ¬ r.contains (p.locate offset) (k.size M).bytes = true := by
    rw [← bytes_eq]
    exact outside
  rw [bytes_eq]
  exact p.swap_of_error offset k expected new
    (Region.swap_of_not_contains multiple outside' (k.pattern expected) (k.pattern new))

/-- A swap fails for these two reasons only. -/
theorem answer_swap_error_iff (r : Region) (fault : Fault) :
    (p.swap offset k expected new).answer r = .error fault ↔
      (¬ Aligned p offset k ∧
        fault = .unalignedSwap (8 * k.scalar.bytes M) (p.locate offset).toNat) ∨
      (Aligned p offset k ∧ ¬ Inside r p k.scalar offset ∧
        fault = .outside (k.scalar.bytes M) (p.locate offset).toNat r.base.toNat
          (r.base.toNat + r.size)) := by
  by_cases aligned : Aligned p offset k
  · by_cases inside : Inside r p k.scalar offset
    · obtain ⟨held, next, -, done, -⟩ := p.swap_of_inside offset k expected new aligned inside
      rw [Access.answer_of_ok done]
      simp [aligned, inside]
    · rw [Access.answer_of_error (p.swap_of_not_inside offset k expected new aligned inside)]
      simp [aligned, inside, eq_comm]
  · rw [Access.answer_of_error (p.swap_of_not_aligned offset k expected new aligned)]
    simp [aligned, eq_comm]

theorem after_of_answer_swap_error {fault : Fault}
    (failed : (p.swap offset k expected new).answer r = .error fault) :
    (p.swap offset k expected new).after r = r := by
  rcases (p.answer_swap_error_iff offset k expected new r fault).1 failed with
    ⟨odd, -⟩ | ⟨aligned, outside, -⟩
  · exact Access.after_of_error (p.swap_of_not_aligned offset k expected new odd)
  · exact Access.after_of_error (p.swap_of_not_inside offset k expected new aligned outside)

/-- A swap that answers has found its answer in the region, and has written at the same place
if that is the expected value. -/
theorem of_answer_swap {held : k.scalar.Carrier M}
    (answered : (p.swap offset k expected new).answer r = .ok held) :
    Aligned p offset k ∧ Inside r p k.scalar offset ∧ p.fetch r k.scalar offset = .ok held ∧
      (held = expected → (p.swap offset k expected new).after r =
        (p.write k.scalar offset new).after r) ∧
      (held ≠ expected → (p.swap offset k expected new).after r = r) := by
  by_cases aligned : Aligned p offset k
  · by_cases inside : Inside r p k.scalar offset
    · obtain ⟨found, next, fetched, done, same, different⟩ :=
        p.swap_of_inside offset k expected new aligned inside
      rw [Access.answer_of_ok done] at answered
      cases answered
      rw [Access.after_of_ok done]
      exact ⟨aligned, inside, fetched, same, different⟩
    · have failed := p.swap_of_not_inside offset k expected new aligned inside
      rw [Access.answer_of_error failed] at answered
      cases answered
  · have failed := p.swap_of_not_aligned (r := r) offset k expected new aligned
    rw [Access.answer_of_error failed] at answered
    cases answered

/-- A swap leaves the region that a write leaves, or the same region. -/
theorem after_swap (r : Region) :
    (p.swap offset k expected new).after r = (p.write k.scalar offset new).after r ∨
      (p.swap offset k expected new).after r = r := by
  cases answered : (p.swap offset k expected new).answer r with
  | error fault => exact .inr (p.after_of_answer_swap_error offset k expected new answered)
  | ok held =>
      obtain ⟨-, -, -, found, missed⟩ := p.of_answer_swap offset k expected new answered
      exact (em (held = expected)).imp found missed

theorem inside_iff : Inside r p k.scalar offset ↔
    r.base.toNat ≤ (p.locate offset).toNat ∧
      (p.locate offset).toNat + k.scalar.bytes M ≤ r.base.toNat + r.size :=
  r.contains_iff _ _

/-- A write of four bytes at an aligned address keeps all half cells but one. -/
theorem halfCell_write (four : k.scalar.bytes M = 4) (aligned : Aligned p offset k)
    (inside : Inside r p k.scalar offset) {i : Nat} (other : i ≠ distance r p offset / 4) :
    ((p.write k.scalar offset new).after r).halfCell i = r.halfCell i := by
  have agrees := p.agreesBeyond_write offset r new
  have multiple := r.base_aligned
  obtain ⟨lower, upper⟩ := (p.inside_iff offset k).1 inside
  rw [Aligned, four] at aligned
  rw [four] at agrees upper
  unfold distance at other
  rw [Region.halfCell_eq_bytesAt, Region.halfCell_eq_bytesAt]
  apply Region.bytesAt_congr
  intro j first last
  exact agrees.byte_eq j (by omega)

/-- A swap of four bytes keeps all half cells but one. -/
theorem halfCell_swap (four : k.scalar.bytes M = 4) (r : Region) {i : Nat}
    (other : i ≠ distance r p offset / 4) :
    ((p.swap offset k expected new).after r).halfCell i = r.halfCell i := by
  cases answered : (p.swap offset k expected new).answer r with
  | error fault => rw [p.after_of_answer_swap_error offset k expected new answered]
  | ok held =>
      obtain ⟨aligned, inside, -⟩ := p.of_answer_swap offset k expected new answered
      rcases p.after_swap offset k expected new r with written | kept
      · rw [written]
        exact p.halfCell_write offset k new four aligned inside other
      · rw [kept]

/-- **A swap is a read, a comparison and a write.** A swap is refused exactly if its address is
not a multiple of the number of bytes of its kind, or if not all of the bytes lie in the region,
and then it changes nothing. Otherwise it answers the value that is read at the same offset.
Where this is the expected value, the new one could be written there, and the region becomes the
one after that write; where it is not, the region stays as it is. A swap of four bytes keeps
the other half of its cell, and all other cells. -/
theorem swap_eq_read_compare_write (r : Region) (p : Pointer M) (offset : Offset M)
    (k : SwapKind) (expected new : k.scalar.Carrier M) :
    let swapped : Access Region (k.scalar.Carrier M) := p.swap offset k expected new
    let address := (p.locate offset).toNat
    let size := k.scalar.bytes M
    let stop := r.base.toNat + r.size
    (∀ fault, swapped.answer r = .error fault ↔
      (address % size ≠ 0 ∧ fault = .unalignedSwap (8 * size) address) ∨
      (address % size = 0 ∧ ¬ (r.base.toNat ≤ address ∧ address + size ≤ stop) ∧
        fault = .outside size address r.base.toNat stop)) ∧
    (∀ fault, swapped.answer r = .error fault → swapped.after r = r) ∧
    (∀ held, swapped.answer r = .ok held →
      (p.read k.scalar offset).answer r = .ok held ∧
      (p.write k.scalar offset new).answer r = .ok () ∧
      (held = expected → swapped.after r = (p.write k.scalar offset new).after r) ∧
      (held ≠ expected → swapped.after r = r)) ∧
    (size = 4 → ∀ i, i ≠ (address - r.base.toNat) / 4 →
      (swapped.after r).halfCell i = r.halfCell i) := by
  intro swapped address size stop
  have span : Inside r p k.scalar offset ↔
      r.base.toNat ≤ address ∧ address + size ≤ stop := p.inside_iff offset k
  refine ⟨?_, ?_, ?_, ?_⟩
  · intro fault
    rw [← span]
    exact p.answer_swap_error_iff offset k expected new r fault
  · intro fault failed
    exact p.after_of_answer_swap_error offset k expected new failed
  · intro held answered
    obtain ⟨-, inside, fetched, found, missed⟩ := p.of_answer_swap offset k expected new answered
    refine ⟨?_, ?_, found, missed⟩
    · rw [read, Access.answer_query, fetched]
    · rcases p.write_cases offset r new with ⟨-, written, -⟩ | ⟨outside, -, -⟩
      · exact written
      · exact absurd inside outside
  · intro four i other
    exact p.halfCell_swap offset k expected new four r other

end Pointer

end MachineWord
