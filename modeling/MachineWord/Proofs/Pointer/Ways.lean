import Mathlib
import MachineWord.Arithmetic.Shared
import MachineWord.Pointer.Lemmas
import MachineWord.Proofs.Memory.Typed
import MachineWord.Value.Number

/-!
# Ways to an element

An element of an array is reached by a scaled access, by an offset, or by moving the pointer
first. All of them add the same integers, the address of the pointer, the displacement and the
index times the size, and differ in the order of the sums and in where they are cut off at the
size of a word. What they reach is therefore the same (`ways_agree`), whatever the signs and
however far the sums go beyond a word.
-/

set_option autoImplicit false

namespace MachineWord

namespace Scalar

variable {M : Model} {μ : Type} [Memory μ]

/-- The value in the bytes at an address. -/
def load (s : Scalar) (address : BitVec 64) : Access μ (s.Carrier M) :=
  .query fun memory => return s.decode M (← Memory.loadNat memory (s.bytes M) address)

/-- Stores a value in the bytes at an address. -/
def store (s : Scalar) (address : BitVec 64) (value : s.Carrier M) : Access μ Unit :=
  .update fun memory => Memory.storeNat memory (s.bytes M) address (s.encode M value)

end Scalar

namespace Pointer

variable {M : Model} (p : Pointer M) (s : Scalar)

/-- The number of bytes from a pointer to an element of an array that starts at a displacement. -/
def elementDistance (M : Model) (s : Scalar) (displacement index : Int32) : Int :=
  displacement.toInt + index.toInt * s.bytes M

/-- A read and a write of an element of an array that starts at a displacement: as an element,
with an offset that is the distance of the element up to multiples of the number of words, or
after the pointer has been moved. -/
inductive Way (μ : Type) [Memory μ] (displacement index : Int32) :
    Access μ (s.Carrier M) → (s.Carrier M → Access μ Unit) → Prop where
  | element : Way μ displacement index (p.get s displacement index) (p.set s displacement index)
  | int (k : Int32)
      (congruent : k.toInt ≡ elementDistance M s displacement index [ZMOD 2 ^ M.bits]) :
      Way μ displacement index (p.read s (.ofInt k)) (p.write s (.ofInt k))
  | long (k : Int64)
      (congruent : k.toInt ≡ elementDistance M s displacement index [ZMOD 2 ^ M.bits]) :
      Way μ displacement index (p.read s (.ofLong k)) (p.write s (.ofLong k))
  | offset (x : Offset M)
      (congruent : x.toLong.toInt ≡ elementDistance M s displacement index [ZMOD 2 ^ M.bits]) :
      Way μ displacement index (p.read s x) (p.write s x)
  | index : Way μ displacement index ((p.add (.int displacement)).getAt s index)
      ((p.add (.int displacement)).setAt s index)
  | pointer {q : Pointer M}
      (moved : q = (p.add (.int displacement)).add
        (Offset.mul (.ofInt index) (.index (UInt64.ofNat (s.bytes M))) : Offset M).operand) :
      Way μ displacement index (q.load s) (q.store s)
  | words {q : Pointer M} (cell : s = .word ∨ s = .reference)
      (moved : q = (p.add (.int displacement)).addWords index) :
      Way μ displacement index (q.load s) (q.store s)

/-! ## Sums -/

theorem number_size : (Operand.index (UInt64.ofNat (s.bytes M))).number M = s.bytes M := by
  change (((UInt64.ofNat (s.bytes M)).toBitVec.toNat : Nat) : Int) = s.bytes M
  rw [toNat_bytes]

theorem scaled_eq (displacement index : Int32) : (scaled s displacement index : Offset M) =
    .ofNumber (elementDistance M s displacement index) := by
  change Value.add (.ofNumber displacement.toInt)
    (Value.mul (.ofNumber index.toInt : Offset M) _).operand = _
  rw [Value.mul_ofNumber, number_size, Value.add_operand_ofNumber, elementDistance]

theorem wordOffset_eq (n : Int32) : wordOffset M n = .ofNumber (n.toInt * M.bytes) := by
  change Value.mul (.ofNumber n.toInt : Offset M) _ = _
  rw [Value.mul_ofNumber]
  exact congrArg (fun k : Int => Value.ofNumber (n.toInt * k)) (number_size (M := M) .word)

theorem address_add_int (k : Int32) :
    (p.add (.int k)).address = .ofNumber (p.address.bits.toNat + k.toInt) :=
  Value.add_eq p.address (.int k)

section Moved

variable {p} {q : Pointer M} {k : Int} (at_sum : q.address = .ofNumber (p.address.bits.toNat + k))

include at_sum

theorem address_add_of_moved {x : Offset M} {l : Int} (distance : x = .ofNumber l) :
    (q.add x.operand).address = .ofNumber (p.address.bits.toNat + (k + l)) := by
  rw [add, at_sum, distance, Value.add_operand_ofNumber, Int.add_assoc]

/-- What an offset from a moved pointer reaches, an offset from the pointer itself reaches. -/
theorem locate_of_moved (l : Int) : q.locate (.ofNumber l) = p.locate (.ofNumber (k + l)) := by
  have whole := Value.add_operand_ofNumber (M := M) (v := .address) (u := .offset)
    p.address.bits.toNat (k + l)
  rw [Value.ofNumber_bits] at whole
  rw [locate, locate, at_sum, Value.add_operand_ofNumber, whole, Int.add_assoc]

end Moved

theorem address_addWords (n : Int32) :
    (p.addWords n).address = .ofNumber (p.address.bits.toNat + n.toInt * M.bytes) := by
  have here : p.address = .ofNumber (p.address.bits.toNat + 0) := by
    rw [Int.add_zero, Value.ofNumber_bits]
  rw [addWords, address_add_of_moved here (wordOffset_eq n), Int.zero_add]

/-- A pointer that is moved by some words and back again is where it was. -/
theorem subWords_addWords (n : Int32) : (p.addWords n).subWords n = p := by
  rw [subWords, sub, address_addWords, wordOffset_eq, Value.sub_operand_ofNumber,
    Int.add_sub_cancel, Value.ofNumber_bits]

/-! ## Agreement -/

theorem toNat_locate_ofNumber (k : Int) :
    ((p.locate (.ofNumber k)).toNat : Int) = (p.address.bits.toNat + k) % 2 ^ M.bits := by
  rw [toNat_locate, Int.natCast_mod, Int.natCast_add, Value.toNat_bits_ofNumber, Int.natCast_pow]
  exact Int.add_emod_emod _ _ _

/-- Every way is a read and a write with an offset from some pointer, and all of them lead to the
same address. -/
theorem Way.exists_offset {μ : Type} [Memory μ] {displacement index : Int32}
    {read : Access μ (s.Carrier M)} {write : s.Carrier M → Access μ Unit}
    (way : Way p s μ displacement index read write) :
    ∃ (q : Pointer M) (x : Offset M), read = q.read s x ∧ write = q.write s x ∧
      q.locate x = p.locate (.ofNumber (elementDistance M s displacement index)) := by
  -- The first four ways leave the pointer where it is. The others move it by a part of the sum
  -- first, and their offset is the rest.
  have added := p.address_add_int displacement
  cases way with
  | element => exact ⟨p, _, rfl, rfl, congrArg p.locate (scaled_eq s displacement index)⟩
  | int k congruent => exact ⟨p, _, rfl, rfl, congrArg p.locate (Value.ofNumber_congr congruent)⟩
  | long k congruent =>
      refine ⟨p, _, rfl, rfl, ?_⟩
      rw [Value.ofLong_eq, Value.ofNumber_congr congruent]
  | offset x congruent =>
      refine ⟨p, x, rfl, rfl, ?_⟩
      rw [← Value.ofNumber_congr congruent, x.ofNumber_toLong]
  | index =>
      refine ⟨_, _, rfl, rfl, ?_⟩
      rw [scaled_eq, locate_of_moved added]
      simp [elementDistance]
  | @pointer q moved =>
      refine ⟨q, _, rfl, rfl, ?_⟩
      have product : (Offset.mul (.ofInt index) (.index (UInt64.ofNat (s.bytes M))) : Offset M) =
          .ofNumber (index.toInt * s.bytes M) := by
        rw [Offset.mul_eq, ← number_size s]
        exact Value.mul_ofNumber index.toInt _
      subst moved
      rw [scaled_eq, locate_of_moved (address_add_of_moved added product)]
      simp [elementDistance]
  | @words q cell moved =>
      refine ⟨q, _, rfl, rfl, ?_⟩
      have size : s.bytes M = M.bytes := by rcases cell with rfl | rfl <;> rfl
      subst moved
      rw [scaled_eq, addWords, locate_of_moved (address_add_of_moved added (wordOffset_eq index))]
      simp [elementDistance, size]

/-- **All ways to an element agree.** Each reads and writes the bytes at one address, the sum of
the address of the pointer, the displacement and the index times the size, modulo the number of
words. So all of them read the same value, or fail with the same fault, and write the same
bytes. There is no fault but that of the memory, which for a region is that the bytes at the
address lie outside. -/
theorem ways_agree (displacement index : Int32) :
    (∃ address : BitVec 64,
      (address.toNat : Int) =
        (p.address.bits.toNat + displacement.toInt + index.toInt * s.bytes M) % 2 ^ M.bits ∧
      (∀ (μ : Type) [Memory μ] (read : Access μ (s.Carrier M))
          (write : s.Carrier M → Access μ Unit),
        Way p s μ displacement index read write →
        read = s.load address ∧ ∀ value, write value = s.store address value) ∧
      ∀ read write, Way p s Region displacement index read write →
        ∀ r : Region, ¬ r.contains address (s.bytes M) = true →
        let outside : Fault :=
          .outside (s.bytes M) address.toNat r.base.toNat (r.base.toNat + r.size)
        read r = .error outside r ∧ ∀ value, write value r = .error outside r) ∧
    ∀ n : Int32, (p.addWords n).subWords n = p := by
  refine ⟨⟨p.locate (.ofNumber (elementDistance M s displacement index)), ?_, ?_, ?_⟩,
    p.subWords_addWords⟩
  · rw [toNat_locate_ofNumber, elementDistance, Int.add_assoc]
  · intro μ _ read write way
    obtain ⟨q, x, rfl, rfl, same⟩ := way.exists_offset
    rw [← same]
    exact ⟨rfl, fun value => rfl⟩
  · intro read write way r away
    obtain ⟨q, x, rfl, rfl, same⟩ := way.exists_offset
    rw [← same] at away ⊢
    exact ⟨Access.query_of_error (q.fetch_of_not_inside x away), q.write_of_not_inside x away⟩

/-- Four bytes from the pointer by way of the smallest int, and by an offset beyond 32 bits. -/
theorem ways_agree_of_extremes :
    let p : Pointer .hosted32 := ⟨.ofBits 0x1000⟩
    let displacement : Int32 := -0x80000000
    let index : Int32 := 0x20000001
    let far : Access Region (Word .hosted32) := p.read .word (.ofLong 0x100000004)
    p.get .word displacement index = far ∧
      ((p.add (.int displacement)).addWords index).load .word = far ∧
      ∃ r, Region.zeros 0x2000 8 .big = .ok r ∧
        (p.get .word displacement index).answer r = .error (.outside 4 0x1004 0x2000 0x2008) := by
  intro p displacement index far
  obtain ⟨⟨address, reached, same, fails⟩, -⟩ := ways_agree p .word displacement index
  have element := (same Region _ _ .element).1
  have words := (same Region _ _ (.words (.inl rfl) rfl)).1
  have long := (same Region _ _ (.long 0x100000004 (by decide))).1
  have low : address.toNat = 0x1004 := Int.ofNat.inj (reached.trans (by decide))
  refine ⟨element.trans long.symm, words.trans long.symm, _, rfl, ?_⟩
  rw [Access.answer_of_error (fails _ _ .element _ ?_).1, low]
  · rfl
  · rw [Region.contains_iff, low]
    decide

end Pointer

end MachineWord
