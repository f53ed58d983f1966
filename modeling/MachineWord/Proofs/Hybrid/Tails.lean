import Mathlib
import MachineWord.Pointer.Lemmas
import MachineWord.Proofs.Hybrid.Ledger
import MachineWord.Value.Native

/-!
# Tails in a bump heap

A bump heap holds a tail if it keeps the length in the word at the origin and the bytes right
after it, below the address of the next tail. Then the heap finds the length and the elements
of the tail, and an element stored through the heap is stored in the tail (`set_of_holds`).
Whatever patches bytes outside a tail leaves it as it is (`Holds.of_patched`).
-/

set_option autoImplicit false

namespace MachineWord

namespace BumpHeap

variable {M : Model} {heap : BumpHeap} {origin : Reference M} {tail : Tail}

/-- The address space of a word reaches the end of the region, and the tails have not passed
it. -/
structure Fits (M : Model) (heap : BumpHeap) : Prop where
  base_le : heap.region.base.toNat ≤ heap.next.toNat
  next_le : heap.next.toNat ≤ heap.region.base.toNat + heap.region.size
  stop_le : heap.region.base.toNat + heap.region.size ≤ 2 ^ M.bits

/-- The first address after a tail. -/
def tailStop (origin : Reference M) (length : Int32) : Nat :=
  origin.bits.toNat + tailBytes M length

/-- The word in which a length is kept. -/
def lengthWord (M : Model) (length : Int32) : Scalar.Carrier M .word :=
  (Value.ofInt length : Word M)

/-- The heap keeps a tail at an origin. -/
structure Holds (heap : BumpHeap) (origin : Reference M) (tail : Tail) : Prop where
  length_nonneg : 0 ≤ tail.length.toInt
  length_lt : tail.length.toInt < 2 ^ 30
  base_le : heap.region.base.toNat ≤ origin.bits.toNat
  stop_le : tailStop origin tail.length ≤ heap.next.toNat
  head_eq : heap.region.bytesAt (origin.bits.toNat - heap.region.base.toNat) M.bytes =
    Pointer.code M .word heap.region.order (lengthWord M tail.length)
  bytes_eq : heap.region.bytesAt (origin.bits.toNat - heap.region.base.toNat + M.bytes)
    (tail.length.toInt.toNat * M.bytes) = tail.bytes

/-- An element lies in a tail. -/
def Within (M : Model) (s : Scalar) (tail : Tail) (index : Int32) : Prop :=
  0 ≤ index.toInt ∧
    index.toInt.toNat * s.bytes M + s.bytes M ≤ tail.length.toInt.toNat * M.bytes

theorem tailBytes_eq (M : Model) (length : Int32) :
    tailBytes M length = M.bytes + length.toInt.toNat * M.bytes := by
  rw [tailBytes, Nat.add_mul, Nat.one_mul, Nat.add_comm]

theorem toInt_elements (M : Model) : (elements M).toInt = M.bytes := by
  rcases M with ⟨_ | _, _⟩ <;> rfl

/-! ## Where the elements lie -/

section Elements

variable {s : Scalar} {index : Int32}

theorem tail_address (origin : Reference M) : (BumpHeap.tail origin).address.bits = origin.bits :=
  rfl

/-- The address of an element, modulo the number of words. -/
theorem toNat_locate_element_mod (origin : Reference M) (nonneg : 0 ≤ index.toInt) :
    ((BumpHeap.tail origin).locate (Pointer.scaled s (elements M) index)).toNat =
      (origin.bits.toNat + (M.bytes + index.toInt.toNat * s.bytes M)) % 2 ^ M.bits := by
  have displacement := toInt_elements M
  rw [Pointer.toNat_locate_scaled_mod _ (by omega) nonneg, tail_address, displacement,
    Int.toNat_natCast, Nat.add_assoc]

/-- The address of an element that lies in a tail. -/
theorem toNat_locate_element (fits : heap.Fits M) (holds : heap.Holds origin tail)
    (within_tail : Within M s tail index) :
    ((BumpHeap.tail origin).locate (Pointer.scaled s (elements M) index)).toNat =
      origin.bits.toNat + M.bytes + index.toInt.toNat * s.bytes M := by
  obtain ⟨nonneg, inside⟩ := within_tail
  have stop := holds.stop_le
  rw [tailStop, tailBytes_eq] at stop
  have next := fits.next_le
  have words := fits.stop_le
  have positive := s.bytes_pos M
  rw [toNat_locate_element_mod origin nonneg, ← Nat.add_assoc, Nat.mod_eq_of_lt (by omega)]

theorem inside_element (fits : heap.Fits M) (holds : heap.Holds origin tail)
    (within_tail : Within M s tail index) :
    Pointer.Inside heap.region (BumpHeap.tail origin) s (Pointer.scaled s (elements M) index) := by
  have base := holds.base_le
  have stop := holds.stop_le
  rw [tailStop, tailBytes_eq] at stop
  have next := fits.next_le
  have inside := within_tail.2
  rw [Pointer.Inside, Region.contains_iff, toNat_locate_element fits holds within_tail]
  omega

theorem distance_element (fits : heap.Fits M) (holds : heap.Holds origin tail)
    (within_tail : Within M s tail index) :
    Pointer.distance heap.region (BumpHeap.tail origin) (Pointer.scaled s (elements M) index) =
      origin.bits.toNat - heap.region.base.toNat + M.bytes + index.toInt.toNat * s.bytes M := by
  have base := holds.base_le
  rw [Pointer.distance, toNat_locate_element fits holds within_tail]
  omega

/-! ## Where the length lies -/

theorem toNat_locate_head (origin : Reference M) :
    ((BumpHeap.tail origin).locate .zero).toNat = origin.bits.toNat :=
  Pointer.toNat_locate_zero _

theorem inside_head {region : Region} (base : region.base.toNat ≤ origin.bits.toNat)
    (stop : origin.bits.toNat + M.bytes ≤ region.base.toNat + region.size) :
    Pointer.Inside region (BumpHeap.tail origin) .word .zero := by
  rw [Pointer.Inside, Region.contains_iff, toNat_locate_head, Scalar.bytes_word]
  exact ⟨base, stop⟩

theorem distance_head (region : Region) (origin : Reference M) :
    Pointer.distance region (BumpHeap.tail origin) .zero =
      origin.bits.toNat - region.base.toNat := by
  rw [Pointer.distance, toNat_locate_head]

/-- A patch of the region of a heap moves nothing. -/
theorem Fits.of_patched {region : Region} {distance : Nat} {bytes : List UInt8}
    (fits : heap.Fits M) (patched : heap.region.Patched distance bytes region) :
    BumpHeap.Fits M { heap with region } := by
  refine ⟨?_, ?_, ?_⟩
  · rw [patched.base_eq]
    exact fits.base_le
  · rw [patched.base_eq, patched.size_eq]
    exact fits.next_le
  · rw [patched.base_eq, patched.size_eq]
    exact fits.stop_le

/-! ## Reading -/

/-- The heap finds the elements of a tail. -/
theorem get_of_holds (fits : heap.Fits M) (holds : heap.Holds origin tail)
    (within_tail : Within M s tail index) :
    inRegion ((BumpHeap.tail origin).get s (elements M) index) heap =
      .ok (tail.get M heap.region.order s index) heap := by
  have fetched := Pointer.fetch_of_inside (BumpHeap.tail origin)
    (Pointer.scaled s (elements M) index) (inside_element fits holds within_tail)
  rw [distance_element fits holds within_tail,
    ← heap.region.take_drop_bytesAt within_tail.2, holds.bytes_eq] at fetched
  have read : (BumpHeap.tail origin).get s (elements M) index heap.region =
      .ok (tail.get M heap.region.order s index) heap.region :=
    Pointer.read_of_fetch _ _ fetched
  rw [inRegion, read]

/-- The heap finds the length of a tail. -/
theorem length_of_holds (fits : heap.Fits M) (holds : heap.Holds origin tail) :
    TailHeap.length origin heap = .ok tail.length heap := by
  have base := holds.base_le
  have stop := holds.stop_le
  rw [tailStop, tailBytes_eq] at stop
  have next := fits.next_le
  have fetched := Pointer.fetch_of_inside (BumpHeap.tail origin) .zero
    (inside_head base (by omega))
  rw [distance_head, Scalar.bytes_word, holds.head_eq, Pointer.decode_code] at fetched
  have read : (BumpHeap.tail origin).read .word .zero heap.region =
      .ok (lengthWord M tail.length) heap.region :=
    Pointer.read_of_fetch _ _ fetched
  have held : inRegion ((BumpHeap.tail origin).read .word .zero) heap =
      .ok (lengthWord M tail.length) heap := by
    rw [inRegion, read]
  exact (Access.bind_of_ok held).trans
    (congrArg (EStateM.Result.ok · heap) (Value.toInt_ofInt tail.length))

/-! ## Writing -/

/-- Storing an element of a tail patches the bytes of the element. -/
theorem set_of_holds (fits : heap.Fits M) (holds : heap.Holds origin tail)
    (within_tail : Within M s tail index) (x : s.Carrier M) :
    ∃ region, inRegion ((BumpHeap.tail origin).set s (elements M) index x) heap =
        .ok () { heap with region } ∧
      heap.region.Patched (origin.bits.toNat - heap.region.base.toNat + M.bytes +
        index.toInt.toNat * s.bytes M) (Pointer.code M s heap.region.order x) region := by
  obtain ⟨region, written, patched⟩ := Pointer.write_of_inside (BumpHeap.tail origin)
    (Pointer.scaled s (elements M) index) (inside_element fits holds within_tail) x
  rw [distance_element fits holds within_tail] at patched
  refine ⟨region, ?_, patched⟩
  rw [inRegion, Pointer.set, written]

/-- A patch outside a tail leaves it as it is. -/
theorem Holds.of_patched {last : BumpHeap} {distance : Nat} {bytes : List UInt8}
    (holds : heap.Holds origin tail) (patched : heap.region.Patched distance bytes last.region)
    (next_le : heap.next.toNat ≤ last.next.toNat)
    (apart : heap.region.base.toNat + distance + bytes.length ≤ origin.bits.toNat ∨
      tailStop origin tail.length ≤ heap.region.base.toNat + distance) :
    last.Holds origin tail := by
  have base := holds.base_le
  rw [tailStop, tailBytes_eq] at apart
  refine ⟨holds.length_nonneg, holds.length_lt, ?_, holds.stop_le.trans next_le, ?_, ?_⟩
  · rw [patched.base_eq]
    exact base
  · rw [patched.base_eq, patched.order_eq, patched.bytesAt_apart (by omega), holds.head_eq]
  · rw [patched.base_eq, patched.bytesAt_apart (by omega), holds.bytes_eq]

/-- A patch of an element stores it in the tail. -/
theorem Holds.put {last : BumpHeap} {x : s.Carrier M} (holds : heap.Holds origin tail)
    (within_tail : Within M s tail index)
    (patched : heap.region.Patched (origin.bits.toNat - heap.region.base.toNat + M.bytes +
      index.toInt.toNat * s.bytes M) (Pointer.code M s heap.region.order x) last.region)
    (next_le : heap.next.toNat ≤ last.next.toNat) :
    last.Holds origin (tail.put M heap.region.order s index x) := by
  have base := holds.base_le
  have inside := within_tail.2
  refine ⟨holds.length_nonneg, holds.length_lt, ?_, holds.stop_le.trans next_le, ?_, ?_⟩
  · rw [patched.base_eq]
    exact base
  · rw [patched.base_eq, patched.order_eq, patched.bytesAt_apart (by omega)]
    exact holds.head_eq
  · rw [patched.base_eq]
    change last.region.bytesAt _ (tail.length.toInt.toNat * M.bytes) = _
    rw [patched.bytesAt_overlay rfl (by rwa [Pointer.length_code]), holds.bytes_eq]
    rfl

end Elements

/-! ## Giving out tails -/

/-- A heap without room for a tail fails and stays as it is. -/
theorem expand_of_exhausted {length : Int32}
    (full : ¬ heap.region.contains heap.next (tailBytes M length) = true) :
    BumpHeap.expand M length heap = .error .heapExhausted heap := by
  have refused : take (tailBytes M length) heap = .error .heapExhausted heap := if_neg full
  exact Access.bind_of_error refused

/-- A tail that has been given out starts at the address of the next tail, which has its length
written there. -/
theorem expand_of_room (fits : heap.Fits M) {length : Int32}
    (room : heap.region.contains heap.next (tailBytes M length) = true) :
    ∃ last, BumpHeap.expand M length heap = .ok (.ofBits heap.next) last ∧ last.Fits M ∧
      heap.region.Patched (heap.next.toNat - heap.region.base.toNat)
        (Pointer.code M .word heap.region.order (lengthWord M length)) last.region ∧
      last.next.toNat = heap.next.toNat + tailBytes M length ∧
      (.ofBits heap.next : Reference M).bits.toNat = heap.next.toNat := by
  obtain ⟨base, next⟩ := (heap.region.contains_iff _ _).1 room
  have words := fits.stop_le
  have space : heap.region.base.toNat + heap.region.size < 2 ^ 64 := heap.region.end_lt
  have positive : 0 < M.bytes := Scalar.bytes_pos M .word
  have count := tailBytes_eq M length
  have taken : take (tailBytes M length) heap = .ok heap.next
      { heap with next := heap.next + BitVec.ofNat 64 (tailBytes M length) } := if_pos room
  have next_eq : (heap.next + BitVec.ofNat 64 (tailBytes M length)).toNat =
      heap.next.toNat + tailBytes M length := by
    rw [BitVec.toNat_add, BitVec.toNat_ofNat, Nat.add_mod_mod, Nat.mod_eq_of_lt (by omega)]
  have origin_eq : (.ofBits heap.next : Reference M).bits.toNat = heap.next.toNat := by
    rw [Value.toNat_bits_ofBits, Nat.mod_eq_of_lt (by omega)]
  have inside : Pointer.Inside heap.region (BumpHeap.tail (.ofBits heap.next : Reference M))
      .word .zero := inside_head (by omega) (by omega)
  obtain ⟨region, written, patched⟩ :=
    Pointer.write_of_inside _ .zero inside (lengthWord M length)
  rw [distance_head, origin_eq] at patched
  refine ⟨⟨region, heap.next + BitVec.ofNat 64 (tailBytes M length)⟩, ?_, ?_, patched, next_eq,
    origin_eq⟩
  · have stored : inRegion ((BumpHeap.tail (.ofBits heap.next : Reference M)).write .word .zero
        (lengthWord M length))
        { heap with next := heap.next + BitVec.ofNat 64 (tailBytes M length) } =
        .ok () ⟨region, heap.next + BitVec.ofNat 64 (tailBytes M length)⟩ := by
      rw [inRegion, written]
    exact (Access.bind_of_ok taken).trans (Access.bind_of_ok stored)
  · refine ⟨?_, ?_, ?_⟩
    · rw [patched.base_eq, next_eq]
      omega
    · rw [patched.base_eq, patched.size_eq, next_eq]
      omega
    · rw [patched.base_eq, patched.size_eq]
      exact words

/-- A tail is given out, or the heap stays as it is. -/
theorem expand_cases (fits : heap.Fits M) (length : Int32) :
    (∃ last, BumpHeap.expand M length heap = .ok (.ofBits heap.next) last ∧ last.Fits M ∧
      heap.region.Patched (heap.next.toNat - heap.region.base.toNat)
        (Pointer.code M .word heap.region.order (lengthWord M length)) last.region ∧
      last.next.toNat = heap.next.toNat + tailBytes M length ∧
      (.ofBits heap.next : Reference M).bits.toNat = heap.next.toNat) ∨
    ∃ fault, BumpHeap.expand M length heap = .error fault heap := by
  by_cases room : heap.region.contains heap.next (tailBytes M length) = true
  · exact .inl (expand_of_room fits room)
  · exact .inr ⟨.heapExhausted, expand_of_exhausted room⟩

/-- A tail that has just been given out is a tail of zeros, if the bytes not given out before
are zero. -/
theorem Holds.of_expand {last : BumpHeap} {length : Int32} (fits : heap.Fits M)
    (nonneg : 0 ≤ length.toInt) (small : length.toInt < 2 ^ 30)
    (unused : ∀ i, heap.next.toNat ≤ heap.region.base.toNat + i → heap.region.byte i = 0)
    (patched : heap.region.Patched (heap.next.toNat - heap.region.base.toNat)
      (Pointer.code M .word heap.region.order (lengthWord M length)) last.region)
    (next_eq : last.next.toNat = heap.next.toNat + tailBytes M length)
    (origin_eq : origin.bits.toNat = heap.next.toNat) :
    last.Holds origin (.zeros M length) := by
  have base := fits.base_le
  have count : (Pointer.code M .word heap.region.order (lengthWord M length)).length = M.bytes :=
    Pointer.length_code _ _
  refine ⟨nonneg, small, ?_, ?_, ?_, ?_⟩
  · rw [patched.base_eq, origin_eq]
    exact base
  · rw [tailStop, origin_eq, next_eq]
    exact Nat.le_refl _
  · have head := patched.bytesAt_self
    rw [count] at head
    rw [patched.base_eq, patched.order_eq, origin_eq]
    exact head
  · rw [patched.base_eq, origin_eq, patched.bytesAt_apart (.inr (by rw [count]))]
    apply List.eq_replicate_iff.2
    refine ⟨Region.length_bytesAt _ _ _, ?_⟩
    intro byte member
    obtain ⟨i, range, rfl⟩ := List.mem_map.1 member
    rw [List.mem_range'_1] at range
    exact unused i (by omega)

end BumpHeap

end MachineWord
