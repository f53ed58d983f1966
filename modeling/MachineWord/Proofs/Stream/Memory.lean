import Mathlib
import MachineWord.Pointer.Copy
import MachineWord.Proofs.Pointer.Ways
import MachineWord.Value.Sequence

/-!
# Words in streams and in memory

A word is written to a stream as the bytes that it is kept in by a region of the same order, and
it is read from a stream as a region reads it. So a sequence of words that has been written to a
stream can be stored in a region as it is, and its words are then copied out of the region as
elements of an array (`streams_and_regions_share_words`).

A copy asks for one element after another. It fills the array with the elements found
(`copyFrom_of_elements`), and an element is found at a distance from the first one that is a
multiple of the size of a word (`toNat_locate_scaled_of_distance`). The index of an element is an
int, and so is its distance from the first one, so one copy takes at most `2 ^ 31` elements. A
longer sequence is copied in parts.
-/

set_option autoImplicit false

namespace MachineWord

namespace Pointer

variable {M : Model}

/-! ## Copies -/

section Copies

variable {μ : Type} [Memory μ] {memory : μ} {p : Pointer M} {s : Scalar}
  {displacement first : Int32} {target : Nat}

/-- A copy of elements that are all found fills the array with them. -/
theorem copyFrom_of_elements {values : List (s.Carrier M)} {i : Nat} {dst : Array (s.Carrier M)}
    (found : ∀ (k : Nat) (listed : k < values.length),
      p.elementFrom memory s displacement first (i + k) = .ok values[k])
    (fits : target + i + values.length ≤ dst.size) :
    ∃ filled, p.copyFrom memory s displacement first target i values.length dst = (filled, none) ∧
      filled.toList = dst.toList.take (target + i) ++ values ++
        dst.toList.drop (target + i + values.length) := by
  induction values generalizing i dst with
  | nil =>
      refine ⟨dst, rfl, ?_⟩
      rw [List.append_nil, List.length_nil, Nat.add_zero, List.take_append_drop]
  | cons value values ih =>
      rw [List.length_cons] at fits ⊢
      have here : p.elementFrom memory s displacement first i = .ok value :=
        found 0 (Nat.succ_pos _)
      have later (k : Nat) (listed : k < values.length) :
          p.elementFrom memory s displacement first (i + 1 + k) = .ok values[k] := by
        rw [Nat.add_assoc, Nat.add_comm 1 k]
        exact found (k + 1) (Nat.succ_lt_succ listed)
      obtain ⟨filled, copied, filled_eq⟩ := @ih (i + 1) (dst.setIfInBounds (target + i) value)
        later (by rw [Array.size_setIfInBounds]; omega)
      refine ⟨filled, ?_, ?_⟩
      · rw [copyFrom, here]
        exact copied
      · have before : (dst.toList.take (target + i)).length = target + i :=
          List.length_take_of_le (by rw [Array.length_toList]; omega)
        have set : (dst.setIfInBounds (target + i) value).toList =
            dst.toList.take (target + i) ++ [value] ++ dst.toList.drop (target + i + 1) := by
          rw [Array.toList_setIfInBounds, List.set_eq_take_append_cons_drop,
            if_pos (by rw [Array.length_toList]; omega), List.append_assoc, List.singleton_append]
        have before' : (dst.toList.take (target + i) ++ [value]).length = target + i + 1 := by
          rw [List.length_append, before, List.length_singleton]
        rw [filled_eq, set, ← Nat.add_assoc, List.take_left' before', ← List.drop_drop,
          List.drop_left' before', List.drop_drop, List.append_assoc _ [value],
          List.singleton_append, Nat.add_right_comm _ 1, Nat.add_assoc _ _ 1]

/-- A copy of elements that are all found succeeds if the array has room for them. -/
theorem copyElements_of_elements {count : Nat} {values : List (s.Carrier M)}
    {dst : Array (s.Carrier M)} (length : values.length = count)
    (found : ∀ (k : Nat) (listed : k < values.length),
      p.elementFrom memory s displacement first k = .ok values[k])
    (fits : target + count ≤ dst.size) (bounded : dst.size < UInt64.size) :
    ∃ filled, p.copyElements memory displacement first target count (.scalar s) dst =
        (filled, none) ∧
      filled.toList = dst.toList.take target ++ values ++ dst.toList.drop (target + count) := by
  subst length
  have found' (k : Nat) (listed : k < values.length) :
      p.elementFrom memory s displacement first (0 + k) = .ok values[k] := by
    rw [Nat.zero_add]
    exact found k listed
  obtain ⟨filled, copied, filled_eq⟩ := copyFrom_of_elements found' fits
  have scalars : p.copyScalars memory s displacement first target values.length dst =
      (filled, none) := by
    rw [copyScalars, if_neg (by omega), if_neg (by omega), copied]
  exact ⟨filled, congrArg (fun result => (result.1, result.2.map CopyError.fault)) scalars,
    filled_eq⟩

variable (memory p s displacement) in
/-- An element at a distance from the first one. Neither the distance nor the index of the element
is cut off. -/
theorem elementFrom_eq_element {i : Nat} (near : i < 0x80000000)
    (bounded : first.toInt + i < 0x80000000) :
    ∃ index : Int32, index.toInt = first.toInt + i ∧
      p.elementFrom memory s displacement first i = p.element memory s displacement index := by
  have lower : -2 ^ 31 ≤ first.toInt := first.le_toInt
  obtain ⟨index, index_eq, value⟩ :=
    toInt_exactIndex (n := first.toInt + (wrapIndex i).toInt)
      (by rw [toInt_wrapIndex near]; omega) (by rw [toInt_wrapIndex near]; exact bounded)
  refine ⟨index, by rw [value, toInt_wrapIndex near], ?_⟩
  rw [elementFrom, index_eq]
  rfl

end Copies

/-- The address of an element at a distance from another one. -/
theorem toNat_locate_scaled_of_distance (p : Pointer M) (s : Scalar)
    {displacement first index : Int32} {address k : Nat}
    (start : (p.locate (scaled s displacement first)).toNat = address)
    (distance : index.toInt = first.toInt + k) (fits : address + k * s.bytes M < 2 ^ M.bits) :
    (p.locate (scaled s displacement index)).toNat = address + k * s.bytes M := by
  have reached := p.toNat_locate_ofNumber (elementDistance M s displacement index)
  have began := p.toNat_locate_ofNumber (elementDistance M s displacement first)
  rw [← scaled_eq] at reached began
  have sum : (p.address.bits.toNat : Int) + elementDistance M s displacement index =
      p.address.bits.toNat + elementDistance M s displacement first + k * s.bytes M := by
    rw [elementDistance, elementDistance, distance]
    ring
  have bounded : ((address + k * s.bytes M : Nat) : Int) < 2 ^ M.bits := by exact_mod_cast fits
  rw [sum, ← Int.emod_add_emod, ← began, start] at reached
  rw [← Nat.cast_inj (R := Int), reached]
  exact Int.emod_eq_of_lt (by positivity) (by exact_mod_cast bounded)

/-! ## Words -/

/-- Words with the same pattern are written alike, under the view of a word and under that of a
reference. -/
theorem write_reference_eq (p : Pointer M) (offset : Offset M) {x : Word M} {y : Reference M}
    (same : y.bits = x.bits) :
    (p.write .reference offset y : Access Region Unit) = p.write .word offset x := by
  have coded : Scalar.encode M .reference y = Scalar.encode M .word x := congrArg BitVec.toNat same
  change Access.update (fun memory => Memory.storeNat memory M.bytes (p.locate offset)
    (Scalar.encode M .reference y)) = _
  rw [coded]
  rfl

end Pointer

namespace Region

variable {M : Model} {r next : Region} {address : BitVec 64} {words : List (Word M)}

/-- The bytes of a sequence of words in the order of a region. -/
def wordBytes (r : Region) (words : List (Word M)) : List UInt8 :=
  Value.writeAll (words.map fun x => (r.order, x)) []

theorem wordBytes_eq (r : Region) (words : List (Word M)) :
    r.wordBytes words =
      (words.map fun x => (r.order, x)).flatMap fun item => item.2.toBytes item.1 := by
  rw [wordBytes, Value.writeAll_eq_append, List.nil_append]

@[simp] theorem length_wordBytes (r : Region) (words : List (Word M)) :
    (r.wordBytes words).length = words.length * M.bytes := by
  rw [wordBytes_eq, Value.length_flatMap_toBytes, List.length_map]

/-- A region holds a sequence of words at an address. -/
structure HoldsWords (r : Region) (address : BitVec 64) (words : List (Word M)) : Prop where
  inside : r.contains address (words.length * M.bytes) = true
  bytes_eq : r.bytesAt (address.toNat - r.base.toNat) (words.length * M.bytes) = r.wordBytes words

/-- A sequence of words that has been stored is held. -/
theorem exists_holdsWords (inside : r.contains address (words.length * M.bytes) = true) :
    ∃ next, r.store address (r.wordBytes words) = .ok next ∧ next.HoldsWords address words := by
  have span : r.contains address (r.wordBytes words).length = true := by
    rwa [length_wordBytes]
  obtain ⟨next, stored, patched⟩ := store_of_contains span
  refine ⟨next, stored, ?_, ?_⟩
  · rw [contains_iff, patched.base_eq, patched.size_eq, ← contains_iff]
    exact inside
  · have bytes := patched.bytesAt_self
    rw [length_wordBytes] at bytes
    rw [wordBytes, patched.order_eq, patched.base_eq]
    exact bytes

namespace HoldsWords

variable (holds : r.HoldsWords address words) {p : Pointer M}

include holds

/-- A word of a sequence is read where its bytes are. -/
theorem fetch_eq {k : Nat} (listed : k < words.length) {offset : Offset M}
    (reached : (p.locate offset).toNat = address.toNat + k * M.bytes) :
    p.fetch r .word offset = .ok words[k] := by
  have range := (r.contains_iff _ _).1 holds.inside
  have fits : k * M.bytes + M.bytes ≤ words.length * M.bytes := by
    rw [← Nat.succ_mul]
    exact Nat.mul_le_mul_right _ listed
  have within : Pointer.Inside r p .word offset := by
    rw [Pointer.Inside, contains_iff, reached, Scalar.bytes_word]
    omega
  have distance : Pointer.distance r p offset = address.toNat - r.base.toNat + k * M.bytes := by
    rw [Pointer.distance, reached]
    omega
  have bytes : r.bytesAt (Pointer.distance r p offset) M.bytes = words[k].toBytes r.order := by
    have part := Value.take_drop_flatMap_toBytes (words.map fun x => (r.order, x)) (k := k)
      (by rwa [List.length_map])
    rw [← wordBytes_eq, ← holds.bytes_eq, take_drop_bytesAt r fits, ← distance,
      List.getElem_map] at part
    exact part
  rw [Pointer.fetch_of_inside p offset within, Scalar.bytes_word, bytes]
  exact congrArg Except.ok (Pointer.decode_code (s := .word) r.order words[k])

section Part

variable (fits : address.toNat + words.length * M.bytes ≤ 2 ^ M.bits)
  {displacement first : Int32} {start count : Nat} (part : start + count ≤ words.length)
  (bounded : first.toInt + count ≤ 2 ^ 31) (near : count ≤ 2 ^ 31)
  (began : (p.locate (Pointer.scaled .word displacement first)).toNat =
    address.toNat + start * M.bytes)

include fits part bounded near began

/-- An element of an array is a word of the sequence, if the array begins within it. -/
theorem elementFrom_eq {k : Nat} (early : k < count) :
    p.elementFrom r .word displacement first k = .ok words[start + k] := by
  have near' : k < 0x80000000 := by omega
  have bounded' : first.toInt + k < 0x80000000 := by omega
  obtain ⟨index, distance, element_eq⟩ :=
    Pointer.elementFrom_eq_element r p .word displacement near' bounded'
  have last : (start + k) * M.bytes + M.bytes ≤ words.length * M.bytes := by
    rw [← Nat.succ_mul]
    exact Nat.mul_le_mul_right _ (by omega)
  have sum : address.toNat + start * M.bytes + k * M.bytes =
      address.toNat + (start + k) * M.bytes := by
    rw [Nat.add_assoc, ← Nat.add_mul]
  have positive : 0 < M.bytes := Scalar.bytes_pos M .word
  have reached := p.toNat_locate_scaled_of_distance .word began distance (by
    rw [Scalar.bytes_word, sum]
    omega)
  rw [element_eq]
  exact holds.fetch_eq _ (reached.trans sum)

/-- A part of the sequence is copied as elements of an array that begins within it. -/
theorem copyElements_eq {dst : Array (Word M)} {target : Nat} (room : target + count ≤ dst.size)
    (size : dst.size < UInt64.size) :
    ∃ filled, p.copyElements r displacement first target count (.scalar .word) dst =
        (filled, none) ∧
      filled.toList = dst.toList.take target ++ (words.drop start).take count ++
        dst.toList.drop (target + count) := by
  have length : ((words.drop start).take count).length = count := by
    rw [List.length_take, List.length_drop]
    omega
  have found (k : Nat) (listed : k < ((words.drop start).take count).length) :
      p.elementFrom r .word displacement first k = .ok ((words.drop start).take count)[k] := by
    rw [holds.elementFrom_eq fits part bounded near began (length ▸ listed), List.getElem_take,
      List.getElem_drop]
  exact Pointer.copyElements_of_elements (s := .word) length found room size

end Part

end HoldsWords

/-- **Streams and regions share the words.** The bytes that a word is written to a stream as are
those that it is kept in by a region of the same order, as a word or as a reference. Bytes that a
region holds are read as the same word from a stream. A sequence of words that has been written to
a stream and then stored in a region, at any address, is copied out of the region element by
element: any part of it, through any pointer and from any index at which the part begins, as long
as the indices of its elements and the distances between them are ints. -/
theorem streams_and_regions_share_words (M : Model) (r : Region) :
    (∀ (p : Pointer M) (offset : Offset M) (x : Word M) (y : Reference M), y.bits = x.bits →
      Pointer.Inside r p .word offset →
      ∃ (next : Region) (code : List UInt8),
        (p.write .word offset x : Access Region Unit) r = .ok () next ∧
        (p.write .reference offset y : Access Region Unit) r = .ok () next ∧
        next.load (p.locate offset) M.bytes = .ok code ∧
        ∀ stream, x.write r.order stream = stream ++ code ∧
          y.write r.order stream = stream ++ code) ∧
    (∀ (p : Pointer M) (offset : Offset M) (bytes : List UInt8),
      r.load (p.locate offset) M.bytes = .ok bytes →
      ∃ x : Word M, (∀ rest, Value.read? r.order (bytes ++ rest) = some (x, rest)) ∧
        (p.read .word offset : Access Region (Word M)) r = .ok x r ∧
        (p.read .reference offset : Access Region (Reference M)) r = .ok (x.as .reference) r) ∧
    ∀ (address : BitVec 64) (words : List (Word M)),
      address.toNat + words.length * M.bytes ≤ 2 ^ M.bits →
      r.contains address (words.length * M.bytes) = true →
      ∃ next, r.store address (Value.writeAll (words.map fun x => (r.order, x)) []) = .ok next ∧
        ∀ (p : Pointer M) (displacement first : Int32) (start count : Nat),
          start + count ≤ words.length → first.toInt + count ≤ 2 ^ 31 → count ≤ 2 ^ 31 →
          (p.locate (Pointer.scaled .word displacement first)).toNat =
            address.toNat + start * M.bytes →
          ∀ (dst : Array (Word M)) (target : Nat),
            target + count ≤ dst.size → dst.size < UInt64.size →
            ∃ filled, p.copyElements next displacement first target count (.scalar .word) dst =
                (filled, none) ∧
              filled.toList = dst.toList.take target ++ (words.drop start).take count ++
                dst.toList.drop (target + count) := by
  refine ⟨?_, ?_, ?_⟩
  · intro p offset x y same inside
    obtain ⟨next, written, patched⟩ := p.write_of_inside offset inside x
    have inside' : next.contains (p.locate offset) M.bytes = true := by
      rw [contains_iff, patched.base_eq, patched.size_eq, ← contains_iff]
      exact inside
    have held : next.bytesAt ((p.locate offset).toNat - next.base.toNat) M.bytes =
        x.toBytes r.order := by
      have coded : r.Patched (Pointer.distance r p offset) (x.toBytes r.order) next := patched
      have bytes := coded.bytesAt_self
      rw [Value.length_toBytes, Pointer.distance, ← patched.base_eq] at bytes
      exact bytes
    refine ⟨next, x.toBytes r.order, written, ?_, ?_, fun stream => ⟨rfl, ?_⟩⟩
    · rw [p.write_reference_eq offset same]
      exact written
    · rw [load_of_contains inside', held]
    · rw [Value.write, Value.toBytes, same]
      rfl
  · intro p offset bytes loaded
    by_cases inside : r.contains (p.locate offset) M.bytes = true
    · rw [load_of_contains inside] at loaded
      cases loaded
      refine ⟨Value.ofBytes r.order (r.bytesAt (Pointer.distance r p offset) M.bytes),
        Value.read?_append r.order (length_bytesAt _ _ _), ?_, ?_⟩
      · exact p.read_of_fetch offset (p.fetch_of_inside (s := .word) offset inside)
      · exact p.read_of_fetch offset (p.fetch_of_inside (s := .reference) offset inside)
    · rw [load_of_not_contains inside] at loaded
      cases loaded
  · intro address words fits inside
    obtain ⟨next, stored, holds⟩ := exists_holdsWords inside
    refine ⟨next, stored, ?_⟩
    intro p displacement first start count part bounded near began dst target room size
    exact holds.copyElements_eq fits part bounded near began room size

/-- Three words written to a stream and stored across two cells of a big region, of which the last
two are copied by way of a displacement, and the reference that follows them. -/
theorem streams_and_regions_share_words_of_three :
    let p : Pointer .hosted32 := ⟨.ofBits 0x1000⟩
    let words : List (Word .hosted32) := [.ofInt 1, .ofInt (-2), .ofInt 3]
    ∃ r, zeros 0x1000 16 .big = .ok r ∧
      (∃ next, r.store 0x1004 (Value.writeAll (words.map fun x => (r.order, x)) []) = .ok next ∧
        ∃ filled, p.copyElements next 4 1 1 2 (.scalar .word) (Array.replicate 4 .zero) =
            (filled, none) ∧
          filled.toList = [.zero, .ofInt (-2), .ofInt 3, .zero]) ∧
      (∃ next code, (p.write .reference .zero (.ofInt (-2)) : Access Region Unit) r = .ok () next ∧
        next.load (p.locate .zero) 4 = .ok code ∧
        (Value.ofInt (-2) : Word .hosted32).write .big [] = code) ∧
      ∃ x : Word .hosted32, Value.read? .big [0, 0, 0, 0] = some (x, []) ∧
        (p.read .word .zero : Access Region (Word .hosted32)) r = .ok x r := by
  intro p words
  let r : Region := ⟨0x1000, 16, .big, Array.replicate 2 0, by decide, by decide, rfl⟩
  obtain ⟨stores, loads, copies⟩ := streams_and_regions_share_words .hosted32 r
  refine ⟨r, rfl, ?_, ?_, ?_⟩
  · obtain ⟨next, stored, copied⟩ := copies 0x1004 words (by decide) (by decide)
    exact ⟨next, stored, copied p 4 1 1 2 (by decide) (by decide) (by decide) (by decide +kernel)
      (Array.replicate 4 .zero) 1 (by decide) (by decide)⟩
  · obtain ⟨next, code, -, written, loaded, streamed⟩ :=
      stores p .zero (.ofInt (-2)) (.ofInt (-2)) rfl (by decide +kernel)
    exact ⟨next, code, written, loaded, (streamed []).1⟩
  · obtain ⟨x, read, found, -⟩ := loads p .zero [0, 0, 0, 0] (by decide +kernel)
    exact ⟨x, read [], found⟩

end Region

end MachineWord
