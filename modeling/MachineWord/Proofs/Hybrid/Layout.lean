import Mathlib
import MachineWord.ByteOrder.Slices
import MachineWord.Proofs.Hybrid.Accesses
import MachineWord.Proofs.Hybrid.Tails
import MachineWord.Proofs.Pointer.Ways
import MachineWord.Value.Ints

/-!
# Words and ints of a tail in a region

The words and the ints of a tail are elements of two sizes that start behind its length.
Addresses are computed modulo the number of words, so a tail may run beyond the last address
and go on at the first one. It is never as long as the whole address space. So the elements,
and the word that keeps the length, lie apart wherever their distances from the origin lie
apart (`apart_elements`, `apart_head`). A word in the region does not run beyond the last
address, and its ints lie in it one after another (`toNat_locate_int`). Hence an int of a word
is a slice of the word (`element_int`).
-/

set_option autoImplicit false

namespace MachineWord

namespace Model

variable {M : Model} {word : Int32} {k : Nat}

/-- The int of a word with a number among the ints of the word. -/
def intOfWord (M : Model) (word : Int32) (k : Nat) : Int32 :=
  Int32.ofInt (word.toInt * M.intsPerWord + k)

/-- The word in which an int lies. -/
def wordOfInt (M : Model) (int : Int32) : Int32 := Int32.ofInt (int.toInt / M.intsPerWord)

/-- The number of an int among the ints of its word. -/
def numberOfInt (M : Model) (int : Int32) : Nat := (int.toInt % M.intsPerWord).toNat

/-- A position within a word counts the bytes that are below the int. -/
theorem two_pow_intShift (order : ByteOrder) (in_word : k < M.intsPerWord) :
    2 ^ M.intShift order k = 256 ^ order.below M.bytes (4 * k) 4 := by
  rw [show 256 = 2 ^ 8 from rfl, ← pow_mul, bytes_eq_intsPerWord]
  congr 1
  cases order <;> rw [intShift, ByteOrder.below] <;> omega

theorem toInt_intOfWord (nonneg : 0 ≤ word.toInt) (small : word.toInt < 2 ^ 30)
    (in_word : k < M.intsPerWord) :
    (M.intOfWord word k).toInt = word.toInt * M.intsPerWord + k := by
  apply Int32.toInt_ofInt_of_le <;>
    rcases M.intsPerWord_eq with ints | ints <;> rw [ints] at in_word ⊢ <;> omega

theorem intOfWord_ne {other : Nat} (nonneg : 0 ≤ word.toInt) (small : word.toInt < 2 ^ 30)
    (in_word : k < M.intsPerWord) (other_in_word : other < M.intsPerWord) (distinct : other ≠ k) :
    M.intOfWord word other ≠ M.intOfWord word k := by
  intro same
  have values := congrArg Int32.toInt same
  rw [toInt_intOfWord nonneg small in_word, toInt_intOfWord nonneg small other_in_word] at values
  omega

section IntIndex

variable (int : Int32)

theorem toInt_wordOfInt :
    (M.wordOfInt int).toInt = int.toInt / M.intsPerWord := by
  have upper : int.toInt < 2 ^ 31 := Int32.toInt_lt int
  have lower : -2 ^ 31 ≤ int.toInt := Int32.le_toInt int
  apply Int32.toInt_ofInt_of_le <;>
    rcases M.intsPerWord_eq with ints | ints <;> rw [ints] <;> omega

theorem numberOfInt_lt : M.numberOfInt int < M.intsPerWord := by
  rw [numberOfInt]
  rcases M.intsPerWord_eq with ints | ints <;> rw [ints] <;> omega

/-- An int counts the ints of the words before its own, and those before it in its own word. -/
theorem toInt_eq_wordOfInt_mul_add :
    int.toInt = (M.wordOfInt int).toInt * M.intsPerWord + M.numberOfInt int := by
  rw [toInt_wordOfInt, numberOfInt]
  rcases M.intsPerWord_eq with ints | ints <;> rw [ints] <;> omega

/-- An int is found by its word and its number. -/
theorem intOfWord_wordOfInt :
    M.intOfWord (M.wordOfInt int) (M.numberOfInt int) = int := by
  rw [intOfWord, ← toInt_eq_wordOfInt_mul_add, Int32.ofInt_toInt]

end IntIndex

/-- An int of a word has this word and its number in it. -/
theorem wordOfInt_intOfWord (nonneg : 0 ≤ word.toInt) (small : word.toInt < 2 ^ 30)
    (in_word : k < M.intsPerWord) :
    M.wordOfInt (M.intOfWord word k) = word ∧ M.numberOfInt (M.intOfWord word k) = k := by
  rw [← Int32.toInt_inj, toInt_wordOfInt, numberOfInt, toInt_intOfWord nonneg small in_word]
  rcases M.intsPerWord_eq with ints | ints <;> rw [ints] at in_word ⊢ <;> omega

end Model

namespace TailShape

variable {M : Model} {shape : TailShape} {length word int : Int32} {k : Nat}

theorem AllowsWord.intOfWord (allowed : shape.AllowsWord length word) (nonneg : 0 ≤ word.toInt)
    (small : word.toInt < 2 ^ 30) (in_word : k < M.intsPerWord) :
    shape.AllowsInt M length (M.intOfWord word k) := by
  obtain ⟨lower, upper⟩ := allowed
  rw [AllowsInt, Model.toInt_intOfWord nonneg small in_word]
  rcases M.intsPerWord_eq with ints | ints <;> rw [ints] at in_word ⊢ <;> omega

/-- An int may be used exactly if its word may be used. -/
theorem allowsInt_iff_allowsWord (M : Model) (shape : TailShape) (length int : Int32) :
    shape.AllowsInt M length int ↔ shape.AllowsWord length (M.wordOfInt int) := by
  rw [AllowsInt, AllowsWord, Model.toInt_wordOfInt]
  rcases M.intsPerWord_eq with ints | ints <;> rw [ints] <;> omega

end TailShape

namespace BumpHeap

open Pointer (Inside scaled)

/-! ## Addresses modulo the number of words -/

section Wrap

variable {m o d e a b : Nat}

/-- A sum runs beyond the last address once at most. -/
theorem wrap_cases (address : o < m) (bound : d ≤ m) :
    ((o + d) % m = o + d ∧ o + d < m) ∨ (o + d) % m + m = o + d := by
  by_cases fits : o + d < m
  · exact .inl ⟨Nat.mod_eq_of_lt fits, fits⟩
  · right
    rw [Nat.mod_eq_sub_mod (by omega), Nat.mod_eq_of_lt (by omega)]
    omega

/-- Bytes at two distances from one address lie apart modulo the number of words. -/
theorem apart_of_le (address : o < m) (before : d + a ≤ e) (fits : e + b ≤ m) :
    (o + d) % m + a ≤ (o + e) % m ∨ (o + e) % m + b ≤ (o + d) % m := by
  have first := wrap_cases address (show d ≤ m by omega)
  have second := wrap_cases address (show e ≤ m by omega)
  omega

end Wrap

variable {M : Model} {s t : Scalar} {length index other : Int32}

/-- A tail is not longer than the address space. -/
theorem tailBytes_le (small : length.toInt < 2 ^ 30) :
    M.bytes + length.toInt.toNat * M.bytes ≤ 2 ^ M.bits := by
  rw [Model.bytes_eq_intsPerWord, Model.bits_eq_intsPerWord]
  rcases M.intsPerWord_eq with ints | ints <;> rw [ints] <;> omega

/-- Elements at distances that lie apart. -/
theorem apart_elements (origin : Reference M) (small : length.toInt < 2 ^ 30)
    (first : Within M s (.zeros M length) index) (second : Within M t (.zeros M length) other)
    (apart : index.toInt.toNat * s.bytes M + s.bytes M ≤ other.toInt.toNat * t.bytes M ∨
      other.toInt.toNat * t.bytes M + t.bytes M ≤ index.toInt.toNat * s.bytes M) :
    (BumpHeap.tail origin).Apart s (scaled s (elements M) index) (BumpHeap.tail origin) t
      (scaled t (elements M) other) := by
  have address := Value.toNat_bits_lt origin
  have total := tailBytes_le (M := M) small
  have inside : index.toInt.toNat * s.bytes M + s.bytes M ≤ length.toInt.toNat * M.bytes := first.2
  have inside' : other.toInt.toNat * t.bytes M + t.bytes M ≤ length.toInt.toNat * M.bytes :=
    second.2
  rw [Pointer.Apart, toNat_locate_element_mod origin first.1,
    toNat_locate_element_mod origin second.1]
  rcases apart with before | behind
  · exact apart_of_le address (by omega) (by omega)
  · exact (apart_of_le address (by omega) (by omega)).symm

/-- Elements lie apart from the length of the tail. -/
theorem apart_head (origin : Reference M) (small : length.toInt < 2 ^ 30)
    (within_tail : Within M s (.zeros M length) index) :
    (BumpHeap.tail origin).Apart s (scaled s (elements M) index) (BumpHeap.tail origin) .word
      .zero := by
  have address := Value.toNat_bits_lt origin
  have total := tailBytes_le (M := M) small
  have inside : index.toInt.toNat * s.bytes M + s.bytes M ≤ length.toInt.toNat * M.bytes :=
    within_tail.2
  have behind := apart_of_le (a := M.bytes) (b := s.bytes M) address
    (show 0 + M.bytes ≤ M.bytes + index.toInt.toNat * s.bytes M by omega) (by omega)
  rw [Nat.add_zero, Nat.mod_eq_of_lt address] at behind
  rw [Pointer.Apart, toNat_locate_element_mod origin within_tail.1, toNat_locate_head,
    Scalar.bytes_word]
  exact behind.symm

/-- Different ints lie apart. -/
theorem ints_apart (nonneg : 0 ≤ index.toInt) (nonneg' : 0 ≤ other.toInt)
    (distinct : other ≠ index) :
    index.toInt.toNat * Scalar.bytes M .int + Scalar.bytes M .int ≤
        other.toInt.toNat * Scalar.bytes M .int ∨
      other.toInt.toNat * Scalar.bytes M .int + Scalar.bytes M .int ≤
        index.toInt.toNat * Scalar.bytes M .int := by
  have values : other.toInt ≠ index.toInt := fun same => distinct (Int32.toInt_inj.1 same)
  change _ * 4 + 4 ≤ _ * 4 ∨ _ * 4 + 4 ≤ _ * 4
  omega

/-- An int lies apart from all words but its own. -/
theorem int_apart_word (nonneg : 0 ≤ index.toInt) (nonneg' : 0 ≤ other.toInt)
    (distinct : other ≠ M.wordOfInt index) :
    index.toInt.toNat * Scalar.bytes M .int + Scalar.bytes M .int ≤
        other.toInt.toNat * Scalar.bytes M .word ∨
      other.toInt.toNat * Scalar.bytes M .word + Scalar.bytes M .word ≤
        index.toInt.toNat * Scalar.bytes M .int := by
  have values : other.toInt ≠ index.toInt / M.intsPerWord := by
    intro same
    apply distinct
    rw [← Int32.toInt_inj, Model.toInt_wordOfInt, same]
  rw [Scalar.bytes_word, Model.bytes_eq_intsPerWord]
  change _ * 4 + 4 ≤ _ ∨ _ ≤ _ * 4
  rcases M.intsPerWord_eq with ints | ints <;> rw [ints] at values ⊢ <;> omega

/-- An element is found exactly if it lies in the region. -/
theorem exists_element_iff {r : Region} {origin : Reference M} :
    (∃ x, (BumpHeap.tail origin).element r s (elements M) index = .ok x) ↔
      Inside r (BumpHeap.tail origin) s (scaled s (elements M) index) := by
  constructor
  · rintro ⟨x, held⟩
    by_contra outside
    rw [Pointer.element, Pointer.fetch_of_not_inside _ _ outside] at held
    cases held
  · intro inside
    exact ⟨_, Pointer.fetch_of_inside _ _ inside⟩

/-! ## The ints of a word -/

/-- The address of an element is a sum of integers modulo the number of words. -/
theorem toNat_locate_element_emod (s : Scalar) (origin : Reference M) (index : Int32) :
    (((BumpHeap.tail origin).locate (scaled s (elements M) index)).toNat : Int) =
      (origin.bits.toNat + (M.bytes + index.toInt * s.bytes M)) % 2 ^ M.bits := by
  rw [Pointer.scaled_eq, Pointer.toNat_locate_ofNumber, Pointer.elementDistance, toInt_elements,
    tail_address]

/-- An int lies as many bytes behind the start of its word as the ints before it have, modulo the
number of words. -/
theorem toNat_locate_int_mod (origin : Reference M) (int : Int32) :
    ((BumpHeap.tail origin).locate (scaled .int (elements M) int)).toNat =
      (((BumpHeap.tail origin).locate (scaled .word (elements M) (M.wordOfInt int))).toNat +
        4 * M.numberOfInt int) % 2 ^ M.bits := by
  have sum : (origin.bits.toNat : Int) + (M.bytes + int.toInt * Scalar.bytes M .int) =
      origin.bits.toNat + (M.bytes + (M.wordOfInt int).toInt * Scalar.bytes M .word) +
        4 * M.numberOfInt int := by
    rw [M.toInt_eq_wordOfInt_mul_add int, Scalar.bytes_word, Model.bytes_eq_intsPerWord]
    change _ + (_ + _ * (4 : Int)) = _
    push_cast
    ring
  rw [← Int.natCast_inj, toNat_locate_element_emod, sum]
  push_cast
  rw [toNat_locate_element_emod, Int.emod_add_emod]

section Ints

variable {r : Region} {origin : Reference M} {word : Int32} {k : Nat}
  (nonneg : 0 ≤ word.toInt) (small : word.toInt < 2 ^ 30) (in_word : k < M.intsPerWord)

include nonneg small in_word

theorem toNat_locate_intOfWord_mod (origin : Reference M) :
    ((BumpHeap.tail origin).locate (scaled .int (elements M) (M.intOfWord word k))).toNat =
      (((BumpHeap.tail origin).locate (scaled .word (elements M) word)).toNat + 4 * k) %
        2 ^ M.bits := by
  obtain ⟨own, number⟩ := Model.wordOfInt_intOfWord nonneg small in_word
  rw [toNat_locate_int_mod, own, number]

/-- The ints of a word in a region lie in it one after another. -/
theorem toNat_locate_int
    (inside : Inside r (BumpHeap.tail origin) .word (scaled .word (elements M) word)) :
    ((BumpHeap.tail origin).locate (scaled .int (elements M) (M.intOfWord word k))).toNat =
      ((BumpHeap.tail origin).locate (scaled .word (elements M) word)).toNat + 4 * k := by
  have address : ((BumpHeap.tail origin).locate (scaled .word (elements M) word)).toNat <
      2 ^ M.bits := Value.toNat_bits_lt _
  have stop := ((r.contains_iff _ _).1 inside).2
  have space : r.base.toNat + r.size < 2 ^ 64 := r.end_lt
  rw [Scalar.bytes_word, Model.bytes_eq_intsPerWord] at stop
  rw [toNat_locate_intOfWord_mod nonneg small in_word origin]
  -- Where a word has more than one int, all addresses of a region fit into a word.
  apply Nat.mod_eq_of_lt
  rw [Model.bits_eq_intsPerWord] at address ⊢
  rcases M.intsPerWord_eq with ints | ints <;> rw [ints] at in_word stop address ⊢ <;>
    omega

theorem inside_int
    (inside : Inside r (BumpHeap.tail origin) .word (scaled .word (elements M) word)) :
    Inside r (BumpHeap.tail origin) .int (scaled .int (elements M) (M.intOfWord word k)) := by
  have range := (r.contains_iff _ _).1 inside
  rw [Scalar.bytes_word, Model.bytes_eq_intsPerWord] at range
  rw [Inside, Region.contains_iff, toNat_locate_int nonneg small in_word inside]
  change _ ∧ _ + 4 ≤ _
  omega

/-- An int of a word is a slice of the word. -/
theorem element_int {x : Word M}
    (held : (BumpHeap.tail origin).element r .word (elements M) word = .ok x) :
    (BumpHeap.tail origin).element r .int (elements M) (M.intOfWord word k) =
      .ok (x.intAt r.order k) := by
  rw [Pointer.element] at held ⊢
  by_cases inside : Inside r (BumpHeap.tail origin) .word (scaled .word (elements M) word)
  · have base := ((r.contains_iff _ _).1 inside).1
    have place : Pointer.distance r (BumpHeap.tail origin)
          (scaled .int (elements M) (M.intOfWord word k)) =
        Pointer.distance r (BumpHeap.tail origin) (scaled .word (elements M) word) + 4 * k := by
      rw [Pointer.distance, Pointer.distance, toNat_locate_int nonneg small in_word inside]
      omega
    have fits : 4 * k + 4 ≤ M.bytes := by
      rw [Model.bytes_eq_intsPerWord]
      omega
    rw [Pointer.fetch_of_inside _ _ inside, Scalar.bytes_word] at held
    rw [Pointer.fetch_of_inside _ _ (inside_int nonneg small in_word inside), place]
    generalize Pointer.distance r (BumpHeap.tail origin) (scaled .word (elements M) word) =
      distance at held ⊢
    have number := ByteOrder.decode_lt r.order (r.bytesAt distance M.bytes)
    have slice := ByteOrder.decode_take_drop r.order
      (show 4 * k + 4 ≤ (r.bytesAt distance M.bytes).length by rwa [Region.length_bytesAt])
    rw [r.take_drop_bytesAt fits, Region.length_bytesAt] at slice
    rw [Region.length_bytesAt] at number
    have bits : x.bits.toNat = r.order.decode (r.bytesAt distance M.bytes) := by
      cases held
      exact Value.toNat_bits_ofNat number
    have code : (x.intAt r.order k).toBitVec.toNat =
        r.order.decode (r.bytesAt (distance + 4 * k) 4) := by
      rw [Value.toNat_intAt, bits, Model.two_pow_intShift _ in_word, slice]
      rfl
    rw [← Scalar.decode_encode M .int (x.intAt r.order k)]
    exact congrArg (fun n => Except.ok (Scalar.decode M .int n)) code.symm
  · rw [Pointer.fetch_of_not_inside _ _ inside] at held
    cases held

omit in_word in
/-- A word lies in a region if all of its ints do. -/
theorem inside_word (inside : ∀ k < M.intsPerWord, Inside r (BumpHeap.tail origin) .int
      (scaled .int (elements M) (M.intOfWord word k))) :
    Inside r (BumpHeap.tail origin) .word (scaled .word (elements M) word) := by
  have address : ((BumpHeap.tail origin).locate (scaled .word (elements M) word)).toNat <
      2 ^ M.bits := Value.toNat_bits_lt _
  have space : r.base.toNat + r.size < 2 ^ 64 := r.end_lt
  have range (k : Nat) (in_word : k < M.intsPerWord) :
      r.base.toNat ≤ (((BumpHeap.tail origin).locate (scaled .word (elements M) word)).toNat +
          4 * k) % 2 ^ M.bits ∧
        (((BumpHeap.tail origin).locate (scaled .word (elements M) word)).toNat + 4 * k) %
          2 ^ M.bits + 4 ≤ r.base.toNat + r.size := by
    rw [← toNat_locate_intOfWord_mod nonneg small in_word origin]
    exact (r.contains_iff _ _).1 (inside k in_word)
  rw [Inside, Region.contains_iff, Scalar.bytes_word, Model.bytes_eq_intsPerWord]
  generalize ((BumpHeap.tail origin).locate (scaled .word (elements M) word)).toNat = x at *
  rcases M.intsPerWord_eq with ints | ints
  · have first := range 0 (by omega)
    rw [Nat.mul_zero, Nat.add_zero, Nat.mod_eq_of_lt address] at first
    omega
  · have bits : M.bits = 64 := by rw [Model.bits_eq_intsPerWord, ints]
    have first := range 0 (by omega)
    have second := range 1 (by omega)
    rw [bits] at address first second
    omega

end Ints

end BumpHeap

end MachineWord
