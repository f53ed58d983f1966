import Mathlib
import MachineWord.Proofs.Hybrid.Elements
import MachineWord.Proofs.Hybrid.Layout

/-!
# Two views of a tail

The tail of a hybrid is an array of words and an array of ints at once. Both views are of the
same bytes: a word is made of its ints, at the positions that the byte order gives them. A
stored word is found in its ints, a stored int replaces the bits of one int in its word and
touches no other element, and all ints of a word together determine the word, in whatever
order they are stored (`views_alias`).

All of this holds in every heap in which the hybrid finds a length below two to the thirtieth,
as far as the accesses are made at all. They are all made if the tail lies in the region and
within the addresses of the model, as a tail does that such a heap has given out
(`contains_of_expand`).
-/

set_option autoImplicit false

namespace MachineWord

namespace BumpHeap

open Pointer (Inside scaled)

variable {M : Model} {α : Type}

theorem answer_inRegion (access : Access Region α) (heap : BumpHeap) :
    (inRegion access).answer heap = access.answer heap.region := by
  rw [Access.answer, Access.answer, inRegion]
  cases access heap.region <;> rfl

theorem after_inRegion (access : Access Region α) (heap : BumpHeap) :
    (inRegion access).after heap = { heap with region := access.after heap.region } := by
  rw [Access.after, Access.after, inRegion]
  cases access heap.region <;> rfl

/-- The tail with its length lies in the region, and all its addresses fit into a word. -/
def Contains (heap : BumpHeap) (origin : Reference M) (length : Int32) : Prop :=
  heap.region.base.toNat ≤ origin.bits.toNat ∧
    tailStop origin length ≤ heap.region.base.toNat + heap.region.size ∧
    tailStop origin length ≤ 2 ^ M.bits

/-- The elements of a tail in the region lie in the region. -/
theorem Contains.inside {heap : BumpHeap} {origin : Reference M} {length index : Int32}
    {s : Scalar} (contained : heap.Contains origin length)
    (within_tail : Within M s (.zeros M length) index) :
    Inside heap.region (BumpHeap.tail origin) s (scaled s (elements M) index) := by
  obtain ⟨base, stop, words⟩ := contained
  have inside : index.toInt.toNat * s.bytes M + s.bytes M ≤ length.toInt.toNat * M.bytes :=
    within_tail.2
  have positive := s.bytes_pos M
  rw [tailStop, tailBytes_eq] at stop words
  rw [Inside, Region.contains_iff, toNat_locate_element_mod origin within_tail.1,
    Nat.mod_eq_of_lt (by omega)]
  omega

/-- A heap whose region fits the addresses of the model contains the tails that it gives out. -/
theorem contains_of_expand {heap last : BumpHeap} {origin : Reference M} {length : Int32}
    (fits : heap.Fits M) (given : BumpHeap.expand M length heap = .ok origin last) :
    last.Contains origin length := by
  rcases expand_cases fits length with
    ⟨next, given', fits', patched, next_eq, origin_eq⟩ | ⟨fault, failed⟩
  · rw [given'] at given
    cases given
    have base := fits.base_le
    have stop := fits'.next_le
    have words := fits'.stop_le
    rw [Contains, tailStop, origin_eq, patched.base_eq]
    rw [patched.base_eq] at stop words
    omega
  · rw [failed] at given
    cases given

/-- The length of a tail is the int of the word at its origin. -/
theorem answer_length (heap : BumpHeap) (origin : Reference M) :
    (TailHeap.length origin : Access BumpHeap Int32).answer heap =
      ((BumpHeap.tail origin).fetch heap.region .word .zero).map fun x : Word M => x.toInt := by
  change (inRegion ((BumpHeap.tail origin).read .word .zero) >>= fun held : Word M =>
    (pure held.toInt : Access BumpHeap Int32)).answer heap = _
  cases fetched : (BumpHeap.tail origin).fetch heap.region .word .zero with
  | ok held =>
      have read : inRegion ((BumpHeap.tail origin).read .word .zero) heap = .ok held heap := by
        rw [inRegion, Pointer.read_of_fetch _ _ fetched]
      exact Access.answer_bind_of_ok read
  | error fault =>
      have failed : inRegion ((BumpHeap.tail origin).read .word .zero) heap =
          .error fault heap := by
        rw [inRegion, Pointer.read, Access.query, fetched]
      exact Access.answer_of_error (Access.bind_of_error failed)

theorem length_of_answer {heap : BumpHeap} {origin : Reference M} {length : Int32}
    (found : (TailHeap.length origin : Access BumpHeap Int32).answer heap = .ok length) :
    TailHeap.length origin heap = .ok length heap := by
  have reads : (TailHeap.length origin : Access BumpHeap Int32).Reads :=
    .bind (Hybrid.reads_inRegion (.query _)) fun _ => .pure _
  rw [Access.eq_of_answer found, reads]

end BumpHeap

namespace Hybrid

open BumpHeap (Within elements inRegion)

variable {M : Model} {φ : Type} [TailFields M φ]

/-- The hybrid has a tail with a number of words at an origin, and its indices are tame. -/
structure HasTail (h : Hybrid M φ) (origin : Reference M) (length : Int32) (heap : BumpHeap) :
    Prop where
  origin_eq : h.origin = some origin
  length_eq : TailHeap.length origin heap = .ok length heap
  nonneg : 0 ≤ length.toInt
  small : length.toInt < 2 ^ 30
  tame : h.shape.TameAt M length

namespace HasTail

variable {h : Hybrid M φ} {origin : Reference M} {length : Int32} {heap : BumpHeap}
  (tail : h.HasTail origin length heap)

include tail

/-! ## Single accesses -/

theorem within_word {i : Int32} (allowed : h.shape.AllowsWord length i) :
    Within M .word (.zeros M length) i :=
  within_of_allowsWord (show h.shape.TameAt M (Tail.zeros M length).length from tail.tame) allowed

theorem within_int {j : Int32} (allowed : h.shape.AllowsInt M length j) :
    Within M .int (.zeros M length) j :=
  within_of_allowsInt (show h.shape.TameAt M (Tail.zeros M length).length from tail.tame) allowed

theorem getWord_eq {i : Int32} (allowed : h.shape.AllowsWord length i) :
    (h.getWord i).answer heap =
      (BumpHeap.tail origin).element heap.region .word (elements M) i := by
  rcases checkWord_cases tail.origin_eq tail.length_eq i with ⟨-, checked⟩ | ⟨refused, -⟩
  · rw [getWord, Access.answer_bind_of_ok checked]
    change (inRegion ((BumpHeap.tail origin).get .word (elements M) i)).answer heap = _
    rw [BumpHeap.answer_inRegion]
    exact Access.answer_query _ _
  · exact absurd allowed refused

theorem getInt_eq {j : Int32} (allowed : h.shape.AllowsInt M length j) :
    (h.getInt j).answer heap =
      (BumpHeap.tail origin).element heap.region .int (elements M) j := by
  rcases checkInt_cases tail.tame tail.small tail.origin_eq tail.length_eq j with
    ⟨-, checked⟩ | ⟨refused, -⟩
  · rw [getInt, Access.answer_bind_of_ok checked]
    change (inRegion ((BumpHeap.tail origin).get .int (elements M) j)).answer heap = _
    rw [BumpHeap.answer_inRegion]
    exact Access.answer_query _ _
  · exact absurd allowed refused

/-- A word is stored as an element if its index may be used, and not at all otherwise. -/
theorem setWord_cases (i : Int32) (x : Word M) :
    (h.shape.AllowsWord length i ∧
      (h.setWord i x).answer heap =
        ((BumpHeap.tail origin).set .word (elements M) i x).answer heap.region ∧
      (h.setWord i x).after heap = { heap with
        region := ((BumpHeap.tail origin).set .word (elements M) i x).after heap.region }) ∨
    (¬ h.shape.AllowsWord length i ∧ ∃ fault, (h.setWord i x).answer heap = .error fault) := by
  rcases checkWord_cases tail.origin_eq tail.length_eq i with
    ⟨allowed, checked⟩ | ⟨refused, failed⟩
  · left
    rw [setWord, Access.answer_bind_of_ok checked, Access.after_bind_of_ok checked]
    exact ⟨allowed, BumpHeap.answer_inRegion _ _, BumpHeap.after_inRegion _ _⟩
  · right
    exact ⟨refused, _, Access.answer_of_error (Access.bind_of_error failed)⟩

/-- An int is stored as an element if its index may be used, and not at all otherwise. -/
theorem setInt_cases (j n : Int32) :
    (h.shape.AllowsInt M length j ∧
      (h.setInt j n).answer heap =
        ((BumpHeap.tail origin).set .int (elements M) j n).answer heap.region ∧
      (h.setInt j n).after heap = { heap with
        region := ((BumpHeap.tail origin).set .int (elements M) j n).after heap.region }) ∨
    (¬ h.shape.AllowsInt M length j ∧ ∃ fault, (h.setInt j n).answer heap = .error fault) := by
  rcases checkInt_cases tail.tame tail.small tail.origin_eq tail.length_eq j with
    ⟨allowed, checked⟩ | ⟨refused, fault, failed⟩
  · left
    rw [setInt, Access.answer_bind_of_ok checked, Access.after_bind_of_ok checked]
    exact ⟨allowed, BumpHeap.answer_inRegion _ _, BumpHeap.after_inRegion _ _⟩
  · right
    exact ⟨refused, fault, Access.answer_of_error (Access.bind_of_error failed)⟩

end HasTail

/-! ## Stored elements -/

/-- An element has been stored in the region of a heap. -/
structure Stored (origin : Reference M) (s : Scalar) (index : Int32) (x : s.Carrier M)
    (heap last : BumpHeap) : Prop where
  done : ((BumpHeap.tail origin).set s (elements M) index x).answer heap.region = .ok ()
  last_eq : last = { heap with
    region := ((BumpHeap.tail origin).set s (elements M) index x).after heap.region }

namespace Stored

variable {h : Hybrid M φ} {origin : Reference M} {length : Int32} {heap last : BumpHeap}
  {s t : Scalar} {index other : Int32} {x : s.Carrier M}
  (stored : Stored origin s index x heap last)

include stored

omit [TailFields M φ] in
theorem contains {other : Reference M} (contained : heap.Contains other length) :
    last.Contains other length := by
  have agrees := Pointer.agreesBeyond_write (BumpHeap.tail origin)
    (Pointer.scaled s (elements M) index) heap.region x
  rw [stored.last_eq]
  unfold BumpHeap.Contains at contained ⊢
  rwa [← agrees.base_eq, ← agrees.size_eq] at contained

omit [TailFields M φ] in
theorem order_eq : last.region.order = heap.region.order := by
  rw [stored.last_eq]
  exact (Pointer.agreesBeyond_write _ _ heap.region x).order_eq

omit [TailFields M φ] in
/-- A stored element is found. -/
theorem element_self : (BumpHeap.tail origin).element last.region s (elements M) index = .ok x := by
  rw [stored.last_eq]
  exact Pointer.fetch_write_self _ _ stored.done

omit [TailFields M φ] in
/-- Elements that lie apart from a stored one are found as before. -/
theorem element_apart (small : length.toInt < 2 ^ 30)
    (first : Within M s (.zeros M length) index) (second : Within M t (.zeros M length) other)
    (apart : index.toInt.toNat * s.bytes M + s.bytes M ≤ other.toInt.toNat * t.bytes M ∨
      other.toInt.toNat * t.bytes M + t.bytes M ≤ index.toInt.toNat * s.bytes M) :
    (BumpHeap.tail origin).element last.region t (elements M) other =
      (BumpHeap.tail origin).element heap.region t (elements M) other := by
  rw [stored.last_eq]
  exact Pointer.fetch_write_apart
    (BumpHeap.apart_elements origin small first second apart) _ _

/-- A stored element leaves the tail where it is. -/
theorem hasTail (tail : h.HasTail origin length heap)
    (within_tail : Within M s (.zeros M length) index) : h.HasTail origin length last := by
  refine ⟨tail.origin_eq, ?_, tail.nonneg, tail.small, tail.tame⟩
  have same : (BumpHeap.tail origin).fetch last.region .word .zero =
      (BumpHeap.tail origin).fetch heap.region .word .zero := by
    rw [stored.last_eq]
    exact Pointer.fetch_write_apart
      (BumpHeap.apart_head origin tail.small within_tail) _ _
  apply BumpHeap.length_of_answer
  rw [BumpHeap.answer_length, same, ← BumpHeap.answer_length]
  exact Access.answer_of_ok tail.length_eq

end Stored

namespace HasTail

variable {h : Hybrid M φ} {origin : Reference M} {length : Int32} {heap : BumpHeap}
  (tail : h.HasTail origin length heap)

include tail

theorem stored_setWord {i : Int32} {x : Word M} (done : (h.setWord i x).answer heap = .ok ()) :
    h.shape.AllowsWord length i ∧
      Stored origin .word i x heap ((h.setWord i x).after heap) := by
  rcases tail.setWord_cases i x with ⟨allowed, answer_eq, after_eq⟩ | ⟨-, fault, failed⟩
  · exact ⟨allowed, answer_eq.symm.trans done, after_eq⟩
  · rw [failed] at done
    cases done

theorem stored_setInt {j n : Int32} (done : (h.setInt j n).answer heap = .ok ()) :
    h.shape.AllowsInt M length j ∧ Stored origin .int j n heap ((h.setInt j n).after heap) := by
  rcases tail.setInt_cases j n with ⟨allowed, answer_eq, after_eq⟩ | ⟨-, fault, failed⟩
  · exact ⟨allowed, answer_eq.symm.trans done, after_eq⟩
  · rw [failed] at done
    cases done

/-! ## Words made of ints -/

/-- The word found after its ints have been stored is made of these. -/
theorem exists_word {i : Int32} (allowed : h.shape.AllowsWord length i) {n : Nat → Int32}
    (held : ∀ k < M.intsPerWord,
      (BumpHeap.tail origin).element heap.region .int (elements M) (M.intOfWord i k) =
        .ok (n k)) :
    ∃ x : Word M, (h.getWord i).answer heap = .ok x ∧
      ∀ k < M.intsPerWord, x.intAt heap.region.order k = n k := by
  obtain ⟨nonneg, below⟩ := tail.tame.lt_of_allowsWord allowed
  have small : i.toInt < 2 ^ 30 := below.trans tail.small
  have inside := BumpHeap.inside_word nonneg small fun k in_word =>
    BumpHeap.exists_element_iff.1 ⟨_, held k in_word⟩
  obtain ⟨x, found⟩ := BumpHeap.exists_element_iff.2 inside
  refine ⟨x, (tail.getWord_eq allowed).trans found, ?_⟩
  intro k in_word
  have slice := (BumpHeap.element_int nonneg small in_word found).symm.trans (held k in_word)
  exact Except.ok.inj slice

section StoredInt

variable {j n : Int32} {last : BumpHeap} (allowed : h.shape.AllowsInt M length j)
  (stored : Stored origin .int j n heap last)

include allowed stored

/-- The other ints of the tail are found as before. -/
theorem element_int_of_stored {j' : Int32} (allowed' : h.shape.AllowsInt M length j')
    (other : j' ≠ j) :
    (BumpHeap.tail origin).element last.region .int (elements M) j' =
      (BumpHeap.tail origin).element heap.region .int (elements M) j' := by
  have within_tail := tail.within_int allowed
  have within_tail' := tail.within_int allowed'
  exact stored.element_apart tail.small within_tail within_tail'
    (BumpHeap.ints_apart within_tail.1 within_tail'.1 other)

/-- All words but that of the int are found as before. -/
theorem element_word_of_stored {i : Int32} (allowed' : h.shape.AllowsWord length i)
    (other : i ≠ M.wordOfInt j) :
    (BumpHeap.tail origin).element last.region .word (elements M) i =
      (BumpHeap.tail origin).element heap.region .word (elements M) i := by
  have within_tail := tail.within_int allowed
  have within_tail' := tail.within_word allowed'
  exact stored.element_apart tail.small within_tail within_tail'
    (BumpHeap.int_apart_word within_tail.1 within_tail'.1 other)

/-- The word of a stored int keeps all bits but those of the int. -/
theorem exists_word_of_stored {old : Word M} (tail' : h.HasTail origin length last)
    (held : (h.getWord (M.wordOfInt j)).answer heap = .ok old) :
    ∃ new : Word M, (h.getWord (M.wordOfInt j)).answer last = .ok new ∧ ∀ b,
      new.bits.getLsbD b =
        let shift := M.intShift heap.region.order (M.numberOfInt j)
        if shift ≤ b ∧ b < shift + 32 then n.toBitVec.getLsbD (b - shift)
        else old.bits.getLsbD b := by
  have allowed_word := (TailShape.allowsInt_iff_allowsWord M h.shape length j).1 allowed
  obtain ⟨nonneg, below⟩ := tail.tame.lt_of_allowsWord allowed_word
  have small : (M.wordOfInt j).toInt < 2 ^ 30 := below.trans tail.small
  have number_lt := M.numberOfInt_lt j
  have index := Model.intOfWord_wordOfInt (M := M) j
  rw [tail.getWord_eq allowed_word] at held
  -- The ints of the word afterwards are the stored one, and the others as before.
  let after : Nat → Int32 :=
    Function.update (old.intAt heap.region.order) (M.numberOfInt j) n
  have after_self : after (M.numberOfInt j) = n := Function.update_self _ _ _
  have after_other {k : Nat} (other : k ≠ M.numberOfInt j) :
      after k = old.intAt heap.region.order k := Function.update_of_ne other _ _
  have ints (k : Nat) (in_word : k < M.intsPerWord) :
      (BumpHeap.tail origin).element last.region .int (elements M)
        (M.intOfWord (M.wordOfInt j) k) = .ok (after k) := by
    by_cases same : k = M.numberOfInt j
    · rw [same, index, after_self]
      exact stored.element_self
    · have other := Model.intOfWord_ne nonneg small number_lt in_word same
      rw [index] at other
      rw [after_other same, tail.element_int_of_stored allowed stored
        (allowed_word.intOfWord nonneg small in_word) other]
      exact BumpHeap.element_int nonneg small in_word held
  obtain ⟨new, found, made⟩ := tail'.exists_word allowed_word ints
  rw [stored.order_eq] at made
  have others (k : Nat) (in_word : k < M.intsPerWord) (other : k ≠ M.numberOfInt j) :
      new.intAt heap.region.order k = old.intAt heap.region.order k :=
    (made k in_word).trans (after_other other)
  refine ⟨new, found, fun b => ?_⟩
  have bit := Value.getLsbD_of_intAt others b
  rwa [made _ number_lt, after_self] at bit

end StoredInt

end HasTail

/-- Stores ints of a word, one after another. -/
def setInts (h : Hybrid M φ) (i : Int32) (n : Nat → Int32) (ks : List Nat) :
    Access BumpHeap Unit :=
  ks.forM fun k => h.setInt (M.intOfWord i k) (n k)

namespace HasTail

section Returns

variable {h : Hybrid M φ} {origin : Reference M} {length : Int32} {heap : BumpHeap}
  (tail : h.HasTail origin length heap) (contained : heap.Contains origin length)

include tail contained

theorem setWord_returns {i : Int32} (allowed : h.shape.AllowsWord length i) (x : Word M) :
    (h.setWord i x).answer heap = .ok () := by
  have inside := contained.inside (tail.within_word allowed)
  rcases tail.setWord_cases i x with ⟨-, answer_eq, -⟩ | ⟨refused, -⟩
  · obtain ⟨next, written, -⟩ := Pointer.write_of_inside _ _ inside x
    exact answer_eq.trans (Access.answer_of_ok written)
  · exact absurd allowed refused

theorem setInt_returns {j : Int32} (allowed : h.shape.AllowsInt M length j) (n : Int32) :
    (h.setInt j n).answer heap = .ok () := by
  have inside := contained.inside (tail.within_int allowed)
  rcases tail.setInt_cases j n with ⟨-, answer_eq, -⟩ | ⟨refused, -⟩
  · obtain ⟨next, written, -⟩ := Pointer.write_of_inside _ _ inside n
    exact answer_eq.trans (Access.answer_of_ok written)
  · exact absurd allowed refused

theorem getWord_returns {i : Int32} (allowed : h.shape.AllowsWord length i) :
    ∃ old, (h.getWord i).answer heap = .ok old := by
  rw [tail.getWord_eq allowed]
  exact BumpHeap.exists_element_iff.2 (contained.inside (tail.within_word allowed))

theorem getInt_returns {j : Int32} (allowed : h.shape.AllowsInt M length j) :
    ∃ old, (h.getInt j).answer heap = .ok old := by
  rw [tail.getInt_eq allowed]
  exact BumpHeap.exists_element_iff.2 (contained.inside (tail.within_int allowed))

theorem setInts_returns {i : Int32} (allowed : h.shape.AllowsWord length i) (n : Nat → Int32)
    (ks : List Nat) (in_word : ∀ k ∈ ks, k < M.intsPerWord) :
    (h.setInts i n ks).answer heap = .ok () := by
  induction ks generalizing heap with
  | nil => rfl
  | cons k rest ih =>
      obtain ⟨first_in_word, rest_in_word⟩ := List.forall_mem_cons.1 in_word
      obtain ⟨nonneg, below⟩ := tail.tame.lt_of_allowsWord allowed
      have first := tail.setInt_returns contained
        (allowed.intOfWord nonneg (below.trans tail.small) first_in_word) (n k)
      obtain ⟨allowed_int, stored⟩ := tail.stored_setInt first
      have rest_done := ih (stored.hasTail tail (tail.within_int allowed_int))
        (stored.contains contained) rest_in_word
      exact (Access.answer_bind_of_ok (Access.eq_of_answer first)).trans rest_done

end Returns

variable {h : Hybrid M φ} {origin : Reference M} {length : Int32} {heap : BumpHeap}
  (tail : h.HasTail origin length heap) {i : Int32} (allowed : h.shape.AllowsWord length i)
  (n : Nat → Int32) (ks : List Nat) (in_word : ∀ k ∈ ks, k < M.intsPerWord)

include tail allowed in_word

/-- After ints of a word have been stored, each of them is found, and so are the other ints of
the word. -/
theorem stored_setInts (done : (h.setInts i n ks).answer heap = .ok ()) :
    h.HasTail origin length ((h.setInts i n ks).after heap) ∧
      ((h.setInts i n ks).after heap).region.order = heap.region.order ∧
      ∀ k < M.intsPerWord,
        k ∈ ks ∨ (BumpHeap.tail origin).element heap.region .int (elements M) (M.intOfWord i k) =
          .ok (n k) →
        (BumpHeap.tail origin).element ((h.setInts i n ks).after heap).region .int (elements M)
          (M.intOfWord i k) = .ok (n k) := by
  induction ks generalizing heap with
  | nil =>
      refine ⟨tail, rfl, ?_⟩
      rintro k - (listed | held)
      · cases listed
      · exact held
  | cons k rest ih =>
      obtain ⟨first_in_word, rest_in_word⟩ := List.forall_mem_cons.1 in_word
      obtain ⟨⟨⟩, first_done, rest_done⟩ := Access.answer_bind_eq_ok done
      have after_eq : (h.setInts i n (k :: rest)).after heap =
          (h.setInts i n rest).after ((h.setInt (M.intOfWord i k) (n k)).after heap) :=
        Access.after_bind_of_ok (Access.eq_of_answer first_done)
      obtain ⟨allowed_int, stored⟩ := tail.stored_setInt first_done
      have tail' := stored.hasTail tail (tail.within_int allowed_int)
      obtain ⟨last_tail, order_eq, found⟩ := ih tail' rest_in_word rest_done
      rw [after_eq]
      refine ⟨last_tail, order_eq.trans stored.order_eq, ?_⟩
      intro k' k'_in_word known
      apply found k' k'_in_word
      by_cases same : k' = k
      · right
        rw [same]
        exact stored.element_self
      · rcases known with listed | held
        · exact .inl ((List.mem_cons.1 listed).resolve_left same)
        · right
          obtain ⟨nonneg, below⟩ := tail.tame.lt_of_allowsWord allowed
          have small : i.toInt < 2 ^ 30 := below.trans tail.small
          have other := Model.intOfWord_ne nonneg small first_in_word k'_in_word same
          rw [tail.element_int_of_stored allowed_int stored
            (allowed.intOfWord nonneg small k'_in_word) other, held]

end HasTail

/-! ## Both views -/

/-- The words and the ints of the tail of a hybrid are views of the same bytes. -/
structure ViewsAlias (h : Hybrid M φ) (heap : BumpHeap) (length : Int32) : Prop where
  /-- A stored word is found in its ints. -/
  getInt_setWord (i : Int32) (x : Word M) (done : (h.setWord i x).answer heap = .ok ()) (k : Nat)
    (in_word : k < M.intsPerWord) :
    (h.getInt (M.intOfWord i k)).answer ((h.setWord i x).after heap) =
      .ok (x.intAt heap.region.order k)
  /-- A stored int is found. -/
  getInt_setInt (j n : Int32) (done : (h.setInt j n).answer heap = .ok ()) :
    (h.getInt j).answer ((h.setInt j n).after heap) = .ok n
  /-- A stored int is found in its word, which keeps all its other bits. -/
  getWord_setInt (j n : Int32) (done : (h.setInt j n).answer heap = .ok ()) (old : Word M)
    (held : (h.getWord (M.wordOfInt j)).answer heap = .ok old) :
    ∃ new : Word M,
      (h.getWord (M.wordOfInt j)).answer ((h.setInt j n).after heap) = .ok new ∧
      ∀ b, new.bits.getLsbD b =
        let shift := M.intShift heap.region.order (M.numberOfInt j)
        if shift ≤ b ∧ b < shift + 32 then n.toBitVec.getLsbD (b - shift)
        else old.bits.getLsbD b
  /-- A stored int leaves all other words as they are. -/
  getWord_setInt_other (j n : Int32) (done : (h.setInt j n).answer heap = .ok ()) (i : Int32)
    (allowed : h.shape.AllowsWord length i) (other : i ≠ M.wordOfInt j) :
    (h.getWord i).answer ((h.setInt j n).after heap) = (h.getWord i).answer heap
  /-- A stored int leaves all other ints as they are. -/
  getInt_setInt_other (j n : Int32) (done : (h.setInt j n).answer heap = .ok ()) (j' : Int32)
    (allowed : h.shape.AllowsInt M length j') (other : j' ≠ j) :
    (h.getInt j').answer ((h.setInt j n).after heap) = (h.getInt j').answer heap
  /-- All ints of a word, stored in any order, make up the word. -/
  getWord_setInts (i : Int32) (allowed : h.shape.AllowsWord length i) (n : Nat → Int32)
    (ks : List Nat) (all : ∀ k, k ∈ ks ↔ k < M.intsPerWord)
    (done : (h.setInts i n ks).answer heap = .ok ()) :
    ∃ x : Word M, (h.getWord i).answer ((h.setInts i n ks).after heap) = .ok x ∧
      x.bits.toNat = ∑ k ∈ Finset.range M.intsPerWord,
        (n k).toBitVec.toNat * 2 ^ M.intShift heap.region.order k
  /-- Accesses to a tail that lies in the region are made. -/
  returns (origin : Reference M) (expanded : h.origin = some origin)
    (contained : heap.Contains origin length) :
    (∀ i x, h.shape.AllowsWord length i → (h.setWord i x).answer heap = .ok () ∧
      ∃ old, (h.getWord i).answer heap = .ok old) ∧
    (∀ j n, h.shape.AllowsInt M length j → (h.setInt j n).answer heap = .ok () ∧
      ∃ old, (h.getInt j).answer heap = .ok old) ∧
    ∀ i n ks, h.shape.AllowsWord length i → (∀ k ∈ ks, k < M.intsPerWord) →
      (h.setInts i n ks).answer heap = .ok ()

/-- A hybrid that finds a length has a tail of this length. -/
theorem exists_hasTail {h : Hybrid M φ} {heap : BumpHeap} {length : Int32}
    (found : h.length.answer heap = .ok length) (nonneg : 0 ≤ length.toInt)
    (small : length.toInt < 2 ^ 30) (tame : h.shape.TameAt M length) :
    ∃ origin, h.HasTail origin length heap := by
  cases expanded : h.origin with
  | none =>
      have failed : h.length heap = .error .unexpanded heap :=
        Access.bind_of_error (expandedOrigin_of_unexpanded expanded)
      rw [Access.answer_of_error failed] at found
      cases found
  | some origin =>
      rw [Hybrid.length, Access.answer_bind_of_ok (expandedOrigin_of_expanded expanded)] at found
      exact ⟨origin, expanded, BumpHeap.length_of_answer found, nonneg, small, tame⟩

/-- **Words and ints of a tail are views of the same bytes.** Take a hybrid over a bump heap that
finds a length below two to the thirtieth, and whose shape keeps its indices within this length,
with the ints of its words. A word that is stored is found in its ints, from the lowest int on
or from the highest one on as the byte order says. An int that is stored replaces its bits of
the word it lies in, and no other bit, word or int of the tail. All ints of a word make up the
word, whatever it was before and in whatever order they are stored. All these accesses are made
where the tail lies in the region and within the addresses of the model. -/
theorem views_alias {h : Hybrid M φ} {heap : BumpHeap} {length : Int32}
    (found : h.length.answer heap = .ok length) (nonneg : 0 ≤ length.toInt)
    (small : length.toInt < 2 ^ 30) (tame : h.shape.TameAt M length) :
    h.ViewsAlias heap length := by
  obtain ⟨origin, tail⟩ := exists_hasTail found nonneg small tame
  refine ⟨?_, ?_, ?_, ?_, ?_, ?_, ?_⟩
  · intro i x done k in_word
    obtain ⟨allowed, stored⟩ := tail.stored_setWord done
    obtain ⟨nonneg, below⟩ := tame.lt_of_allowsWord allowed
    have small : i.toInt < 2 ^ 30 := below.trans tail.small
    have tail' := stored.hasTail tail (tail.within_word allowed)
    rw [tail'.getInt_eq (allowed.intOfWord nonneg small in_word), ← stored.order_eq]
    exact BumpHeap.element_int nonneg small in_word stored.element_self
  · intro j n done
    obtain ⟨allowed, stored⟩ := tail.stored_setInt done
    have tail' := stored.hasTail tail (tail.within_int allowed)
    exact (tail'.getInt_eq allowed).trans stored.element_self
  · intro j n done old held
    obtain ⟨allowed, stored⟩ := tail.stored_setInt done
    have tail' := stored.hasTail tail (tail.within_int allowed)
    exact tail.exists_word_of_stored allowed stored tail' held
  · intro j n done i allowed' other
    obtain ⟨allowed, stored⟩ := tail.stored_setInt done
    have tail' := stored.hasTail tail (tail.within_int allowed)
    rw [tail'.getWord_eq allowed', tail.getWord_eq allowed',
      tail.element_word_of_stored allowed stored allowed' other]
  · intro j n done j' allowed' other
    obtain ⟨allowed, stored⟩ := tail.stored_setInt done
    have tail' := stored.hasTail tail (tail.within_int allowed)
    rw [tail'.getInt_eq allowed', tail.getInt_eq allowed',
      tail.element_int_of_stored allowed stored allowed' other]
  · intro i allowed n ks all done
    obtain ⟨tail', order_eq, ints⟩ :=
      tail.stored_setInts allowed n ks (fun k listed => (all k).1 listed) done
    obtain ⟨x, found, slices⟩ := tail'.exists_word allowed fun k in_word =>
      ints k in_word (.inl ((all k).2 in_word))
    refine ⟨x, found, ?_⟩
    rw [order_eq] at slices
    rw [x.toNat_bits_eq_sum heap.region.order]
    refine Finset.sum_congr rfl fun k listed => ?_
    rw [slices k (Finset.mem_range.1 listed)]
  · intro origin' expanded contained
    obtain rfl : origin' = origin := Option.some.inj (expanded.symm.trans tail.origin_eq)
    refine ⟨?_, ?_, ?_⟩
    · intro i x allowed
      exact ⟨tail.setWord_returns contained allowed x, tail.getWord_returns contained allowed⟩
    · intro j n allowed
      exact ⟨tail.setInt_returns contained allowed n, tail.getInt_returns contained allowed⟩
    · intro i n ks allowed in_word
      exact tail.setInts_returns contained allowed n ks in_word

/-- A tail of four words, with the most significant byte first. The second int of the second word
is its low half. -/
theorem views_alias_of_four_words :
    let h : Hybrid .hosted64 NumberedFields := ⟨⟨1, ⟨0, -1, none⟩⟩, some (.ofBits 0x1000)⟩
    ∃ region, Region.zeros 0x1000 64 .big = .ok region ∧
      let heap := (BumpHeap.expand .hosted64 4).after (.empty region)
      h.ViewsAlias heap 4 ∧
      ∀ x, (h.getInt 3).answer ((h.setWord 1 x).after heap) = .ok (x.intAt .big 1) := by
  intro h
  refine ⟨_, rfl, ?_⟩
  intro heap
  have tame : h.shape.TameAt .hosted64 4 :=
    (AffineShape.tame_tail (s := ⟨0, -1, none⟩) (by decide) (by decide) rfl).tameAt (by decide)
  have views : h.ViewsAlias heap 4 :=
    views_alias (by decide +kernel) (by decide) (by decide) tame
  have contained : heap.Contains (.ofBits 0x1000 : Reference .hosted64) 4 :=
    ⟨by decide +kernel, by decide +kernel, by decide +kernel⟩
  obtain ⟨words, -, -⟩ := views.returns (.ofBits 0x1000) rfl contained
  refine ⟨views, fun x => ?_⟩
  obtain ⟨done, -⟩ := words 1 x ⟨by decide, by decide⟩
  have slice := views.getInt_setWord 1 x done 1 (by decide)
  have index : Model.hosted64.intOfWord 1 1 = 3 := by decide
  have order : heap.region.order = .big := by decide +kernel
  rwa [index, order] at slice

end Hybrid

end MachineWord
