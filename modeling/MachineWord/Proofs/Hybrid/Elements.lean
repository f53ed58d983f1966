import Mathlib
import MachineWord.Proofs.Hybrid.Accesses
import MachineWord.Proofs.Hybrid.Tails

/-!
# Elements of expanded hybrids

A hybrid over a bump heap reads and writes the elements of the tail that the heap holds at its
origin, for each index that may be used. Every other index is refused, and so is every use of
the tail of a hybrid that has not been expanded. A refused use leaves the heap as it is.
-/

set_option autoImplicit false

namespace MachineWord

namespace Hybrid

open BumpHeap (Fits Holds Within elements lengthWord)

variable {M : Model} {φ : Type} {h : Hybrid M φ} {origin : Reference M} {heap : BumpHeap}
  {tail : Tail} {index : Int32}

/-! ## Expansion -/

theorem expand_of_expanded (expanded : h.origin = some origin) (length : Int32) :
    h.expand length heap = .error .alreadyExpanded heap := by
  rw [expand, if_pos (by rw [isExpanded, expanded]; rfl)]
  rfl

section Unexpanded

variable (unexpanded : h.origin = none)

include unexpanded

theorem expand_of_negative {length : Int32} (negative : length.toInt < 0) :
    h.expand length heap = .error (.negativeLength length.toInt) heap := by
  rw [expand, if_neg (by rw [isExpanded, unexpanded]; exact Bool.false_ne_true),
    if_pos (Int32.lt_iff_toInt_lt.2 negative)]
  rfl

/-- A hybrid without a tail asks the heap for one. -/
theorem expand_of_unexpanded {length : Int32} (nonneg : 0 ≤ length.toInt) :
    h.expand length heap =
      (do return { h with origin := some (← BumpHeap.expand M length) } :
        Access BumpHeap (Hybrid M φ)) heap := by
  rw [expand, if_neg (by rw [isExpanded, unexpanded]; exact Bool.false_ne_true),
    if_neg (by rw [Int32.lt_iff_toInt_lt]; exact Int.not_lt.2 nonneg)]
  rfl

end Unexpanded

/-- An expansion gives out a tail for a hybrid that has none, or fails without a change. -/
theorem expand_cases (h : Hybrid M φ) (heap : BumpHeap) (length : Int32) :
    (h.origin = none ∧ 0 ≤ length.toInt ∧
      ∀ origin last, BumpHeap.expand M length heap = .ok origin last →
        h.expand length heap = .ok { h with origin := some origin } last) ∧
      (∀ fault last, BumpHeap.expand M length heap = .error fault last →
        h.expand length heap = .error fault last) ∨
    ∃ fault, h.expand length heap = .error fault heap := by
  cases expanded : h.origin with
  | some origin => exact .inr ⟨_, expand_of_expanded expanded length⟩
  | none =>
      rcases lt_or_ge length.toInt 0 with negative | nonneg
      · exact .inr ⟨_, expand_of_negative expanded negative⟩
      · left
        refine ⟨⟨rfl, nonneg, ?_⟩, ?_⟩
        · intro origin last given
          exact (expand_of_unexpanded expanded nonneg).trans (Access.bind_of_ok given)
        · intro fault last failed
          exact (expand_of_unexpanded expanded nonneg).trans (Access.bind_of_error failed)

/-! ## Elements -/

theorem within_of_allowsWord {shape : TailShape} (tame : shape.TameAt M tail.length)
    (allowed : shape.AllowsWord tail.length index) : Within M .word tail index := by
  obtain ⟨lower, upper⟩ := tame.lt_of_allowsWord allowed
  have below : index.toInt.toNat + 1 ≤ tail.length.toInt.toNat := by omega
  have bytes := Nat.mul_le_mul_right M.bytes below
  rw [Nat.add_mul, Nat.one_mul] at bytes
  exact ⟨lower, bytes⟩

theorem within_of_allowsInt {shape : TailShape} (tame : shape.TameAt M tail.length)
    (allowed : shape.AllowsInt M tail.length index) : Within M .int tail index := by
  obtain ⟨lower, upper⟩ := tame.lt_of_allowsInt allowed
  refine ⟨lower, ?_⟩
  change index.toInt.toNat * 4 + 4 ≤ _
  rw [Model.bytes_eq_intsPerWord]
  rcases M.intsPerWord_eq with ints | ints <;> rw [ints] at upper ⊢ <;> omega

theorem length_of_holds (fits : heap.Fits M) (holds : heap.Holds origin tail)
    (expanded : h.origin = some origin) : h.length heap = .ok tail.length heap :=
  length_of_expanded expanded (BumpHeap.length_of_holds fits holds)

section Expanded

variable [TailFields M φ] (fits : heap.Fits M) (holds : heap.Holds origin tail)
  (tame : h.shape.Tame M) (expanded : h.origin = some origin)

include fits holds tame expanded

/-- A word that may be used is the one in the tail. -/
theorem getWord_of_allowed (allowed : h.shape.AllowsWord tail.length index) :
    h.getWord index heap = .ok (tail.get M heap.region.order .word index) heap := by
  have within_tail := within_of_allowsWord (tame.tameAt holds.length_nonneg) allowed
  rcases checkWord_cases expanded (BumpHeap.length_of_holds fits holds) index with
    ⟨-, checked⟩ | ⟨refused, -⟩
  · exact (Access.bind_of_ok checked).trans (BumpHeap.get_of_holds fits holds within_tail)
  · exact absurd allowed refused

/-- An int that may be used is the one in the tail. -/
theorem getInt_of_allowed (allowed : h.shape.AllowsInt M tail.length index) :
    h.getInt index heap = .ok (tail.get M heap.region.order .int index) heap := by
  have within_tail := within_of_allowsInt (tame.tameAt holds.length_nonneg) allowed
  rcases checkInt_cases (tame.tameAt holds.length_nonneg) holds.length_lt expanded
    (BumpHeap.length_of_holds fits holds) index with ⟨-, checked⟩ | ⟨refused, -⟩
  · exact (Access.bind_of_ok checked).trans (BumpHeap.get_of_holds fits holds within_tail)
  · exact absurd allowed refused

/-- A word is stored in the tail exactly if it may be used. -/
theorem setWord_cases (index : Int32) (x : Word M) :
    (h.shape.AllowsWord tail.length index ∧ Within M .word tail index ∧ ∃ region,
      h.setWord index x heap = .ok () { heap with region } ∧
      heap.region.Patched (origin.bits.toNat - heap.region.base.toNat + M.bytes +
        index.toInt.toNat * Scalar.bytes M .word)
        (Pointer.code M .word heap.region.order x) region) ∨
    (¬ h.shape.AllowsWord tail.length index ∧
      ∃ fault, h.setWord index x heap = .error fault heap) := by
  rcases checkWord_cases expanded (BumpHeap.length_of_holds fits holds) index with
    ⟨allowed, checked⟩ | ⟨refused, failed⟩
  · left
    have within_tail := within_of_allowsWord (tame.tameAt holds.length_nonneg) allowed
    obtain ⟨region, stored, patched⟩ := BumpHeap.set_of_holds fits holds within_tail x
    exact ⟨allowed, within_tail, region, (Access.bind_of_ok checked).trans stored, patched⟩
  · right
    exact ⟨refused, _, Access.bind_of_error failed⟩

/-- An int is stored in the tail exactly if it may be used. -/
theorem setInt_cases (index value : Int32) :
    (h.shape.AllowsInt M tail.length index ∧ Within M .int tail index ∧ ∃ region,
      h.setInt index value heap = .ok () { heap with region } ∧
      heap.region.Patched (origin.bits.toNat - heap.region.base.toNat + M.bytes +
        index.toInt.toNat * Scalar.bytes M .int)
        (Pointer.code M .int heap.region.order value) region) ∨
    (¬ h.shape.AllowsInt M tail.length index ∧
      ∃ fault, h.setInt index value heap = .error fault heap) := by
  rcases checkInt_cases (tame.tameAt holds.length_nonneg) holds.length_lt expanded
    (BumpHeap.length_of_holds fits holds) index with
      ⟨allowed, checked⟩ | ⟨refused, fault, failed⟩
  · left
    have within_tail := within_of_allowsInt (tame.tameAt holds.length_nonneg) allowed
    obtain ⟨region, stored, patched⟩ := BumpHeap.set_of_holds fits holds within_tail value
    exact ⟨allowed, within_tail, region, (Access.bind_of_ok checked).trans stored, patched⟩
  · right
    exact ⟨refused, fault, Access.bind_of_error failed⟩

end Expanded

/-- The hybrid shows a tail and takes writes to all elements that may be used. -/
structure Shows [TailFields M φ] (h : Hybrid M φ) (heap : BumpHeap) (order : ByteOrder)
    (tail : Tail) : Prop where
  length_eq : h.length heap = .ok tail.length heap
  getWord_eq (index : Int32) (allowed : h.shape.AllowsWord tail.length index) :
    h.getWord index heap = .ok (tail.get M order .word index) heap
  getInt_eq (index : Int32) (allowed : h.shape.AllowsInt M tail.length index) :
    h.getInt index heap = .ok (tail.get M order .int index) heap
  setWord_iff (index : Int32) (x : Word M) :
    (∃ last, h.setWord index x heap = .ok () last) ↔ h.shape.AllowsWord tail.length index
  setInt_iff (index value : Int32) :
    (∃ last, h.setInt index value heap = .ok () last) ↔ h.shape.AllowsInt M tail.length index

/-- An access that is made if some condition holds and fails otherwise. -/
theorem succeeds_iff {p : Prop} {access : Access BumpHeap Unit}
    (outcome : (p ∧ ∃ last, access heap = .ok () last) ∨
      (¬ p ∧ ∃ fault, access heap = .error fault heap)) :
    (∃ last, access heap = .ok () last) ↔ p := by
  rcases outcome with ⟨holds, done⟩ | ⟨refused, fault, failed⟩
  · exact ⟨fun _ => holds, fun _ => done⟩
  · refine ⟨?_, fun holds => absurd holds refused⟩
    rintro ⟨last, done⟩
    rw [failed] at done
    cases done

/-- An expanded hybrid shows the tail that the heap holds for it. -/
theorem shows_of_holds [TailFields M φ] (fits : heap.Fits M) (holds : heap.Holds origin tail)
    (tame : h.shape.Tame M) (expanded : h.origin = some origin) :
    h.Shows heap heap.region.order tail := by
  refine ⟨length_of_holds fits holds expanded, ?_, ?_, ?_, ?_⟩
  · intro index allowed
    exact getWord_of_allowed fits holds tame expanded allowed
  · intro index allowed
    exact getInt_of_allowed fits holds tame expanded allowed
  · intro index x
    rcases setWord_cases fits holds tame expanded index x with
      ⟨allowed, -, region, stored, -⟩ | refused
    · exact succeeds_iff (.inl ⟨allowed, _, stored⟩)
    · exact succeeds_iff (.inr refused)
  · intro index value
    rcases setInt_cases fits holds tame expanded index value with
      ⟨allowed, -, region, stored, -⟩ | refused
    · exact succeeds_iff (.inl ⟨allowed, _, stored⟩)
    · exact succeeds_iff (.inr refused)

/-! ## Hybrids without a tail -/

section Unexpanded

variable [TailFields M φ] (unexpanded : h.origin = none)

include unexpanded

omit [TailFields M φ] in
theorem expandedOrigin_of_unexpanded : h.expandedOrigin heap = .error .unexpanded heap := by
  rw [expandedOrigin, unexpanded]
  rfl

theorem setWord_of_unexpanded (index : Int32) (x : Word M) :
    h.setWord index x heap = .error .unexpanded heap :=
  Access.bind_of_error (Access.bind_of_error (expandedOrigin_of_unexpanded unexpanded))

theorem setInt_of_unexpanded (index value : Int32) :
    h.setInt index value heap = .error .unexpanded heap :=
  Access.bind_of_error (Access.bind_of_error (expandedOrigin_of_unexpanded unexpanded))

end Unexpanded

end Hybrid

end MachineWord
