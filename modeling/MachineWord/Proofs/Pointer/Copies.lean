import Mathlib
import MachineWord.Cursor.Basic
import MachineWord.Memory.Access

/-!
# Copies are gets of one element after another

A copy gets elements one by one and stops at the first that cannot be got. One more element that
is got fills one more place of the array (`Filled.succ`), so the array always holds the elements
got so far, in their places, and is unchanged everywhere else. This is what the array is like at
the end of a copy and also at the fault of one that stops (`copyFrom_cases`). A copy into places
that the array does not have, and one of values without bytes, are refused before the first
element (`copies_get_elements`).
-/

set_option autoImplicit false

namespace MachineWord

/-- An array in which the first `k` values of a source fill the places from an index on, all other
places being as they were. -/
structure Filled {α : Type} (source : Nat → Except Fault α) (target k : Nat)
    (dst filled : Array α) : Prop where
  size_eq : filled.size = dst.size
  filled_eq (i : Nat) (early : i < k) :
    ∃ value, source i = .ok value ∧ filled[target + i]? = some value
  kept (j : Nat) (apart : j < target ∨ target + k ≤ j) : filled[j]? = dst[j]?

namespace Filled

variable {α : Type} {source : Nat → Except Fault α} {target k : Nat} {dst filled : Array α}

theorem zero : Filled source target 0 dst dst :=
  ⟨rfl, fun _ early => absurd early (Nat.not_lt_zero _), fun _ _ => rfl⟩

/-- The next value fills the next place. -/
theorem succ (so_far : Filled source target k dst filled) {value : α}
    (found : source k = .ok value) (room : target + k < dst.size) :
    Filled source target (k + 1) dst (filled.setIfInBounds (target + k) value) where
  size_eq := Array.size_setIfInBounds.trans so_far.size_eq
  filled_eq i early := by
    rw [Array.getElem?_setIfInBounds]
    rcases Nat.lt_succ_iff_lt_or_eq.1 early with earlier | rfl
    · rw [if_neg (by omega)]
      exact so_far.filled_eq i earlier
    · rw [if_pos rfl, if_pos (so_far.size_eq.symm ▸ room)]
      exact ⟨value, found, rfl⟩
  kept j apart := by
    rw [Array.getElem?_setIfInBounds, if_neg (by omega)]
    exact so_far.kept j (by omega)

/-- A value that fails fills no place. -/
theorem le_of_error (so_far : Filled source target k dst filled) {i : Nat} {fault : Fault}
    (failed : source i = .error fault) : k ≤ i := by
  by_contra early
  obtain ⟨value, found, -⟩ := so_far.filled_eq i (Nat.lt_of_not_le early)
  rw [failed] at found
  cases found

end Filled

namespace Pointer

variable {M : Model} {μ : Type}

/-- The index of an element that is copied: the sum of the first index and the number of the
element, which is taken into an int. -/
def copyIndex (first : Int32) (i : Nat) : Except Fault Int32 :=
  exactIndex (first.toInt + (wrapIndex i).toInt)

section Source

variable [Memory μ] (memory : μ) (p : Pointer M) (s : Scalar) (displacement first : Int32)

/-- What the elements are, got one by one. -/
def source (i : Nat) : Except Fault (s.Carrier M) := do
  (p.get s displacement (← copyIndex first i) : Access μ _).answer memory

theorem elementFrom_eq_source (i : Nat) :
    p.elementFrom memory s displacement first i = p.source memory s displacement first i := by
  rw [elementFrom, source, copyIndex]
  congr 1
  funext index
  exact (Access.answer_query (fun m => p.element m s displacement index) memory).symm

variable {memory p s displacement first} {target : Nat} {dst : Array (s.Carrier M)}

/-- A copy stops at the first element that cannot be got, or gets all of them. In both cases the
array holds the elements got so far. -/
theorem copyFrom_cases {i count : Nat} {filled : Array (s.Carrier M)}
    (so_far : Filled (p.source memory s displacement first) target i dst filled)
    (fits : target + (i + count) ≤ dst.size) :
    (∃ k fault last, k < i + count ∧ p.source memory s displacement first k = .error fault ∧
      p.copyFrom memory s displacement first target i count filled = (last, some fault) ∧
      Filled (p.source memory s displacement first) target k dst last) ∨
    ∃ last, p.copyFrom memory s displacement first target i count filled = (last, none) ∧
      Filled (p.source memory s displacement first) target (i + count) dst last := by
  induction count generalizing i filled with
  | zero => exact .inr ⟨filled, rfl, so_far⟩
  | succ count ih =>
      rw [copyFrom, elementFrom_eq_source]
      cases found : p.source memory s displacement first i with
      | error fault => exact .inl ⟨i, fault, filled, by omega, found, rfl, so_far⟩
      | ok value =>
          have next : i + 1 + count = i + (count + 1) := by omega
          rw [← next] at fits ⊢
          exact ih (so_far.succ found (by omega)) fits

variable {count : Nat}

/-- A copy of scalars is a copy of elements, with its fault as the cause. -/
theorem copyElements_of_copyScalars {last : Array (s.Carrier M)} {fault : Option Fault}
    (copied : p.copyScalars memory s displacement first target count dst = (last, fault)) :
    p.copyElements memory displacement first target count (.scalar s) dst =
      (last, fault.map .fault) :=
  congrArg (fun result => (result.1, result.2.map CopyError.fault)) copied

theorem copyElements_of_overflow (overflow : UInt64.size ≤ target + count) :
    p.copyElements memory displacement first target count (.scalar s) dst =
      (dst, some (.fault .overflow)) :=
  copyElements_of_copyScalars (if_pos overflow)

variable (bounded : target + count < UInt64.size)

include bounded

theorem copyElements_of_not_fits (beyond : dst.size < target + count) :
    p.copyElements memory displacement first target count (.scalar s) dst =
      (dst, some (.fault .sliceRange)) := by
  have refused : p.copyScalars memory s displacement first target count dst =
      (dst, some .sliceRange) := by
    rw [copyScalars, if_neg (by omega), if_pos beyond]
  exact copyElements_of_copyScalars refused

variable (memory p s displacement first) in
/-- A copy that fits into the array stops at the first element that cannot be got, or gets all of
them. -/
theorem copyElements_cases (fits : target + count ≤ dst.size) :
    (∃ k fault last, k < count ∧ p.source memory s displacement first k = .error fault ∧
      p.copyElements memory displacement first target count (.scalar s) dst =
        (last, some (.fault fault)) ∧
      Filled (p.source memory s displacement first) target k dst last) ∨
    ∃ last, p.copyElements memory displacement first target count (.scalar s) dst = (last, none) ∧
      Filled (p.source memory s displacement first) target count dst last := by
  have scalars : p.copyScalars memory s displacement first target count dst =
      p.copyFrom memory s displacement first target 0 count dst := by
    rw [copyScalars, if_neg (by omega), if_neg (by omega)]
  have so_far : Filled (p.source memory s displacement first) target 0 dst dst := .zero
  have room : target + (0 + count) ≤ dst.size := by omega
  rcases copyFrom_cases so_far room with
    ⟨k, fault, last, early, failed, copied, filled⟩ | ⟨last, copied, filled⟩
  · exact .inl ⟨k, fault, last, by omega, failed,
      copyElements_of_copyScalars (scalars.trans copied), filled⟩
  · rw [Nat.zero_add] at filled
    exact .inr ⟨last, copyElements_of_copyScalars (scalars.trans copied), filled⟩

/-- A copy whose elements can be got up to one that cannot stops there. -/
theorem copyElements_of_fault (fits : target + count ≤ dst.size) {k : Nat} {fault : Fault}
    (early : k < count) (failed : p.source memory s displacement first k = .error fault)
    (got : ∀ i < k, ∃ value, p.source memory s displacement first i = .ok value) :
    ∃ last, p.copyElements memory displacement first target count (.scalar s) dst =
        (last, some (.fault fault)) ∧
      Filled (p.source memory s displacement first) target k dst last := by
  rcases copyElements_cases memory p s displacement first bounded fits with
    ⟨k', fault', last, -, failed', copied, filled⟩ | ⟨last, -, filled⟩
  · -- Both places are the first one that fails.
    have first_failed : k ≤ k' := by
      by_contra before
      obtain ⟨value, found⟩ := got k' (Nat.lt_of_not_le before)
      rw [failed'] at found
      cases found
    obtain rfl := Nat.le_antisymm (filled.le_of_error failed) first_failed
    rw [failed] at failed'
    cases failed'
    exact ⟨last, copied, filled⟩
  · exact absurd early (Nat.not_lt_of_le (filled.le_of_error failed))

/-- A copy whose elements can all be got. -/
theorem copyElements_of_got (fits : target + count ≤ dst.size)
    (got : ∀ i < count, ∃ value, p.source memory s displacement first i = .ok value) :
    ∃ last, p.copyElements memory displacement first target count (.scalar s) dst = (last, none) ∧
      Filled (p.source memory s displacement first) target count dst last := by
  rcases copyElements_cases memory p s displacement first bounded fits with
    ⟨k, fault, last, early, failed, -, -⟩ | done
  · obtain ⟨value, found⟩ := got k early
    rw [failed] at found
    cases found
  · exact done

end Source

/-- **Copies get elements one by one.** A copy of values without bytes is refused, whatever the
indices. Any other copy is refused if the places for the elements overflow or the array does not
have them, and leaves the array as it is. Otherwise it gets the elements one after another, at
indices that are exact sums. If one cannot be got, the copy fails with the fault of the first such
element; if all can be got, it is done. The elements got before stand in their places, and the
rest of the array is as it was. No copy changes the memory. -/
theorem copies_get_elements [Block μ] (memory : μ) (p : Pointer M) (displacement first : Int32)
    (target count : Nat) :
    (∀ dst : Array (Kind.void.Carrier M),
      p.copyElements memory displacement first target count .void dst =
        (dst, some (.invalidKind .void))) ∧
    (∀ (s : Scalar) (dst : Array (s.Carrier M)),
      let copy := p.copyElements memory displacement first target count (.scalar s) dst
      let element (i : Nat) : Except Fault (s.Carrier M) := do
        let index ← exactIndex (first.toInt + (wrapIndex i).toInt)
        (p.get s displacement index : Access μ _).answer memory
      (UInt64.size ≤ target + count → copy = (dst, some (.fault .overflow))) ∧
      (target + count < UInt64.size → dst.size < target + count →
        copy = (dst, some (.fault .sliceRange))) ∧
      (target + count < UInt64.size → target + count ≤ dst.size →
        (∀ (k : Nat) (fault : Fault), k < count → element k = .error fault →
          (∀ i < k, ∃ value, element i = .ok value) →
          ∃ last, copy = (last, some (.fault fault)) ∧ Filled element target k dst last) ∧
        ((∀ i < count, ∃ value, element i = .ok value) →
          ∃ last, copy = (last, none) ∧ Filled element target count dst last))) ∧
    ∀ (kind : Kind) (dst : List (BitVec 64)),
      (Cursor.access p (.copy kind displacement first dst target count) : Access μ _).Reads := by
  refine ⟨fun dst => rfl, ?_, fun kind dst => Access.Reads.query fun m =>
    .ok (Cursor.copied m p kind displacement first dst target count)⟩
  intro s dst copy element
  refine ⟨copyElements_of_overflow, copyElements_of_not_fits, ?_⟩
  intro bounded fits
  exact ⟨fun k fault => copyElements_of_fault bounded fits, copyElements_of_got bounded fits⟩

/-- Two shorts lie before the end of a region. They are copied before the third one is refused. -/
theorem copies_get_elements_of_end :
    let p : Pointer .target64 := ⟨.ofBits 0x1002⟩
    let r : Region := ⟨0x1000, 8, .little, #[0x0102030405060708], by decide, by decide, rfl⟩
    let dst : Array Int16 := #[5, 5, 5, 5, 5]
    ∃ last : Array Int16, p.copyElements r 2 0 1 3 (.scalar .short) dst =
        (last, some (.fault (.outside 2 0x1008 0x1000 0x1008))) ∧
      last[0]? = some 5 ∧ last[1]? = some 0x0304 ∧ last[2]? = some 0x0102 ∧
      last[3]? = some 5 ∧ last[4]? = some 5 := by
  intro p r dst
  let element (i : Nat) : Except Fault Int16 := do
    let index ← exactIndex ((0 : Int32).toInt + (wrapIndex i).toInt)
    (p.get .short 2 index : Access Region _).answer r
  have first : element 0 = .ok 0x0304 := by unfold element p r; cbv
  have second : element 1 = .ok 0x0102 := by unfold element p r; cbv
  have third : element 2 = .error (.outside 2 0x1008 0x1000 0x1008) := by unfold element p r; cbv
  have got (i : Nat) (early : i < 2) : ∃ value, element i = .ok value := by
    interval_cases i
    · exact ⟨_, first⟩
    · exact ⟨_, second⟩
  have copy := ((copies_get_elements r p 2 0 1 3).2.1 .short dst).2.2 (by decide) (by decide)
  obtain ⟨last, stopped, filled⟩ := copy.1 2 _ (by decide) third got
  refine ⟨last, stopped, filled.kept 0 (by decide), ?_, ?_, filled.kept 3 (by decide),
    filled.kept 4 (by decide)⟩
  · obtain ⟨value, found, held⟩ := filled.filled_eq 0 (by decide)
    cases first.symm.trans found
    exact held
  · obtain ⟨value, found, held⟩ := filled.filled_eq 1 (by decide)
    cases second.symm.trans found
    exact held

end Pointer

end MachineWord
