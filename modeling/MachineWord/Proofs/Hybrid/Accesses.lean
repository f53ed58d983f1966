import Mathlib
import MachineWord.Proofs.Hybrid.Ledger

/-!
# Accesses to the tail of a hybrid

An index is checked against the shape of the tail before the heap is asked. For a tame shape
the check of an index passes exactly if the index may be used (`checkWord_cases`,
`checkInt_cases`), and no arithmetic on indices overflows for an index that may be used
(`TameAt.bounds_of_allowsInt`). Checks and questions leave the heap as it is.
-/

set_option autoImplicit false

namespace MachineWord

/-! ## Ranges of ints -/

namespace TailShape

variable {M : Model} {shape : TailShape} {length index : Int32}

theorem allowsWord_iff :
    shape.AllowsWord length index ↔ shape.firstWord ≤ index ∧ index ≤ shape.lastWord length := by
  rw [Int32.le_iff_toInt_le, Int32.le_iff_toInt_le, AllowsWord]

/-- A word that may be used lies in the tail. -/
theorem TameAt.lt_of_allowsWord (tame : shape.TameAt M length)
    (allowed : shape.AllowsWord length index) : 0 ≤ index.toInt ∧ index.toInt < length.toInt := by
  have first := tame.first_nonneg
  have last := tame.last_lt
  obtain ⟨lower, upper⟩ := allowed
  omega

/-- An int that may be used lies in the tail. -/
theorem TameAt.lt_of_allowsInt (tame : shape.TameAt M length)
    (allowed : shape.AllowsInt M length index) :
    0 ≤ index.toInt ∧ index.toInt < length.toInt * M.intsPerWord := by
  have first := tame.first_nonneg
  have last := tame.last_lt
  obtain ⟨lower, upper⟩ := allowed
  rcases M.intsPerWord_eq with ints | ints <;> rw [ints] at lower upper ⊢ <;> omega

/-- The first int of a word that is not negative overflows exactly if it is too large. -/
theorem firstIntOfWord_cases {word : Int32} (nonneg : 0 ≤ word.toInt) :
    (∃ first, firstIntOfWord M word = .ok first ∧ word.toInt * M.intsPerWord < 2 ^ 31) ∨
      (firstIntOfWord M word = .error .overflow ∧ 2 ^ 31 ≤ word.toInt * M.intsPerWord) := by
  have positive := mul_nonneg nonneg (Int.natCast_nonneg M.intsPerWord)
  rw [firstIntOfWord]
  rcases exactIndex_cases (word.toInt * M.intsPerWord) with
    ⟨first, first_eq, value⟩ | ⟨overflow, outside⟩
  · have bound := Int32.toInt_lt first
    exact .inl ⟨first, first_eq, by omega⟩
  · exact .inr ⟨overflow, by omega⟩

/-- The last int of a word overflows exactly if the number of the ints up to it is too large for
an int, even if the last int itself is not. -/
theorem lastIntOfWord_cases {word : Int32} (nonneg : -1 ≤ word.toInt) :
    (∃ last, lastIntOfWord M word = .ok last ∧ (word.toInt + 1) * M.intsPerWord < 2 ^ 31) ∨
      (lastIntOfWord M word = .error .overflow ∧ 2 ^ 31 ≤ (word.toInt + 1) * M.intsPerWord) := by
  have positive : 0 ≤ (word.toInt + 1) * M.intsPerWord :=
    mul_nonneg (by omega) (Int.natCast_nonneg M.intsPerWord)
  rw [lastIntOfWord]
  rcases exactIndex_cases (word.toInt + 1) with ⟨next, next_eq, next_value⟩ | ⟨overflow, outside⟩
  · rw [next_eq]
    change (∃ last, (exactIndex (next.toInt * M.intsPerWord) >>= fun stop =>
      exactIndex (stop.toInt - 1)) = .ok last ∧ _) ∨
      ((exactIndex (next.toInt * M.intsPerWord) >>= fun stop =>
        exactIndex (stop.toInt - 1)) = .error .overflow ∧ _)
    rw [next_value]
    rcases exactIndex_cases ((word.toInt + 1) * M.intsPerWord) with
      ⟨stop, stop_eq, stop_value⟩ | ⟨overflow, outside⟩
    · have bound := Int32.toInt_lt stop
      obtain ⟨last, last_eq, -⟩ := toInt_exactIndex (n := stop.toInt - 1) (by omega) (by omega)
      rw [stop_eq]
      exact .inl ⟨last, last_eq, by omega⟩
    · rw [overflow]
      exact .inr ⟨rfl, by omega⟩
  · right
    rw [overflow]
    refine ⟨rfl, ?_⟩
    rcases M.intsPerWord_eq with ints | ints <;> rw [ints] <;> omega

theorem toInt_lastIntOfWord {word last : Int32} (last_eq : lastIntOfWord M word = .ok last) :
    last.toInt = (word.toInt + 1) * M.intsPerWord - 1 := by
  rw [lastIntOfWord] at last_eq
  obtain ⟨next, next_eq, rest_eq⟩ := exists_of_bind_eq_ok last_eq
  obtain ⟨stop, stop_eq, last_eq⟩ := exists_of_bind_eq_ok rest_eq
  rw [toInt_of_exactIndex last_eq, toInt_of_exactIndex stop_eq, toInt_of_exactIndex next_eq]

/-- Bounds of the ints that have been computed are those of the words. -/
theorem allowsInt_iff_of_bounds {first last : Int32}
    (first_eq : firstIntOfWord M shape.firstWord = .ok first)
    (last_eq : lastIntOfWord M (shape.lastWord length) = .ok last) :
    shape.AllowsInt M length index ↔ first.toInt ≤ index.toInt ∧ index.toInt ≤ last.toInt := by
  rw [AllowsInt, toInt_of_exactIndex first_eq, toInt_lastIntOfWord last_eq, Int.le_sub_one_iff]

/-- The bounds of the ints are computed without overflow if there is an int that may be
used. -/
theorem TameAt.bounds_of_allowsInt (tame : shape.TameAt M length)
    (small : length.toInt < 2 ^ 30) (allowed : shape.AllowsInt M length index) :
    ∃ first last, shape.firstInt = .ok first ∧ shape.lastInt length = .ok last := by
  have first_nonneg := tame.first_nonneg
  have last_lt := tame.last_lt
  have bound : index.toInt < 2 ^ 31 := Int32.toInt_lt index
  obtain ⟨lower, upper⟩ := allowed
  have last_nonneg : -1 ≤ (shape.lastWord length).toInt := by
    rcases M.intsPerWord_eq with ints | ints <;> rw [ints] at lower upper <;> omega
  rw [tame.firstInt_eq, tame.lastInt_eq]
  rcases firstIntOfWord_cases (M := M) first_nonneg with ⟨first, first_eq, -⟩ | ⟨-, large⟩
  · rcases lastIntOfWord_cases (M := M) last_nonneg with ⟨last, last_eq, -⟩ | ⟨-, large⟩
    · exact ⟨first, last, first_eq, last_eq⟩
    · rcases M.intsPerWord_eq with ints | ints <;> rw [ints] at large <;> omega
  · exact absurd (lower.trans_lt bound) (Int.not_lt.2 large)

end TailShape

/-! ## Checks -/

namespace Hybrid

variable {M : Model} {φ η : Type} {h : Hybrid M φ} {origin : Reference M} {heap rest : η}
  {length : Int32}

theorem expandedOrigin_of_expanded (expanded : h.origin = some origin) :
    h.expandedOrigin heap = .ok origin heap := by
  rw [expandedOrigin, expanded]
  rfl

theorem length_of_expanded [TailHeap M η] (expanded : h.origin = some origin)
    (held : TailHeap.length origin heap = .ok length rest) :
    h.length heap = .ok length rest :=
  (Access.bind_of_ok (expandedOrigin_of_expanded expanded)).trans held

theorem firstWord_of_expanded [TailFields M φ] (expanded : h.origin = some origin) :
    h.firstWord heap = .ok h.shape.firstWord heap :=
  Access.bind_of_ok (expandedOrigin_of_expanded expanded)

theorem firstInt_of_expanded [TailFields M φ] (expanded : h.origin = some origin) :
    h.firstInt heap = Access.query (fun _ => h.shape.firstInt) heap :=
  Access.bind_of_ok (expandedOrigin_of_expanded expanded)

variable [TailFields M φ] [TailHeap M η]

theorem lastWord_of_expanded (expanded : h.origin = some origin)
    (held : TailHeap.length origin heap = .ok length rest) :
    h.lastWord heap = .ok (h.shape.lastWord length) rest :=
  Access.bind_of_ok (length_of_expanded expanded held)

theorem lastInt_of_expanded (expanded : h.origin = some origin)
    (held : TailHeap.length origin heap = .ok length rest) :
    h.lastInt heap = Access.query (fun _ => h.shape.lastInt length) rest :=
  Access.bind_of_ok (length_of_expanded expanded held)

section Bounds

variable {first last : Int32} (expanded : h.origin = some origin) (index : Int32)

include expanded

/-- The check of a word compares it with the first and the last word. -/
theorem checkWord_eq (first_eq : h.firstWord heap = .ok first heap)
    (last_eq : h.lastWord heap = .ok last rest) :
    h.checkWord index heap =
      (if first ≤ index ∧ index ≤ last then pure origin
        else .fail (.wordIndex index.toInt first.toInt last.toInt) :
          Access η (Reference M)) rest :=
  (Access.bind_of_ok (expandedOrigin_of_expanded expanded)).trans
    ((Access.bind_of_ok first_eq).trans (Access.bind_of_ok last_eq))

/-- The check of an int compares it with the first and the last int. -/
theorem checkInt_eq (first_eq : h.firstInt heap = .ok first heap)
    (last_eq : h.lastInt heap = .ok last rest) :
    h.checkInt index heap =
      (if first ≤ index ∧ index ≤ last then pure origin
        else .fail (.intIndex index.toInt first.toInt last.toInt) :
          Access η (Reference M)) rest :=
  (Access.bind_of_ok (expandedOrigin_of_expanded expanded)).trans
    ((Access.bind_of_ok first_eq).trans (Access.bind_of_ok last_eq))

end Bounds

/-- The check of a word passes exactly if the word may be used. -/
theorem checkWord_cases (expanded : h.origin = some origin)
    (held : TailHeap.length origin heap = .ok length rest) (index : Int32) :
    (h.shape.AllowsWord length index ∧ h.checkWord index heap = .ok origin rest) ∨
      (¬ h.shape.AllowsWord length index ∧ h.checkWord index heap =
        .error (.wordIndex index.toInt h.shape.firstWord.toInt
          (h.shape.lastWord length).toInt) rest) := by
  have first_eq : h.firstWord heap = .ok h.shape.firstWord heap := firstWord_of_expanded expanded
  have checked := checkWord_eq expanded index first_eq (lastWord_of_expanded expanded held)
  by_cases allowed : h.shape.AllowsWord length index
  · rw [if_pos (TailShape.allowsWord_iff.1 allowed)] at checked
    exact .inl ⟨allowed, checked⟩
  · rw [if_neg (mt TailShape.allowsWord_iff.2 allowed)] at checked
    exact .inr ⟨allowed, checked⟩

/-- The check of an int, for bounds that are computed without overflow. -/
theorem checkInt_of_bounds {first last : Int32} (expanded : h.origin = some origin)
    (held : TailHeap.length origin heap = .ok length rest)
    (first_eq : h.shape.firstInt = .ok first) (last_eq : h.shape.lastInt length = .ok last)
    (index : Int32) :
    h.checkInt index heap =
      (if first ≤ index ∧ index ≤ last then pure origin
        else .fail (.intIndex index.toInt first.toInt last.toInt) :
          Access η (Reference M)) rest := by
  have found : h.firstInt heap = .ok first heap := by
    rw [firstInt_of_expanded expanded, Access.query, first_eq]
  have found' : h.lastInt heap = .ok last rest := by
    rw [lastInt_of_expanded expanded held, Access.query, last_eq]
  exact checkInt_eq expanded index found found'

section Failing

variable {fault : Fault} (expanded : h.origin = some origin) (index : Int32)

include expanded

/-- The check of an int fails before the heap is asked if the first int cannot be computed. -/
theorem checkInt_of_firstInt_error (first_eq : h.shape.firstInt = .error fault) :
    h.checkInt index heap = .error fault heap := by
  have failed : h.firstInt heap = .error fault heap := by
    rw [firstInt_of_expanded expanded, Access.query, first_eq]
  exact (Access.bind_of_ok (expandedOrigin_of_expanded expanded)).trans
    (Access.bind_of_error failed)

/-- The check of an int fails if the last int cannot be computed. -/
theorem checkInt_of_lastInt_error {first : Int32}
    (held : TailHeap.length origin heap = .ok length rest)
    (first_eq : h.shape.firstInt = .ok first) (last_eq : h.shape.lastInt length = .error fault) :
    h.checkInt index heap = .error fault rest := by
  have found : h.firstInt heap = .ok first heap := by
    rw [firstInt_of_expanded expanded, Access.query, first_eq]
  have failed : h.lastInt heap = .error fault rest := by
    rw [lastInt_of_expanded expanded held, Access.query, last_eq]
  exact (Access.bind_of_ok (expandedOrigin_of_expanded expanded)).trans
    ((Access.bind_of_ok found).trans (Access.bind_of_error failed))

end Failing

/-- The check of an int fails if one of the bounds overflows. -/
theorem checkInt_of_overflow (expanded : h.origin = some origin)
    (held : TailHeap.length origin heap = .ok length heap)
    (overflow : ∀ first last, h.shape.firstInt = .ok first →
      h.shape.lastInt length ≠ .ok last) (index : Int32) :
    ∃ fault, h.checkInt index heap = .error fault heap := by
  cases first_eq : h.shape.firstInt with
  | error fault => exact ⟨fault, checkInt_of_firstInt_error expanded index first_eq⟩
  | ok first =>
      cases last_eq : h.shape.lastInt length with
      | error fault => exact ⟨fault, checkInt_of_lastInt_error expanded index held first_eq last_eq⟩
      | ok last => exact absurd last_eq (overflow first last first_eq)

/-- The check of an int passes exactly if the int lies in a word that may be used, for bounds that
are those of the words and are computed without overflow. -/
theorem checkInt_cases_of_bounds {first last : Int32}
    (firstInt_eq : h.shape.firstInt = TailShape.firstIntOfWord M h.shape.firstWord)
    (lastInt_eq : h.shape.lastInt length = TailShape.lastIntOfWord M (h.shape.lastWord length))
    (expanded : h.origin = some origin) (held : TailHeap.length origin heap = .ok length rest)
    (first_eq : h.shape.firstInt = .ok first) (last_eq : h.shape.lastInt length = .ok last)
    (index : Int32) :
    (h.shape.AllowsInt M length index ∧ h.checkInt index heap = .ok origin rest) ∨
      (¬ h.shape.AllowsInt M length index ∧ h.checkInt index heap =
        .error (.intIndex index.toInt first.toInt last.toInt) rest) := by
  have checked := checkInt_of_bounds expanded held first_eq last_eq index
  have same : first ≤ index ∧ index ≤ last ↔ h.shape.AllowsInt M length index := by
    rw [Int32.le_iff_toInt_le, Int32.le_iff_toInt_le]
    exact (TailShape.allowsInt_iff_of_bounds (firstInt_eq.symm.trans first_eq)
      (lastInt_eq.symm.trans last_eq)).symm
  by_cases allowed : h.shape.AllowsInt M length index
  · rw [if_pos (same.2 allowed)] at checked
    exact .inl ⟨allowed, checked⟩
  · rw [if_neg (mt same.1 allowed)] at checked
    exact .inr ⟨allowed, checked⟩

/-- The check of an int passes exactly if the int lies in a word that may be used. -/
theorem checkInt_cases (tame : h.shape.TameAt M length)
    (small : length.toInt < 2 ^ 30) (expanded : h.origin = some origin)
    (held : TailHeap.length origin heap = .ok length heap) (index : Int32) :
    (h.shape.AllowsInt M length index ∧ h.checkInt index heap = .ok origin heap) ∨
      (¬ h.shape.AllowsInt M length index ∧
        ∃ fault, h.checkInt index heap = .error fault heap) := by
  by_cases bounds : ∃ first last, h.shape.firstInt = .ok first ∧ h.shape.lastInt length = .ok last
  · obtain ⟨first, last, first_eq, last_eq⟩ := bounds
    rcases checkInt_cases_of_bounds tame.firstInt_eq tame.lastInt_eq expanded held first_eq last_eq
      index with accepted | ⟨refused, failed⟩
    · exact .inl accepted
    · exact .inr ⟨refused, _, failed⟩
  · right
    refine ⟨fun allowed => bounds (tame.bounds_of_allowsInt small allowed), ?_⟩
    refine checkInt_of_overflow expanded held ?_ index
    intro first last first_eq last_eq
    exact bounds ⟨first, last, first_eq, last_eq⟩

/-! ## Accesses that only read -/

section Reads

variable {M : Model} {φ α : Type} (h : Hybrid M φ) (index : Int32)

theorem reads_inRegion {access : Access Region α} (reads : access.Reads) :
    (BumpHeap.inRegion access).Reads := by
  intro heap
  rcases reads.cases heap.region with ⟨a, done⟩ | ⟨fault, failed⟩
  · rw [Access.after, BumpHeap.inRegion, done]
  · rw [Access.after, BumpHeap.inRegion, failed]

theorem reads_expandedOrigin : (h.expandedOrigin : Access BumpHeap _).Reads := by
  rw [expandedOrigin]
  split
  · exact .pure _
  · exact .fail _

theorem reads_length : (h.length : Access BumpHeap _).Reads :=
  .bind h.reads_expandedOrigin fun _ => .bind (reads_inRegion (.query _)) fun _ => .pure _

variable [TailFields M φ]

theorem reads_firstWord : (h.firstWord : Access BumpHeap _).Reads :=
  .bind h.reads_expandedOrigin fun _ => .pure _

theorem reads_lastWord : (h.lastWord : Access BumpHeap _).Reads :=
  .bind h.reads_length fun _ => .pure _

theorem reads_firstInt : (h.firstInt : Access BumpHeap _).Reads :=
  .bind h.reads_expandedOrigin fun _ => .query _

theorem reads_lastInt : (h.lastInt : Access BumpHeap _).Reads :=
  .bind h.reads_length fun _ => .query _

theorem reads_checkWord : (h.checkWord index : Access BumpHeap _).Reads :=
  .bind h.reads_expandedOrigin fun _ => .bind h.reads_firstWord fun _ =>
    .bind h.reads_lastWord fun _ => .ite (.pure _) (.fail _)

theorem reads_checkInt : (h.checkInt index : Access BumpHeap _).Reads :=
  .bind h.reads_expandedOrigin fun _ => .bind h.reads_firstInt fun _ =>
    .bind h.reads_lastInt fun _ => .ite (.pure _) (.fail _)

theorem reads_getWord : (h.getWord index : Access BumpHeap _).Reads :=
  .bind (h.reads_checkWord index) fun _ => reads_inRegion (.query _)

theorem reads_getInt : (h.getInt index : Access BumpHeap _).Reads :=
  .bind (h.reads_checkInt index) fun _ => reads_inRegion (.query _)

theorem reads_tailLines (first : Int) (count : Nat) :
    (h.tailLines first count : Access BumpHeap _).Reads := by
  induction count generalizing first with
  | zero => exact .pure _
  | succ count ih =>
      exact .bind (h.reads_getWord _) fun _ => .bind (ih _) fun _ => .pure _

theorem reads_dumpTail : (h.dumpTail : Access BumpHeap _).Reads :=
  .bind h.reads_firstWord fun _ => .bind h.reads_lastWord fun _ =>
    .bind (h.reads_tailLines _ _) fun _ => .pure _

end Reads

end Hybrid

end MachineWord
