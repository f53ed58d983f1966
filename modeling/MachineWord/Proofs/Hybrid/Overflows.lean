import Mathlib
import MachineWord.Proofs.Hybrid.Ranges

/-!
# Int views of long tails

A hybrid accepts every length that is not negative, but the bounds of its ints are computed in
ints, and the number of all ints of the tail is computed on the way. So the last int overflows as
soon as this number is too large, even if the last int itself would not: in words with two ints
from two to the thirtieth words on (`two_pow_le_ints_iff`). From then on no int of the tail is
served, whichever it is, while the words are served as ever (`int_view_iff_few_ints`).
-/

set_option autoImplicit false

namespace MachineWord

namespace TailShape

variable {M : Model} {shape : TailShape} {length : Int32}

/-- A shape whose words are those of the tail from some word on, and whose ints are those of its
words. -/
structure ReachesEnd (M : Model) (shape : TailShape) (length : Int32) : Prop where
  byWords : shape.ByWords M
  first_nonneg : 0 ≤ shape.firstWord.toInt
  first_le : shape.firstWord.toInt ≤ length.toInt
  lastWord_eq : (shape.lastWord length).toInt = length.toInt - 1

theorem two_pow_le_ints_iff (M : Model) (length : Int32) :
    2 ^ 31 ≤ length.toInt * M.intsPerWord ↔ M.size = .w64 ∧ 2 ^ 30 ≤ length.toInt := by
  have bound := Int32.toInt_lt length
  cases size : M.size with
  | w32 =>
      simp only [Model.intsPerWord, Model.bytes, size, WordSize.bytes, reduceCtorEq, false_and,
        iff_false, Int.not_le]
      omega
  | w64 =>
      simp only [Model.intsPerWord, Model.bytes, size, WordSize.bytes, true_and]
      omega

namespace ReachesEnd

variable (reaches : shape.ReachesEnd M length)

include reaches

/-- The first int is computed unless it is too large itself. -/
theorem firstInt_cases :
    (∃ first, shape.firstInt = .ok first ∧
        first.toInt = shape.firstWord.toInt * M.intsPerWord ∧
        shape.firstWord.toInt * M.intsPerWord < 2 ^ 31) ∨
      (shape.firstInt = .error .overflow ∧ 2 ^ 31 ≤ shape.firstWord.toInt * M.intsPerWord) := by
  rw [reaches.byWords.firstInt_eq]
  rcases firstIntOfWord_cases (M := M) reaches.first_nonneg with ⟨first, first_eq, small⟩ | overflow
  · exact .inl ⟨first, first_eq, toInt_of_exactIndex first_eq, small⟩
  · exact .inr overflow

/-- The last int is computed unless the ints of the tail are too many. -/
theorem lastInt_cases :
    (∃ last, shape.lastInt length = .ok last ∧ last.toInt = length.toInt * M.intsPerWord - 1 ∧
        length.toInt * M.intsPerWord < 2 ^ 31) ∨
      (shape.lastInt length = .error .overflow ∧ 2 ^ 31 ≤ length.toInt * M.intsPerWord) := by
  have next : (shape.lastWord length).toInt + 1 = length.toInt := by
    rw [reaches.lastWord_eq, Int.sub_add_cancel]
  have nonneg : -1 ≤ (shape.lastWord length).toInt := by
    have lower := reaches.first_nonneg.trans reaches.first_le
    omega
  rw [reaches.byWords.lastInt_eq, ← next]
  rcases lastIntOfWord_cases (M := M) nonneg with ⟨last, last_eq, few⟩ | overflow
  · exact .inl ⟨last, last_eq, toInt_lastIntOfWord last_eq, few⟩
  · exact .inr overflow

/-- The bounds of few ints are computed. -/
theorem bounds_of_few (few : length.toInt * M.intsPerWord < 2 ^ 31) :
    ∃ first last, shape.firstInt = .ok first ∧ shape.lastInt length = .ok last ∧
      first.toInt = shape.firstWord.toInt * M.intsPerWord ∧
      last.toInt = length.toInt * M.intsPerWord - 1 := by
  have monotone := mul_le_mul_of_nonneg_right reaches.first_le (Int.natCast_nonneg M.intsPerWord)
  obtain ⟨first, first_eq, first_value, -⟩ :=
    reaches.firstInt_cases.resolve_right fun ⟨_, large⟩ => by omega
  obtain ⟨last, last_eq, last_value, -⟩ :=
    reaches.lastInt_cases.resolve_right fun ⟨_, many⟩ => by omega
  exact ⟨first, last, first_eq, last_eq, first_value, last_value⟩

/-- The last of many ints overflows. -/
theorem lastInt_of_many (many : 2 ^ 31 ≤ length.toInt * M.intsPerWord) :
    shape.lastInt length = .error .overflow := by
  obtain ⟨overflow, -⟩ := reaches.lastInt_cases.resolve_left fun ⟨_, _, _, few⟩ => by omega
  exact overflow

end ReachesEnd

end TailShape

/-! ## Int views -/

namespace Hybrid

variable {M : Model} {φ η : Type} [TailFields M φ] [TailHeap M η] {h : Hybrid M φ}
  {origin : Reference M} {heap rest : η} {length : Int32}

/-- The bounds of the ints are answered, and each int is served or refused with them. -/
def HasIntView (h : Hybrid M φ) (origin : Reference M) (length : Int32) (heap rest : η) : Prop :=
  ∃ first last, h.Reports length first last heap rest ∧
    first.toInt = h.shape.firstWord.toInt * M.intsPerWord ∧
    last.toInt = length.toInt * M.intsPerWord - 1 ∧
    ∀ int, ((first ≤ int ∧ int ≤ last) ∧ h.ServesInt origin int heap rest) ∨
      (¬ (first ≤ int ∧ int ≤ last) ∧
        h.RefusesInt (.intIndex int.toInt first.toInt last.toInt) int heap rest)

/-- The last int overflows, and so does each access to an int. The first int overflows if it is
too large itself. -/
structure IntViewOverflows (h : Hybrid M φ) (heap rest : η) : Prop where
  firstInt :
    (∃ first, h.firstInt heap = .ok first heap ∧
        h.shape.firstWord.toInt * M.intsPerWord < 2 ^ 31) ∨
      (h.firstInt heap = .error .overflow heap ∧
        2 ^ 31 ≤ h.shape.firstWord.toInt * M.intsPerWord)
  lastInt : h.lastInt heap = .error .overflow rest
  accesses (int : Int32) :
    h.RefusesInt .overflow int heap heap ∨ h.RefusesInt .overflow int heap rest

/-- Each word is served or refused with the bounds of the words. -/
theorem word_cases (expanded : h.origin = some origin)
    (held : TailHeap.length origin heap = .ok length rest) (word : Int32) :
    (h.shape.AllowsWord length word ∧ h.ServesWord origin word heap rest) ∨
      (¬ h.shape.AllowsWord length word ∧ h.RefusesWord (.wordIndex word.toInt
        h.shape.firstWord.toInt (h.shape.lastWord length).toInt) word heap rest) := by
  rcases checkWord_cases expanded held word with ⟨allowed, checked⟩ | ⟨refused, checked⟩
  · exact .inl ⟨allowed, .of_check checked⟩
  · exact .inr ⟨refused, .of_check checked⟩

section Tail

variable (expanded : h.origin = some origin)
  (held : TailHeap.length origin heap = .ok length rest) (reaches : h.shape.ReachesEnd M length)

include expanded held reaches

theorem hasIntView_of_few (few : length.toInt * M.intsPerWord < 2 ^ 31) :
    h.HasIntView origin length heap rest := by
  obtain ⟨first, last, first_eq, last_eq, first_value, last_value⟩ := reaches.bounds_of_few few
  refine ⟨first, last, reports_of_bounds expanded held first_eq last_eq, first_value, last_value,
    fun int => ?_⟩
  rcases accesses_of_byWords expanded held first_eq last_eq reaches.byWords int with
    ⟨inside, served, -⟩ | ⟨outside, refused, -⟩
  · exact .inl ⟨inside, served⟩
  · exact .inr ⟨outside, refused⟩

theorem intViewOverflows_of_many (many : 2 ^ 31 ≤ length.toInt * M.intsPerWord) :
    h.IntViewOverflows heap rest := by
  have last_eq := reaches.lastInt_of_many many
  have lastInt : h.lastInt heap = .error .overflow rest := by
    rw [lastInt_of_expanded expanded held, Access.query, last_eq]
  have firstInt : h.firstInt heap = Access.query (fun _ => h.shape.firstInt) heap :=
    firstInt_of_expanded expanded
  rw [Access.query] at firstInt
  rcases reaches.firstInt_cases with ⟨first, first_eq, -, small⟩ | ⟨first_eq, large⟩
  · rw [first_eq] at firstInt
    exact ⟨.inl ⟨first, firstInt, small⟩, lastInt, fun int =>
      .inr (.of_check (checkInt_of_lastInt_error expanded int held first_eq last_eq))⟩
  · rw [first_eq] at firstInt
    exact ⟨.inr ⟨firstInt, large⟩, lastInt, fun int =>
      .inl (.of_check (checkInt_of_firstInt_error expanded int first_eq))⟩

end Tail

/-- **Int views overflow for many ints only.** Take an expanded hybrid whose heap answers a length,
and whose words are those of the tail from some word on. If the ints of the tail are fewer than two
to the thirty-first, the bounds of the ints are answered and each int is served or refused with
them. Otherwise the last int overflows, and with it each access to an int, whatever its index. That
happens in words of 64 bits for lengths from two to the thirtieth on, and for no other lengths. The
words are served or refused with their bounds for all lengths. -/
theorem int_view_iff_few_ints (expanded : h.origin = some origin)
    (held : TailHeap.length origin heap = .ok length rest)
    (reaches : h.shape.ReachesEnd M length) :
    (length.toInt * M.intsPerWord < 2 ^ 31 → h.HasIntView origin length heap rest) ∧
    (2 ^ 31 ≤ length.toInt * M.intsPerWord → h.IntViewOverflows heap rest) ∧
    (2 ^ 31 ≤ length.toInt * M.intsPerWord ↔ M.size = .w64 ∧ 2 ^ 30 ≤ length.toInt) ∧
    ∀ word, (h.shape.AllowsWord length word ∧ h.ServesWord origin word heap rest) ∨
      (¬ h.shape.AllowsWord length word ∧ h.RefusesWord (.wordIndex word.toInt
        h.shape.firstWord.toInt (h.shape.lastWord length).toInt) word heap rest) :=
  ⟨hasIntView_of_few expanded held reaches, intViewOverflows_of_many expanded held reaches,
    TailShape.two_pow_le_ints_iff M length, word_cases expanded held⟩

open HybridStore (Step)

/-- A tail of one word, with a number in the place of its length. -/
def relabelled (pattern : BitVec 64) : List (Step NumberedFields) :=
  [.new ⟨1, ⟨0, -1, none⟩⟩, .use 0 (.expand 1), .poke 0x1000 pattern]

/-- A length just below two to the thirtieth, and two to the thirtieth itself. -/
theorem int_view_iff_few_ints_of_limits :
    let h : Hybrid .target64 NumberedFields := ⟨⟨1, ⟨0, -1, none⟩⟩, some (.ofBits 0x1000)⟩
    ∃ region, Region.zeros 0x1000 16 .little = .ok region ∧
      let store (pattern : BitVec 64) :=
        ((HybridStore.empty region : HybridStore .target64 NumberedFields).run
          (relabelled pattern)).2
      h.HasIntView (.ofBits 0x1000) 0x3fffffff (store 0x3fffffff).heap (store 0x3fffffff).heap ∧
      h.IntViewOverflows (store 0x40000000).heap (store 0x40000000).heap := by
  intro h
  refine ⟨_, rfl, ?_⟩
  intro store
  have byWords : h.shape.ByWords .target64 := TailShape.byWords_ofWords _ _ _
  have held (pattern : BitVec 64) (length : Int32)
      (answered : (TailHeap.length (.ofBits 0x1000 : Reference .target64)).answer
        (store pattern).heap = .ok length) :
      TailHeap.length (.ofBits 0x1000 : Reference .target64) (store pattern).heap =
        .ok length (store pattern).heap := BumpHeap.length_of_answer answered
  obtain ⟨few, -⟩ := int_view_iff_few_ints rfl (held 0x3fffffff 0x3fffffff (by decide +kernel))
    (show h.shape.ReachesEnd .target64 0x3fffffff from ⟨byWords, by decide, by decide, by decide⟩)
  obtain ⟨-, many, -⟩ := int_view_iff_few_ints rfl (held 0x40000000 0x40000000 (by decide +kernel))
    (show h.shape.ReachesEnd .target64 0x40000000 from ⟨byWords, by decide, by decide, by decide⟩)
  exact ⟨few (by decide), many (by decide)⟩

/-- Not every int is served or refused with the bounds: the first int of a tail that is said to
have two to the thirtieth words overflows, while its first word is served. -/
theorem first_int_overflows_in_long_tail :
    let h : Hybrid .target64 NumberedFields := ⟨⟨1, ⟨0, -1, none⟩⟩, some (.ofBits 0x1000)⟩
    ∃ region, Region.zeros 0x1000 16 .little = .ok region ∧
      let store := ((HybridStore.empty region : HybridStore .target64 NumberedFields).run
        (relabelled 0x40000000)).2
      store.hybrids[1]? = some h ∧ h.shape.ReachesEnd .target64 0x40000000 ∧
      (h.length).answer store.heap = .ok 0x40000000 ∧
      (store.step (.use 1 (.getInt 0))).1 = .error (.fault .overflow) ∧
      (h.getWord 0).answer store.heap = .ok (.ofBits 0) := by
  intro h
  refine ⟨_, rfl, ?_⟩
  intro store
  exact ⟨by with_unfolding_all rfl,
    ⟨TailShape.byWords_ofWords _ _ _, by decide, by decide, by decide⟩, by decide +kernel,
    by decide +kernel, by decide +kernel⟩

end Hybrid

end MachineWord
