import Mathlib
import MachineWord.Proofs.Hybrid.Origins

/-!
# Ranges of words and of ints

The default range of the ints of a tail is that of its words, in a finer unit: an int may be used
exactly if the word in which it lies may be used, also where a range is empty. So a hybrid passes
an int on to its heap exactly if it passes on its word, and what it refuses, it refuses with the
bounds of the range (`int_range_covers_words`). The tails of a bump heap start at whole words, so
the bytes of an int are some of those of its word, even where addresses run beyond the last one.
-/

set_option autoImplicit false

namespace MachineWord

namespace TailShape

variable {M : Model} {shape : TailShape} {length : Int32}

/-- A shape whose ints are those of its words. -/
structure ByWords (M : Model) (shape : TailShape) : Prop where
  firstInt_eq : shape.firstInt = firstIntOfWord M shape.firstWord
  lastInt_eq (length : Int32) : shape.lastInt length = lastIntOfWord M (shape.lastWord length)

theorem byWords_ofWords (M : Model) (firstWord : Int32) (lastWord : Int32 → Int32) :
    (ofWords M firstWord lastWord).ByWords M :=
  ⟨rfl, fun _ => rfl⟩

/-! ## Sizes of ranges -/

theorem ncard_range (first last : Int32) :
    {i : Int32 | first ≤ i ∧ i ≤ last}.ncard = (last.toInt + 1 - first.toInt).toNat := by
  have injective : Function.Injective Int32.toInt := fun _ _ same => Int32.toInt_inj.1 same
  have image : Int32.toInt '' {i : Int32 | first ≤ i ∧ i ≤ last} =
      Finset.Icc first.toInt last.toInt := by
    ext n
    simp only [Set.mem_image, Set.mem_ofPred_eq, Finset.coe_Icc, Set.mem_Icc]
    constructor
    · rintro ⟨i, ⟨lower, upper⟩, rfl⟩
      exact ⟨Int32.le_iff_toInt_le.1 lower, Int32.le_iff_toInt_le.1 upper⟩
    · rintro ⟨lower, upper⟩
      have least := Int32.le_toInt first
      have greatest := Int32.toInt_lt last
      have value : (Int32.ofInt n).toInt = n :=
        Int32.toInt_ofInt_of_le (least.trans lower) (upper.trans_lt greatest)
      refine ⟨Int32.ofInt n, ⟨?_, ?_⟩, value⟩ <;> rwa [Int32.le_iff_toInt_le, value]
  rw [← Set.ncard_image_of_injective _ injective, image, Set.ncard_coe_finset, Int.card_Icc]

section Bounds

variable {first last : Int32} (byWords : shape.ByWords M) (first_eq : shape.firstInt = .ok first)
  (last_eq : shape.lastInt length = .ok last)

include byWords first_eq last_eq

/-- An int lies in the range exactly if its word does. -/
theorem ByWords.int_iff_word (int : Int32) :
    first ≤ int ∧ int ≤ last ↔ shape.AllowsWord length (M.wordOfInt int) := by
  rw [Int32.le_iff_toInt_le, Int32.le_iff_toInt_le, ← allowsInt_iff_allowsWord]
  exact (allowsInt_iff_of_bounds (byWords.firstInt_eq.symm.trans first_eq)
    ((byWords.lastInt_eq length).symm.trans last_eq)).symm

/-- There are as many ints as the words in the range have. -/
theorem ByWords.ncard_ints :
    {j : Int32 | first ≤ j ∧ j ≤ last}.ncard =
      M.intsPerWord * {i | shape.firstWord ≤ i ∧ i ≤ shape.lastWord length}.ncard := by
  rw [ncard_range, ncard_range,
    toInt_of_exactIndex (byWords.firstInt_eq.symm.trans first_eq),
    toInt_lastIntOfWord ((byWords.lastInt_eq length).symm.trans last_eq)]
  rcases M.intsPerWord_eq with ints | ints <;> rw [ints] <;> omega

end Bounds

end TailShape

/-! ## Accesses to a word and to an int -/

namespace Hybrid

variable {M : Model} {φ η : Type} [TailFields M φ] [TailHeap M η] {h : Hybrid M φ}
  {origin : Reference M} {heap rest : η} {index : Int32} {fault : Fault}

/-- Both accesses to a word are those of the heap. -/
structure ServesWord (h : Hybrid M φ) (origin : Reference M) (index : Int32) (heap rest : η) :
    Prop where
  getWord : h.getWord index heap = TailHeap.getWord origin index rest
  setWord (x : Word M) : h.setWord index x heap = TailHeap.setWord origin index x rest

/-- Both accesses to a word fail in the same way. -/
structure RefusesWord (h : Hybrid M φ) (fault : Fault) (index : Int32) (heap rest : η) :
    Prop where
  getWord : h.getWord index heap = .error fault rest
  setWord (x : Word M) : h.setWord index x heap = .error fault rest

/-- Both accesses to an int are those of the heap. -/
structure ServesInt (h : Hybrid M φ) (origin : Reference M) (index : Int32) (heap rest : η) :
    Prop where
  getInt : h.getInt index heap = TailHeap.getInt origin index rest
  setInt (n : Int32) : h.setInt index n heap = TailHeap.setInt origin index n rest

/-- Both accesses to an int fail in the same way. -/
structure RefusesInt (h : Hybrid M φ) (fault : Fault) (index : Int32) (heap rest : η) :
    Prop where
  getInt : h.getInt index heap = .error fault rest
  setInt (n : Int32) : h.setInt index n heap = .error fault rest

theorem ServesWord.of_check (checked : h.checkWord index heap = .ok origin rest) :
    h.ServesWord origin index heap rest :=
  ⟨Access.bind_of_ok checked, fun _ => Access.bind_of_ok checked⟩

theorem RefusesWord.of_check (checked : h.checkWord index heap = .error fault rest) :
    h.RefusesWord fault index heap rest :=
  ⟨Access.bind_of_error checked, fun _ => Access.bind_of_error checked⟩

theorem ServesInt.of_check (checked : h.checkInt index heap = .ok origin rest) :
    h.ServesInt origin index heap rest :=
  ⟨Access.bind_of_ok checked, fun _ => Access.bind_of_ok checked⟩

theorem RefusesInt.of_check (checked : h.checkInt index heap = .error fault rest) :
    h.RefusesInt fault index heap rest :=
  ⟨Access.bind_of_error checked, fun _ => Access.bind_of_error checked⟩

/-- The bounds that a hybrid answers for a tail with a number of words. -/
structure Reports (h : Hybrid M φ) (length first last : Int32) (heap rest : η) : Prop where
  firstWord : h.firstWord heap = .ok h.shape.firstWord heap
  lastWord : h.lastWord heap = .ok (h.shape.lastWord length) rest
  firstInt : h.firstInt heap = .ok first heap
  lastInt : h.lastInt heap = .ok last rest

section Tail

variable {length first last : Int32} (expanded : h.origin = some origin)
  (held : TailHeap.length origin heap = .ok length rest) (first_eq : h.shape.firstInt = .ok first)
  (last_eq : h.shape.lastInt length = .ok last)

include expanded held first_eq last_eq

theorem reports_of_bounds : h.Reports length first last heap rest where
  firstWord := firstWord_of_expanded expanded
  lastWord := lastWord_of_expanded expanded held
  firstInt := by rw [firstInt_of_expanded expanded, Access.query, first_eq]
  lastInt := by rw [lastInt_of_expanded expanded held, Access.query, last_eq]

/-- An int and its word are served or refused together. -/
theorem accesses_of_byWords (byWords : h.shape.ByWords M) (int : Int32) :
    ((first ≤ int ∧ int ≤ last) ∧ h.ServesInt origin int heap rest ∧
        h.ServesWord origin (M.wordOfInt int) heap rest) ∨
      (¬ (first ≤ int ∧ int ≤ last) ∧
        h.RefusesInt (.intIndex int.toInt first.toInt last.toInt) int heap rest ∧
        h.RefusesWord (.wordIndex (M.wordOfInt int).toInt h.shape.firstWord.toInt
          (h.shape.lastWord length).toInt) (M.wordOfInt int) heap rest) := by
  have checkedInt := checkInt_of_bounds expanded held first_eq last_eq int
  have same := byWords.int_iff_word first_eq last_eq int
  rcases checkWord_cases expanded held (M.wordOfInt int) with
    ⟨allowed, checkedWord⟩ | ⟨refused, checkedWord⟩
  · rw [if_pos (same.2 allowed)] at checkedInt
    exact .inl ⟨same.2 allowed, .of_check checkedInt, .of_check checkedWord⟩
  · rw [if_neg (mt same.1 refused)] at checkedInt
    exact .inr ⟨mt same.1 refused, .of_check checkedInt, .of_check checkedWord⟩

end Tail

end Hybrid

/-! ## Bytes of a word and of an int -/

namespace BumpHeap

open Pointer (scaled)

variable {M : Model}

/-- The addresses of the bytes of an element. -/
def bytesOf (s : Scalar) (origin : Reference M) (index : Int32) : Set Nat :=
  let start := ((tail origin).locate (scaled s (elements M) index)).toNat
  Set.Ico start (start + s.bytes M)

theorem bytes_dvd_locate_word {origin : Reference M} (aligned : IsAligned M origin.bits)
    (word : Int32) :
    M.bytes ∣ ((tail origin).locate (scaled .word (elements M) word)).toNat := by
  have space : (M.bytes : Int) ∣ ((2 ^ M.bits : Nat) : Int) :=
    Int.natCast_dvd_natCast.2 (bytes_dvd_two_pow_bits M)
  have start : (M.bytes : Int) ∣ origin.bits.toNat + (M.bytes + word.toInt * M.bytes) :=
    (Int.natCast_dvd_natCast.2 aligned).add ((dvd_refl _).add (dvd_mul_left _ _))
  rw [← Int.natCast_dvd_natCast, toNat_locate_element_emod, Scalar.bytes_word]
  push_cast at space
  exact (EuclideanDomain.dvd_mod_iff space).2 start

/-- In an aligned tail the bytes of an int are some of those of its word. -/
theorem bytesOf_int_subset {origin : Reference M} (aligned : IsAligned M origin.bits)
    (int : Int32) : bytesOf .int origin int ⊆ bytesOf .word origin (M.wordOfInt int) := by
  have start := bytes_dvd_locate_word aligned (M.wordOfInt int)
  have address : ((tail origin).locate (scaled .word (elements M) (M.wordOfInt int))).toNat <
      2 ^ M.bits := Value.toNat_bits_lt _
  have place := toNat_locate_int_mod origin int
  have number := M.numberOfInt_lt int
  have bytes := M.bytes_eq_intsPerWord
  rw [bytesOf, bytesOf, place, Scalar.bytes_word]
  generalize ((tail origin).locate (scaled .word (elements M) (M.wordOfInt int))).toNat = a at *
  -- A whole word at a multiple of its size does not run beyond the last address.
  have fits : a + M.bytes ≤ 2 ^ M.bits := by
    obtain ⟨words, rfl⟩ := start
    obtain ⟨space, space_eq⟩ := bytes_dvd_two_pow_bits M
    rw [space_eq] at address ⊢
    have below : words < space := Nat.lt_of_mul_lt_mul_left address
    calc M.bytes * words + M.bytes = M.bytes * (words + 1) := (Nat.mul_succ _ _).symm
      _ ≤ M.bytes * space := Nat.mul_le_mul_left _ below
  rw [Nat.mod_eq_of_lt (by omega)]
  apply Set.Ico_subset_Ico (Nat.le_add_right _ _)
  change a + 4 * M.numberOfInt int + 4 ≤ a + M.bytes
  omega

end BumpHeap

open HybridStore (Step)

variable {M : Model}

/-- **Int indices cover exactly the valid words.** Take a shape whose ints are those of its words
and a length for which the bounds of the ints are computed without overflow. An int lies in the
range of the ints exactly if the word in which it lies, its index divided by the ints of a word and
rounded down, lies in the range of the words. So there are as many ints as the words have. A hybrid
of this shape whose heap answers this length answers these bounds. An int and its word are both
served by the heap, or are both refused with the bounds. In a store over a bump heap, whatever its
program, each int that is served lies inside the bytes of a word that is served. -/
theorem int_range_covers_words {shape : TailShape} {length first last : Int32}
    (byWords : shape.ByWords M) (first_eq : shape.firstInt = .ok first)
    (last_eq : shape.lastInt length = .ok last) :
    (∀ int : Int32, (M.wordOfInt int).toInt = int.toInt / M.intsPerWord ∧
      (first ≤ int ∧ int ≤ last ↔
        shape.firstWord ≤ M.wordOfInt int ∧ M.wordOfInt int ≤ shape.lastWord length)) ∧
    {int : Int32 | first ≤ int ∧ int ≤ last}.ncard =
      M.intsPerWord * {word | shape.firstWord ≤ word ∧ word ≤ shape.lastWord length}.ncard ∧
    (∀ {φ η : Type} [TailFields M φ] [TailHeap M η] {h : Hybrid M φ} {origin : Reference M}
      {heap rest : η}, h.shape = shape → h.origin = some origin →
      TailHeap.length origin heap = .ok length rest →
      h.Reports length first last heap rest ∧
      ∀ int : Int32,
        ((first ≤ int ∧ int ≤ last) ∧ h.ServesInt origin int heap rest ∧
          h.ServesWord origin (M.wordOfInt int) heap rest) ∨
        (¬ (first ≤ int ∧ int ≤ last) ∧
          h.RefusesInt (.intIndex int.toInt first.toInt last.toInt) int heap rest ∧
          h.RefusesWord (.wordIndex (M.wordOfInt int).toInt shape.firstWord.toInt
            (shape.lastWord length).toInt) (M.wordOfInt int) heap rest)) ∧
    ∀ {φ : Type} [TailFields M φ] [ToString φ] (region : Region) (program : List (Step φ))
      {i : Nat} {h : Hybrid M φ} {origin : Reference M} {rest : BumpHeap},
      let store := ((HybridStore.empty region : HybridStore M φ).run program).2
      store.hybrids[i]? = some h → h.shape = shape → h.origin = some origin →
      TailHeap.length origin store.heap = .ok length rest →
      ∀ int : Int32, first ≤ int ∧ int ≤ last →
        h.ServesInt origin int store.heap rest ∧
        h.ServesWord origin (M.wordOfInt int) store.heap rest ∧
        BumpHeap.bytesOf .int origin int ⊆ BumpHeap.bytesOf .word origin (M.wordOfInt int) := by
  refine ⟨?_, byWords.ncard_ints first_eq last_eq, ?_, ?_⟩
  · intro int
    rw [← TailShape.allowsWord_iff]
    exact ⟨M.toInt_wordOfInt int, byWords.int_iff_word first_eq last_eq int⟩
  · rintro φ η _ _ h origin heap rest rfl expanded held
    exact ⟨Hybrid.reports_of_bounds expanded held first_eq last_eq,
      Hybrid.accesses_of_byWords expanded held first_eq last_eq byWords⟩
  · rintro φ _ _ region program i h origin rest store made rfl expanded held int within_range
    have aligned : store.Aligned :=
      HybridStore.aligned_run (HybridStore.aligned_empty region) program
    rcases Hybrid.accesses_of_byWords expanded held first_eq last_eq byWords int with
      ⟨-, servesInt, servesWord⟩ | ⟨outside, -, -⟩
    · exact ⟨servesInt, servesWord,
        BumpHeap.bytesOf_int_subset (aligned.hybrids i h made origin expanded) int⟩
    · exact absurd within_range outside

/-- A tail of three words, the first of which may not be used. The first int that may be used is
the first one of the second word. -/
theorem int_range_covers_words_of_reserved_word :
    let h : Hybrid .target64 NumberedFields := ⟨⟨1, ⟨1, -1, none⟩⟩, some (.ofBits 0x1000)⟩
    ∃ region, Region.zeros 0x1000 32 .little = .ok region ∧
      let store := ((HybridStore.empty region : HybridStore .target64 NumberedFields).run
        [.new ⟨1, ⟨1, -1, none⟩⟩, .use 0 (.expand 3)]).2
      h.Reports 3 2 5 store.heap store.heap ∧
      h.RefusesInt (.intIndex 1 2 5) 1 store.heap store.heap ∧
      h.ServesInt (.ofBits 0x1000) 5 store.heap store.heap ∧
      BumpHeap.bytesOf .int (.ofBits 0x1000 : Reference .target64) 5 ⊆
        BumpHeap.bytesOf .word (.ofBits 0x1000 : Reference .target64) 2 := by
  intro h
  refine ⟨_, rfl, ?_⟩
  intro store
  have byWords : h.shape.ByWords .target64 := TailShape.byWords_ofWords _ _ _
  have held : TailHeap.length (.ofBits 0x1000 : Reference .target64) store.heap =
      .ok 3 store.heap := BumpHeap.length_of_answer (by decide +kernel)
  obtain ⟨-, -, accesses, inside⟩ := int_range_covers_words byWords
    (show h.shape.firstInt = .ok 2 by decide) (show h.shape.lastInt 3 = .ok 5 by decide)
  obtain ⟨reports, outcomes⟩ := accesses rfl rfl held
  obtain ⟨-, refused, -⟩ := (outcomes 1).resolve_left fun served => absurd served.1 (by decide)
  have made : store.hybrids[1]? = some h := by with_unfolding_all rfl
  obtain ⟨served, -, bytes⟩ := inside _ _ made rfl rfl held 5 (by decide)
  exact ⟨reports, refused, served, bytes⟩

end MachineWord
