import Mathlib
import MachineWord.Proofs.Hybrid.Effects
import MachineWord.Proofs.Memory.Dumps

/-!
# Dumps of tails

The words of a tail that a heap has given out lie in the region for good: no step takes a tail back,
moves it, or moves the region (`Gives.of_effect`). A dump asks for each word that may be used, and
checks its index against a length that it reads from memory, where it may have been overwritten. So
whatever length it finds, the dump is made if the shape keeps the indices within the words that the
tail was given (`Hybrid.exists_dumpTail`), and its lines are the rows of a table from which the
indices and the words are read back.

This needs the addresses of the region to be words. Behind the last word an address starts at zero
again, and a tail that reaches across it has words that no index leads to.
-/

set_option autoImplicit false

namespace MachineWord

/-- A shape that finds a length keeps its indices within a number of words. -/
def TailShape.KeepsWithin (shape : TailShape) (length n : Int32) : Prop :=
  ∀ i : Int32, shape.AllowsWord length i → 0 ≤ i.toInt ∧ i.toInt < n.toInt

/-- It does if it keeps its first and its last index there. -/
theorem TailShape.KeepsWithin.of_ends {shape : TailShape} {length n : Int32}
    (first : 0 ≤ shape.firstWord.toInt) (last : (shape.lastWord length).toInt < n.toInt) :
    shape.KeepsWithin length n := fun _ allowed =>
  ⟨first.trans allowed.1, allowed.2.trans_lt last⟩

namespace Hybrid

/-! ## Lines -/

section Line

variable {M : Model} (index : Nat) (x : Word M)

/-- A line of a dump without its newline. -/
def wordChars : List Char :=
  '[' :: (Nat.toDigits 10 index ++ ']' :: ' ' :: Numeral.zeroFilled (M.bits / 4) x.bits.toNat)

theorem toList_tailLine {i : Int32} (nonneg : 0 ≤ i.toInt) :
    (tailLine i x).toList = wordChars i.toInt.toNat x ++ ['\n'] := by
  have number : (toString i.toInt).toList = Nat.toDigits 10 i.toInt.toNat := by
    obtain ⟨n, same⟩ := Int.eq_ofNat_of_zero_le nonneg
    rw [same]
    exact String.toList_ofList
  change ("[" ++ toString i.toInt ++ "] " ++ Numeral.paddedHex '0' (M.bits / 4) x.bits.toNat ++
    "\n").toList = _
  simp only [String.toList_append, number, Numeral.toList_paddedHex]
  simp [wordChars]

theorem newline_not_mem_wordChars : '\n' ∉ wordChars index x := by
  intro listed
  simp only [wordChars, List.mem_cons, List.mem_append] at listed
  rcases listed with bracket | digit | bracket | blank | digit
  · exact absurd bracket (by decide)
  · exact absurd (Numeral.isDigit_of_mem_toDigits (by decide) _ _ digit) (by decide)
  · exact absurd bracket (by decide)
  · exact absurd blank (by decide)
  · exact absurd (Numeral.isDigit_of_mem_zeroFilled _ digit) (by decide)

/-- The index and the word are read back from a line. -/
theorem readWordRow_wordChars :
    readWordRow (M.bits / 4) (wordChars index x) = some (index, x.bits.toNat) := by
  have plain : ']' ∉ Nat.toDigits 10 index := fun listed =>
    absurd (Numeral.isDigit_of_mem_toDigits (by decide) _ _ listed) (by decide)
  have full : (Numeral.zeroFilled (M.bits / 4) x.bits.toNat).length = M.bits / 4 := by
    rw [Numeral.length_zeroFilled, max_eq_left (M.length_hex_le_iff.2 x.toNat_bits_lt)]
  simp [wordChars, readWordRow, cutAt_append plain, full, Numeral.read?_zeroFilled,
    Numeral.read?_toDigits]

end Line

/-! ## Words -/

section Words

open BumpHeap (Within elements inRegion)

variable {M : Model} {φ : Type} [TailFields M φ] {h : Hybrid M φ} {origin : Reference M}
  {heap : BumpHeap} {length n : Int32}

/-- The indices from a first to a last one. -/
def indices (first last : Int32) : List Int32 :=
  (List.range (last.toInt + 1 - first.toInt).toNat).map fun k : Nat =>
    Int32.ofInt (first.toInt + k)

theorem toInt_index {first last : Int32} {k : Nat}
    (listed : k < (last.toInt + 1 - first.toInt).toNat) :
    (Int32.ofInt (first.toInt + k)).toInt = first.toInt + k := by
  have lower := Int32.le_toInt first
  have upper := Int32.toInt_lt last
  exact Int32.toInt_ofInt_of_le (by omega) (by omega)

theorem le_of_mem_indices {first last i : Int32} (listed : i ∈ indices first last) :
    first.toInt ≤ i.toInt ∧ i.toInt ≤ last.toInt := by
  obtain ⟨k, range, rfl⟩ := List.mem_map.1 listed
  have small := List.mem_range.1 range
  rw [toInt_index small]
  omega

/-- The indices are consecutive numbers. -/
theorem map_toInt_indices {first last : Int32}
    (nonneg : first.toInt ≤ last.toInt → 0 ≤ first.toInt) :
    (indices first last).map (fun i => i.toInt.toNat) =
      List.range' first.toInt.toNat (last.toInt + 1 - first.toInt).toNat := by
  rw [indices, List.map_map, List.range'_eq_map_range]
  apply List.map_congr_left
  intro k listed
  have small := List.mem_range.1 listed
  rw [Function.comp_apply, toInt_index small]
  omega

/-- The heap finds the length of a tail in the region, whatever it is by now. -/
theorem exists_length (contained : heap.Contains origin n) :
    ∃ length : Int32, TailHeap.length origin heap = .ok length heap := by
  obtain ⟨base, stop, -⟩ := contained
  rw [BumpHeap.tailStop, BumpHeap.tailBytes_eq] at stop
  have inside := BumpHeap.inside_head base (by omega)
  have found := BumpHeap.answer_length heap origin
  rw [Pointer.fetch_of_inside _ _ inside] at found
  exact ⟨_, BumpHeap.length_of_answer found⟩

/-- A word that may be used and lies in the tail can be read. -/
theorem exists_getWord (expanded : h.origin = some origin)
    (held : TailHeap.length origin heap = .ok length heap) (contained : heap.Contains origin n)
    {i : Int32} (allowed : h.shape.AllowsWord length i) (nonneg : 0 ≤ i.toInt)
    (below : i.toInt < n.toInt) : ∃ x, h.getWord i heap = .ok x heap := by
  have within_tail : Within M .word (.zeros M n) i := by
    refine ⟨nonneg, ?_⟩
    change _ ≤ n.toInt.toNat * M.bytes
    have le : i.toInt.toNat + 1 ≤ n.toInt.toNat := by omega
    rw [Scalar.bytes_word, ← Nat.succ_mul]
    exact Nat.mul_le_mul_right _ le
  rcases checkWord_cases expanded held i with ⟨-, checked⟩ | ⟨refused, -⟩
  · obtain ⟨x, element⟩ := BumpHeap.exists_element_iff.2 (contained.inside within_tail)
    have read : (BumpHeap.tail origin).get .word (elements M) i heap.region =
        .ok x heap.region := Pointer.read_of_fetch _ _ element
    refine ⟨x, (Access.bind_of_ok checked).trans ?_⟩
    change inRegion ((BumpHeap.tail origin).get .word (elements M) i) heap = _
    rw [inRegion, read]
    rfl
  · exact absurd allowed refused

/-- The lines of words that can be read. -/
theorem tailLines_eq {words : Int32 → Word M} (first : Int) (count : Nat)
    (held : ∀ k < count, h.getWord (.ofInt (first + k)) heap =
      .ok (words (.ofInt (first + k))) heap) :
    h.tailLines first count heap = .ok ((List.range count).map fun k : Nat =>
      tailLine (.ofInt (first + k)) (words (.ofInt (first + k)))) heap := by
  induction count generalizing first with
  | zero => rfl
  | succ count ih =>
      have head := held 0 (Nat.succ_pos count)
      rw [Nat.cast_zero, Int.add_zero] at head
      have shift (k : Nat) : first + 1 + k = first + (k.succ : Nat) := by
        push_cast
        omega
      have later := ih (first + 1) fun k small => by
        rw [shift]
        exact held (k + 1) (Nat.succ_lt_succ small)
      rw [tailLines, Access.bind_of_ok head, Access.bind_of_ok later, List.range_succ_eq_map,
        List.map_cons, List.map_map, Nat.cast_zero, Int.add_zero]
      simp only [shift]
      rfl

/-- The dump of words that can be read. -/
theorem dumpTail_eq {words : Int32 → Word M} (expanded : h.origin = some origin)
    (held : TailHeap.length origin heap = .ok length heap)
    (read : ∀ i ∈ indices h.shape.firstWord (h.shape.lastWord length),
      h.getWord i heap = .ok (words i) heap) :
    h.dumpTail heap = .ok (String.join
      ((indices h.shape.firstWord (h.shape.lastWord length)).map fun i =>
        tailLine i (words i))) heap := by
  have lines := tailLines_eq h.shape.firstWord.toInt
    ((h.shape.lastWord length).toInt + 1 - h.shape.firstWord.toInt).toNat fun k small =>
      read _ (List.mem_map_of_mem (List.mem_range.2 small))
  rw [indices, List.map_map]
  refine (Access.bind_of_ok (firstWord_of_expanded expanded)).trans ?_
  refine (Access.bind_of_ok (lastWord_of_expanded expanded held)).trans ?_
  exact Access.bind_of_ok lines

/-- Indices and words are read back from their lines. -/
theorem readTable_tailLines {words : Int32 → Word M} {items : List Int32}
    (nonneg : ∀ i ∈ items, 0 ≤ i.toInt) :
    readTable (readWordRow (M.bits / 4))
      (String.join (items.map fun i => tailLine i (words i))) =
      some (items.map fun i => (i.toInt.toNat, (words i).bits.toNat)) :=
  readTable_join items fun i listed => ⟨_, toList_tailLine _ (nonneg i listed),
    newline_not_mem_wordChars _ _, readWordRow_wordChars _ _⟩

/-- A text shows the words that may be used: it is a table with a row for each of their indices, one
after another, and the row has the word at the index. -/
structure ShownBy (h : Hybrid M φ) (heap : BumpHeap) (length : Int32) (text : String)
    (rows : List (Nat × Nat)) : Prop where
  rows_eq : readTable (readWordRow (M.bits / 4)) text = some rows
  indices_eq : rows.map Prod.fst = List.range' h.shape.firstWord.toInt.toNat
    ((h.shape.lastWord length).toInt + 1 - h.shape.firstWord.toInt).toNat
  words_eq (row : Nat × Nat) (listed : row ∈ rows) : ∃ (i : Int32) (x : Word M),
    i.toInt = row.1 ∧ h.getWord i heap = .ok x heap ∧ x.bits.toNat = row.2

/-- The dump of a tail in the region is made, and shows its words. -/
theorem exists_dumpTail (expanded : h.origin = some origin)
    (held : TailHeap.length origin heap = .ok length heap) (contained : heap.Contains origin n)
    (keeps : h.shape.KeepsWithin length n) :
    ∃ text rows, h.dumpTail heap = .ok text heap ∧ h.ShownBy heap length text rows := by
  have readable (i : Int32) : ∃ x, h.shape.AllowsWord length i → h.getWord i heap = .ok x heap := by
    by_cases allowed : h.shape.AllowsWord length i
    · obtain ⟨nonneg, below⟩ := keeps i allowed
      obtain ⟨x, read⟩ := exists_getWord expanded held contained allowed nonneg below
      exact ⟨x, fun _ => read⟩
    · exact ⟨.zero, fun found => absurd found allowed⟩
  choose words read using readable
  have allowed {i : Int32} (listed : i ∈ indices h.shape.firstWord (h.shape.lastWord length)) :
      h.shape.AllowsWord length i := le_of_mem_indices listed
  refine ⟨_, (indices h.shape.firstWord (h.shape.lastWord length)).map fun i =>
    (i.toInt.toNat, (words i).bits.toNat),
    dumpTail_eq expanded held fun i listed => read i (allowed listed),
    readTable_tailLines fun i listed => (keeps i (allowed listed)).1, ?_, ?_⟩
  · rw [List.map_map]
    refine map_toInt_indices fun ordered => ?_
    exact (keeps h.shape.firstWord ⟨le_rfl, ordered⟩).1
  · intro row listed
    obtain ⟨i, index, rfl⟩ := List.mem_map.1 listed
    refine ⟨i, words i, ?_, read i (allowed index), rfl⟩
    have := (keeps i (allowed index)).1
    omega

end Words

end Hybrid

/-! ## Programs -/

namespace HybridStore

variable {M : Model} {φ : Type} {store : HybridStore M φ} {given : List (Nat × Int32)}

/-- The tails given so far lie in the region, and all tails of hybrids have been given. -/
structure Gives (given : List (Nat × Int32)) (store : HybridStore M φ) : Prop where
  fits : store.heap.Fits M
  contained (j : Nat) (n : Int32) (listed : (j, n) ∈ given) :
    ∃ origin, store.origin? j = some origin ∧ store.heap.Contains origin n
  listed (j : Nat) (origin : Reference M) (expanded : store.origin? j = some origin) :
    ∃ n, (j, n) ∈ given

/-- Tails that have been given stay where they are. -/
theorem Gives.of_effect {granted : Option (Nat × Int32)} {next : HybridStore M φ}
    (gives : Gives given store) (effect : Effect store granted next) :
    Gives (given ++ granted.toList) next := by
  obtain ⟨fits, base_eq, size_eq⟩ := effect.place gives.fits
  refine ⟨fits, fun j n listed => ?_, fun j origin expanded => ?_⟩
  · rcases List.mem_append.1 listed with before | new
    · obtain ⟨origin, expanded, contained⟩ := gives.contained j n before
      rcases effect.origin?_cases j with same | ⟨absent, -⟩
      · refine ⟨origin, same.trans expanded, ?_⟩
        rwa [BumpHeap.Contains, base_eq, size_eq]
      · rw [absent] at expanded
        cases expanded
    · obtain rfl := Option.mem_toList.1 new
      obtain ⟨origin, taken, expanded⟩ := effect.of_granted
      exact ⟨origin, expanded, BumpHeap.contains_of_expand gives.fits taken⟩
  · rcases effect.origin?_cases j with same | ⟨-, n, -, rfl, -⟩
    · obtain ⟨n, before⟩ := gives.listed j origin (same.symm.trans expanded)
      exact ⟨n, List.mem_append_left _ before⟩
    · exact ⟨n, List.mem_append_right _ (List.mem_singleton_self _)⟩

variable [TailFields M φ] [ToString φ]

/-- All tails that a program is given stay where they are. -/
theorem gives_run (gives : Gives given store) (program : List (Step φ)) :
    Gives (given ++ (program.zip (store.run program).1).filterMap grant)
      (store.run program).2 := by
  induction program generalizing store given with
  | nil =>
      rw [List.zip_nil_left, List.filterMap_nil, List.append_nil]
      exact gives
  | cons s rest ih =>
      have later := ih (gives.of_effect (effect_step store s))
      rw [List.append_assoc] at later
      rw [run, List.zip_cons_cons, List.filterMap_cons]
      cases granted : grant (s, (store.step s).1) <;> rwa [granted] at later

omit [TailFields M φ] [ToString φ] in
theorem gives_empty {region : Region} (fits : (BumpHeap.empty region).Fits M) :
    Gives [] (empty region : HybridStore M φ) where
  fits := fits
  contained := by rintro j n ⟨⟩
  listed := by rintro j origin ⟨⟩

end HybridStore

open HybridStore (Step empty grant)

/-- **Dumps are lossless.** The dump of every region is made, also with the addresses that the
machine computes, and the bytes of the region are read back from it. Run any program over an empty
bump heap in zeros that fits into the address space of a word. All expanded hybrids are those whose
tails were given in the run. Each of them finds a length, and if its shape then keeps its indices
within the words that its tail was given, its dump is made, and all words that may be used are read
back from it with their indices. -/
theorem dumps_are_lossless {M : Model} {φ : Type} [TailFields M φ] [ToString φ] :
    (∀ r : Region, ∃ text, r.dump = .ok text ∧ r.machineDump = .ok text ∧ r.ShownBy text) ∧
    ∀ (base : BitVec 64) (size : Nat) (order : ByteOrder) (region : Region),
      Region.zeros base size order = .ok region → base.toNat + size ≤ 2 ^ M.bits →
      ∀ program : List (Step φ),
        let run := (empty region : HybridStore M φ).run program
        let given := (program.zip run.1).filterMap grant
        (∀ (j : Nat) (h : Hybrid M φ), run.2.hybrids[j]? = some h → h.isExpanded = true →
          ∃ n, (j, n) ∈ given) ∧
        ∀ (j : Nat) (n : Int32), (j, n) ∈ given → ∃ (h : Hybrid M φ) (length : Int32),
          run.2.hybrids[j]? = some h ∧ h.isExpanded = true ∧
          h.length run.2.heap = .ok length run.2.heap ∧
          (h.shape.KeepsWithin length n → ∃ text rows,
            h.dumpTail run.2.heap = .ok text run.2.heap ∧
              h.ShownBy run.2.heap length text rows) := by
  refine ⟨fun r => r.exists_dump, ?_⟩
  intro base size order region made fits program run given
  have gives : HybridStore.Gives given run.2 :=
    HybridStore.gives_run (HybridStore.gives_empty (HybridStore.fits_empty made fits)) program
  refine ⟨fun j h found expanded => ?_, fun j n listed => ?_⟩
  · obtain ⟨origin, tail⟩ := Option.isSome_iff_exists.1 expanded
    exact gives.listed j origin ((HybridStore.origin?_of_made found).trans tail)
  · obtain ⟨origin, expanded, contained⟩ := gives.contained j n listed
    obtain ⟨h, found, tail⟩ := Option.bind_eq_some_iff.1 expanded
    obtain ⟨length, held⟩ := Hybrid.exists_length contained
    refine ⟨h, length, found, ?_, Hybrid.length_of_expanded tail held, fun keeps =>
      Hybrid.exists_dumpTail tail held contained keeps⟩
    rw [Hybrid.isExpanded, tail]
    rfl

/-- A tail of two words, of which the second one has been set. -/
def secondWordSet : List (Step NumberedFields) :=
  [.new ⟨7, ⟨0, -1, none⟩⟩, .use 0 (.expand 2), .use 1 (.setWord 1 0xabc)]

/-- A region with a line that is not full, and a tail of two words. -/
theorem dumps_are_lossless_of_two_words :
    (∃ region, Region.zeros 0x1000 20 .big = .ok region ∧ region.ShownBy
      ("0x00001000: 00 00 00 00 00 00 00 00 00 00 00 00 00 00 00 00\n" ++
        "0x00001010: 00 00 00 00\n")) ∧
    ∃ region, Region.zeros 0x1000 64 .little = .ok region ∧
      let store := ((empty region : HybridStore .target32 NumberedFields).run secondWordSet).2
      ∃ h, store.hybrids[1]? = some h ∧ h.shape.KeepsWithin 2 2 ∧
        h.dumpTail store.heap = .ok "[0] 00000000\n[1] 00000abc\n" store.heap ∧
        ∃ rows, h.ShownBy store.heap 2 "[0] 00000000\n[1] 00000abc\n" rows ∧
          rows.map Prod.fst = [0, 1] := by
  let partLine : Region := ⟨0x1000, 20, .big, Array.replicate 3 0, by decide, by decide, rfl⟩
  let region : Region := ⟨0x1000, 64, .little, Array.replicate 8 0, by decide, by decide, rfl⟩
  have made : Region.zeros 0x1000 64 .little = .ok region := rfl
  obtain ⟨regions, tails⟩ := @dumps_are_lossless .target32 NumberedFields _ _
  obtain ⟨text, dumped, -, shown⟩ := regions partLine
  have lines : partLine.dump = .ok
      ("0x00001000: 00 00 00 00 00 00 00 00 00 00 00 00 00 00 00 00\n" ++
        "0x00001010: 00 00 00 00\n") := by decide +kernel
  cases dumped.symm.trans lines
  refine ⟨⟨partLine, rfl, shown⟩, region, made, ?_⟩
  intro store
  obtain ⟨h, length, found, -, held, shows⟩ :=
    (tails 0x1000 64 .little region made (by decide) secondWordSet).2 1 2 (by decide +kernel)
  have numbered : store.hybrids[1]?.map Hybrid.fields = some ⟨7, ⟨0, -1, none⟩⟩ := by
    decide +kernel
  have two : store.hybrids[1]?.map (fun h => h.length.answer store.heap) = some (.ok 2) := by
    decide +kernel
  have words : store.hybrids[1]?.map (fun h => h.dumpTail.answer store.heap) =
      some (.ok "[0] 00000000\n[1] 00000abc\n") := by decide +kernel
  rw [found] at numbered two words
  obtain ⟨fields, origin⟩ := h
  cases numbered
  cases (Access.answer_of_ok held).symm.trans (Option.some.inj two)
  let shape : TailShape := AffineShape.tail .target32 ⟨0, -1, none⟩
  have keeps : shape.KeepsWithin 2 2 := .of_ends (by decide) (by decide)
  have range : List.range' shape.firstWord.toInt.toNat
      ((shape.lastWord 2).toInt + 1 - shape.firstWord.toInt).toNat = [0, 1] := by decide
  obtain ⟨text', rows, dumpedTail, shownTail⟩ := shows keeps
  cases (Access.answer_of_ok dumpedTail).symm.trans (Option.some.inj words)
  exact ⟨_, found, keeps, dumpedTail, rows, shownTail, shownTail.indices_eq.trans range⟩

/-- A tail of five words. -/
def fiveWords : List (Step NumberedFields) := [.new ⟨1, ⟨0, -1, none⟩⟩, .use 0 (.expand 5)]

/-- In a region around the last address of a word of 32 bits, a tail is given out of whose words
only three lie behind its length. The shape keeps the indices within its five words, and yet the
dump reads at address zero. -/
theorem tail_dump_fails_behind_last_address :
    let region : Region :=
      ⟨0xfffffff0, 32, .little, Array.replicate 4 0, by decide, by decide, rfl⟩
    let store := ((empty region : HybridStore .target32 NumberedFields).run fiveWords).2
    ∃ h, store.hybrids[1]? = some h ∧ h.isExpanded = true ∧
      h.length.answer store.heap = .ok 5 ∧ h.shape.KeepsWithin 5 5 ∧
      h.dumpTail.answer store.heap = .error (.outside 4 0 0xfffffff0 0x100000010) := by
  intro region store
  have numbered : store.hybrids[1]?.map Hybrid.fields = some ⟨1, ⟨0, -1, none⟩⟩ := by
    decide +kernel
  have held : store.hybrids[1]?.map (fun h => (h.isExpanded, h.length.answer store.heap)) =
      some (true, .ok 5) := by decide +kernel
  have failed : store.hybrids[1]?.map (fun h => h.dumpTail.answer store.heap) =
      some (.error (.outside 4 0 0xfffffff0 0x100000010)) := by decide +kernel
  obtain ⟨⟨fields, origin⟩, found, same⟩ := Option.map_eq_some_iff.1 numbered
  cases same
  rw [found] at held failed
  obtain ⟨expanded, five⟩ := Prod.mk.inj (Option.some.inj held)
  let shape : TailShape := AffineShape.tail .target32 ⟨0, -1, none⟩
  have keeps : shape.KeepsWithin 5 5 := .of_ends (by decide) (by decide)
  exact ⟨_, found, expanded, five, keeps, Option.some.inj failed⟩

end MachineWord
