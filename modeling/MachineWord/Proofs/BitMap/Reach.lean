import Mathlib
import MachineWord.Proofs.BitMap.Places

/-!
# Bits that are reached

The index of a byte of a map is an int: of a number beyond the ints it has the low 32 bits. In a
word of 32 bits nothing else of the index counts, so the byte reached is the byte of the bit,
whatever the number of the bit. In a word of 64 bits this holds for the first `2 ^ 34` bits only
(`reached_eq_iff`); the index of a later one leads to another byte, which may even lie before
the pointer. Setting a bit sets one bit at most, in the byte that is reached, and what it does is
right exactly if this byte is the one of the bit, is refused by the region, or has the bit set
already (`setMapBit_sets_its_bit_iff`).
-/

set_option autoImplicit false

namespace MachineWord

namespace Region

/-- A bit of the region that is set. -/
def IsSet (r : Region) (place : Nat × Nat) : Prop :=
  r.Has place.1 ∧ r.bit (place.1 - r.base.toNat) place.2 = true

/-- An access that is refused without a change, or sets one bit of the region and does nothing
else. -/
def SetsOrRefuses (r : Region) (access : Access Region Unit) (place : Nat × Nat) : Prop :=
  (∃ fault, access r = .error fault r) ∨
    r.Has place.1 ∧ ∃ next, access r = .ok () next ∧ r.WithBits {place} next

variable {r next : Region} {place other : Nat × Nat}

/-- A bit is set afterwards only if it has been set before or is the one that was set. -/
theorem WithBits.isSet_iff (set : r.WithBits {other} next) :
    next.IsSet place ↔ r.IsSet place ∨ r.Has place.1 ∧ place = other := by
  rw [IsSet, IsSet, set.has_iff, set.base_eq, set.bit_iff, ← and_or_left]
  apply and_congr_right
  intro has
  rw [Nat.add_sub_cancel' has.1, Set.mem_singleton_iff]

/-- Setting a bit that is set already changes nothing. -/
theorem IsSet.withBits (held : r.IsSet place) : r.WithBits {place} r := by
  refine ⟨rfl, rfl, rfl, fun i j => (or_iff_left_of_imp ?_).symm⟩
  rintro rfl
  have here := held.2
  rwa [Nat.add_sub_cancel_left] at here

end Region

namespace Pointer

variable {M : Model} (p : Pointer M)

/-- The address of the byte that the index of a bit leads to: the index is taken into an int. -/
def reached (n : Nat) : Nat := (p.byteAddress (wrapIndex (n / 8))).toNat

theorem toNat_reached (n : Nat) :
    (p.reached n : Int) =
      (p.address.bits.toNat + ((n / 8 : Nat) : Int).bmod (2 ^ 32)) % 2 ^ M.bits := by
  rw [reached, toNat_byteAddress, wrapIndex, Int32.toInt_ofNat']
  rfl

/-- The byte that is reached is the byte of the bit, in a word of 32 bits and for the first
`2 ^ 34` bits. -/
theorem reached_eq_iff {n : Nat} (index : n < UInt64.size) :
    p.reached n = (p.mapBit n).1 ↔ M.size = .w32 ∨ n < 2 ^ 34 := by
  have own : ((p.mapBit n).1 : Int) =
      (p.address.bits.toNat + (n / 8 : Nat)) % 2 ^ M.bits := by
    rw [mapBit]
    push_cast
    rfl
  have small : n < 2 ^ 64 := index
  rw [← Nat.cast_inj (R := Int), toNat_reached, own]
  have low : ((n / 8 : Nat) : Int).bmod (2 ^ 32) ≡ (n / 8 : Nat) [ZMOD 2 ^ 32] := by
    exact_mod_cast Int.bmod_emod (x := ((n / 8 : Nat) : Int)) (m := 2 ^ 32)
  rcases M with ⟨_ | _, _⟩
  · exact iff_of_true (low.add_left _) (.inl rfl)
  · have lower := Int.le_bmod (x := ((n / 8 : Nat) : Int)) (m := 2 ^ 32) (by decide)
    have upper := Int.bmod_lt (x := ((n / 8 : Nat) : Int)) (m := 2 ^ 32) (by decide)
    generalize ((n / 8 : Nat) : Int).bmod (2 ^ 32) = index at *
    simp only [Model.bits, WordSize.bits, reduceCtorEq, false_or]
    unfold Int.ModEq at low
    omega

/-- What setting a bit does, whatever its index. -/
theorem setMapBit_setsOrRefuses_reached (n : Nat) (r : Region) :
    r.SetsOrRefuses (p.setMapBit n) (p.reached n, n % 8) := by
  rcases p.setMapBit_cases n r with ⟨has, set⟩ | ⟨-, failed⟩
  · exact .inr ⟨has, set⟩
  · exact .inl ⟨_, failed⟩

/-- Setting a bit is not right if another byte of the region is reached, unless both bits have
been set already. -/
theorem isSet_of_setsOrRefuses {n : Nat} {r : Region}
    (right : r.SetsOrRefuses (p.setMapBit n) (p.mapBit n)) (has : r.Has (p.reached n))
    (other : p.reached n ≠ (p.mapBit n).1) :
    r.IsSet (p.reached n, n % 8) ∧ r.IsSet (p.mapBit n) := by
  rcases p.setMapBit_cases n r with ⟨-, next, done, set⟩ | ⟨lacks, -⟩
  · have set : r.WithBits {(p.reached n, n % 8)} next := set
    rcases right with ⟨fault, failed⟩ | ⟨has_own, last, done', set'⟩
    · rw [done] at failed
      cases failed
    · rw [done] at done'
      cases done'
      have differ : (p.reached n, n % 8) ≠ p.mapBit n := fun same => other (congrArg Prod.fst same)
      have reached_set : next.IsSet (p.reached n, n % 8) := set.isSet_iff.2 (.inr ⟨has, rfl⟩)
      have own_set : next.IsSet (p.mapBit n) := set'.isSet_iff.2 (.inr ⟨has_own, rfl⟩)
      exact ⟨(set'.isSet_iff.1 reached_set).resolve_right fun both => differ both.2,
        (set.isSet_iff.1 own_set).resolve_right fun both => differ both.2.symm⟩
  · exact absurd has lacks

/-- **Which bit is set.** Setting a bit of a map sets one bit at most, in the byte that the index
of the bit leads to, or is refused without a change. It sets no other bit than its own exactly if
the word has 32 bits, the bit is one of the first `2 ^ 34`, the region refuses the byte that is
reached, or the bits in both bytes are set already, so that nothing changes. -/
theorem setMapBit_sets_its_bit_iff (p : Pointer M) {n : Nat} (index : n < UInt64.size)
    (r : Region) :
    r.SetsOrRefuses (p.setMapBit n) (p.reached n, n % 8) ∧
    (r.SetsOrRefuses (p.setMapBit n) (p.mapBit n) ↔
      M.size = .w32 ∨ n < 2 ^ 34 ∨ ¬ r.Has (p.reached n) ∨
        r.IsSet (p.reached n, n % 8) ∧ r.IsSet (p.mapBit n)) := by
  have does := p.setMapBit_setsOrRefuses_reached n r
  refine ⟨does, ?_⟩
  constructor
  · intro right
    rw [← or_assoc, ← p.reached_eq_iff index]
    by_cases own : p.reached n = (p.mapBit n).1
    · exact .inl own
    · by_cases has : r.Has (p.reached n)
      · exact .inr (.inr (p.isSet_of_setsOrRefuses right has own))
      · exact .inr (.inl has)
  · rw [← or_assoc, ← p.reached_eq_iff index]
    rintro (own | lacks | ⟨reached_set, own_set⟩)
    · rwa [own] at does
    · rcases does with refused | ⟨has, -⟩
      · exact .inl refused
      · exact absurd has lacks
    · rcases does with refused | ⟨-, next, done, set⟩
      · exact .inl refused
      · obtain rfl := set.unique reached_set.withBits
        exact .inr ⟨own_set.1, next, done, own_set.withBits⟩

/-- The last bit whose index is right in a word of 64 bits, and one far beyond it in a word of 32
bits, of which the region has the byte. -/
theorem setMapBit_sets_its_bit_iff_of_limits :
    let p : Pointer .target64 := ⟨.ofBits 0x1000⟩
    let q : Pointer .hosted32 := ⟨.ofBits 0x1000⟩
    ∃ r, Region.zeros 0x1000 8 .big = .ok r ∧
      r.SetsOrRefuses (p.setMapBit (2 ^ 34 - 1)) (0x80000fff, 7) ∧
      r.SetsOrRefuses (q.setMapBit (2 ^ 35 + 9)) (0x1001, 1) := by
  intro p q
  let r : Region := ⟨0x1000, 8, .big, Array.replicate 1 0, by decide, by decide, rfl⟩
  have first := (setMapBit_sets_its_bit_iff p (n := 2 ^ 34 - 1) (by decide) r).2.2
    (.inr (.inl (by decide)))
  have second := (setMapBit_sets_its_bit_iff q (n := 2 ^ 35 + 9) (by decide) r).2.2 (.inl rfl)
  have place : p.mapBit (2 ^ 34 - 1) = (0x80000fff, 7) := by decide +kernel
  have place' : q.mapBit (2 ^ 35 + 9) = (0x1001, 1) := by decide +kernel
  rw [place] at first
  rw [place'] at second
  exact ⟨r, rfl, first, second⟩

/-- Bit `2 ^ 35` of a map lies in a byte that the region does not have. Setting it in a word of 64
bits is not refused, but sets the first bit of the map. -/
theorem setMapBit_sets_another_bit :
    let p : Pointer .target64 := ⟨.ofBits 0x1000⟩
    ∃ r next, Region.zeros 0x1000 16 .little = .ok r ∧
      p.mapBit (2 ^ 35) = (0x100001000, 0) ∧ ¬ r.Has 0x100001000 ∧
      p.setMapBit (2 ^ 35) r = .ok () next ∧
      ¬ r.IsSet (0x1000, 0) ∧ next.IsSet (0x1000, 0) ∧
      ¬ r.SetsOrRefuses (p.setMapBit (2 ^ 35)) (p.mapBit (2 ^ 35)) := by
  intro p
  let r : Region := ⟨0x1000, 16, .little, Array.replicate 2 0, by decide, by decide, rfl⟩
  have own : p.mapBit (2 ^ 35) = (0x100001000, 0) := by decide +kernel
  have reached : p.reached (2 ^ 35) = 0x1000 := by decide +kernel
  have has : r.Has (p.reached (2 ^ 35)) := by
    rw [reached]
    decide
  have clear : ¬ r.IsSet (0x1000, 0) := fun held => absurd held.2 (by decide)
  rcases p.setMapBit_cases (2 ^ 35) r with ⟨-, next, done, set⟩ | ⟨lacks, -⟩
  · refine ⟨r, next, rfl, own, by decide, done, clear, ?_, ?_⟩
    · exact set.isSet_iff.2 (.inr ⟨by decide, (congrArg (·, 0) reached).symm⟩)
    · intro right
      have held := (p.isSet_of_setsOrRefuses right has (by rw [reached, own]; decide)).1
      rw [reached] at held
      exact clear held
  · exact absurd has lacks

end Pointer

end MachineWord
