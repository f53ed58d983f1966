import Mathlib
import MachineWord.Memory.Fence
import MachineWord.Proofs.BitMap.Places

/-!
# The window of a mask

The bytes that a mask is or-ed into are decided by the place of its first bit, not by the bits
that it has: the byte of the first bit and, unless this is the first bit of the byte, the one
after it. Both are read and written, also if no bit of the mask lies in them. So the mask is
refused unless the region has both (`orMapBits_refused_for_a_byte_without_bits`), and otherwise
it reaches these bytes and no others (`orMapBits_needs_its_window`).
-/

set_option autoImplicit false

namespace MachineWord

namespace Pointer

variable {M : Model} (p : Pointer M)

section Fence

variable {μ : Type} [Memory μ] {addresses : List Nat} {memory : μ}

/-- An or into a byte inside a fence. -/
theorem alike_orByte {index : Int32} (inside : (p.byteAddress index).toNat ∈ addresses)
    (mask : BitVec 8) :
    Access.Alike (Fenced.Around addresses) memory ⟨memory, addresses⟩
      (p.orByte index mask) (p.orByte index mask) := by
  have span : Fenced.Encloses addresses (p.byteAddress index) (Scalar.bytes M .byte) := by
    intro i small
    obtain rfl : i = 0 := Nat.lt_one_iff.1 small
    simpa using inside
  have fetched : p.fetch memory .byte (scaled .byte 0 index) =
      p.fetch (⟨memory, addresses⟩ : Fenced μ) .byte (scaled .byte 0 index) := by
    rw [fetch, fetch]
    exact congrArg (· >>= _) (Fenced.loadNat_eq span).symm
  refine Access.Alike.bind (.query (Fenced.around _ _) fetched) ?_
  rintro held changed _ rfl
  exact Fenced.alike_storeNat span _

end Fence

/-- A mask reaches the window of its first bit and no other byte. -/
theorem reachesOnly_orMapBits {n : Nat} (near : n / 8 + 1 < 2 ^ 31) (mask : BitVec 8) :
    Access.ReachesOnly (p.window n) fun _ => p.orMapBits n mask := by
  intro μ _ memory
  change Access.Alike _ _ _ (p.orMapBits n mask) (p.orMapBits n mask)
  rw [p.orMapBits_eq near, p.orMapBits_eq near]
  refine Access.Alike.bind (p.alike_orByte ?_ _) ?_
  · rw [p.byteAddress_wrapIndex (by omega)]
    exact List.mem_cons_self
  · rintro - changed _ rfl
    by_cases split : 0 < n % 8
    · rw [if_pos split, if_pos split]
      apply p.alike_orByte
      rw [p.byteAddress_second near, window, if_pos split]
      exact List.mem_cons_of_mem _ List.mem_cons_self
    · rw [if_neg split, if_neg split]
      exact .pure (Fenced.around _ _) ()

/-- A mask that is not refused lies in bytes that the region has. -/
theorem has_of_orMapBits {n : Nat} (near : n / 8 + 1 < 2 ^ 31) {mask : BitVec 8} {r next : Region}
    (done : p.orMapBits n mask r = .ok () next) : ∀ address ∈ p.window n, r.Has address := by
  intro address member
  by_contra lacks
  obtain ⟨fault, last, failed⟩ := p.orMapBits_of_not_window near mask member lacks
  rw [done] at failed
  cases failed

/-- **A mask needs its window.** Or-ing a mask into a map is done exactly if the region has the
window of the first bit. Then the bits of the mask are set and no others. In every memory, it
neither reads nor writes a byte outside of the window. -/
theorem orMapBits_needs_its_window (p : Pointer M) {n : Nat} (near : n / 8 + 1 < 2 ^ 31)
    (mask : BitVec 8) (r : Region) :
    ((∃ next, p.orMapBits n mask r = .ok () next) ↔ ∀ address ∈ p.window n, r.Has address) ∧
    (∀ next, p.orMapBits n mask r = .ok () next → r.WithBits (p.maskBits n mask) next) ∧
    Access.ReachesOnly (p.window n) fun _ => p.orMapBits n mask := by
  refine ⟨⟨?_, ?_⟩, ?_, p.reachesOnly_orMapBits near mask⟩
  · rintro ⟨next, done⟩
    exact p.has_of_orMapBits near done
  · intro has
    obtain ⟨next, done, -⟩ := p.orMapBits_of_window near mask has
    exact ⟨next, done⟩
  · intro next done
    obtain ⟨last, done', set⟩ := p.orMapBits_of_window near mask (p.has_of_orMapBits near done)
    rw [done] at done'
    cases done'
    exact set

/-- A mask whose bits all lie in the second of the last two bytes of a region. -/
theorem orMapBits_needs_its_window_of_last :
    let p : Pointer .hosted32 := ⟨.ofBits 0x1000⟩
    ∃ r next, Region.zeros 0x1000 8 .big = .ok r ∧ p.orMapBits 52 0xf0 r = .ok () next ∧
      r.WithBits (p.maskBits 52 0xf0) next ∧
      Access.ReachesOnly [0x1006, 0x1007] fun _ => p.orMapBits 52 0xf0 := by
  intro p
  let r : Region := ⟨0x1000, 8, .big, Array.replicate 1 0, by decide, by decide, rfl⟩
  have window : p.window 52 = [0x1006, 0x1007] := by decide +kernel
  obtain ⟨succeeds, sets, reaches⟩ :=
    orMapBits_needs_its_window p (n := 52) (by decide) 0xf0 r
  rw [window] at succeeds reaches
  obtain ⟨next, done⟩ := succeeds.2 (by decide)
  exact ⟨r, next, rfl, done, sets next done, reaches⟩

/-- A mask whose only bit lies in the last byte of a region is refused if it starts within this
byte, for the byte after it. -/
theorem orMapBits_refused_for_a_byte_without_bits :
    let p : Pointer .target64 := ⟨.ofBits 0x1000⟩
    ∃ r, Region.zeros 0x1000 8 .little = .ok r ∧ 57 / 8 + 1 < 2 ^ 31 ∧ (1 : BitVec 8) ≠ 0 ∧
      (∀ k, (1 : BitVec 8).getLsbD k = true → r.Has (p.mapBit (57 + k)).1) ∧
      ¬ ∃ next, p.orMapBits 57 1 r = .ok () next := by
  intro p
  let r : Region := ⟨0x1000, 8, .little, Array.replicate 1 0, by decide, by decide, rfl⟩
  refine ⟨r, rfl, by decide, by decide, ?_, ?_⟩
  · intro k held
    obtain rfl : k = 0 := by
      rw [show (1 : BitVec 8) = 1#8 from rfl, BitVec.getLsbD_one] at held
      simpa using held
    decide +kernel
  · rintro ⟨next, done⟩
    have last : 0x1008 ∈ p.window 57 := by decide +kernel
    exact absurd (p.has_of_orMapBits (by decide) done _ last) (by decide)

end Pointer

end MachineWord
