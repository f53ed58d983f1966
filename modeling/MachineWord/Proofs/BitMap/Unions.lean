import Mathlib
import MachineWord.Proofs.BitMap.Places

/-!
# Bit maps grow by unions

A call sets some bits of a map: a single one, or those of a mask that starts at a bit, which may
lie in two bytes. Both are a union with a set of places (`MapCall.access_eq`), so a run of calls,
through any pointers, is a union with the places of all of them (`MapCall.run_eq`). A mask is
therefore the same as its bits one by one, and neither the order of the calls nor their
repetition can be seen (`masks_are_their_bits`).
-/

set_option autoImplicit false

namespace MachineWord

/-- A call that sets bits of the map at a pointer. -/
inductive MapCall where
  | bit {M : Model} (p : Pointer M) (n : Nat)
  /-- The bits of a mask, from a bit of the map on. -/
  | mask {M : Model} (p : Pointer M) (n : Nat) (mask : BitVec 8)

namespace MapCall

variable {r : Region}

/-- What a call does. -/
def access {μ : Type} [Memory μ] : MapCall → Access μ Unit
  | bit p n => p.setMapBit n
  | mask p n bits => p.orMapBits n bits

/-- The places of the bits that a call sets. -/
def bits : MapCall → Set (Nat × Nat)
  | bit p n => {p.mapBit n}
  | mask p n bits => p.maskBits n bits

/-- The bytes of a call have ints as indices, and the region has them. -/
def Admitted (r : Region) : MapCall → Prop
  | bit p n => n / 8 < 2 ^ 31 ∧ r.Has (p.mapBit n).1
  | mask p n _ => n / 8 + 1 < 2 ^ 31 ∧ ∀ address ∈ p.window n, r.Has address

instance (r : Region) : (call : MapCall) → Decidable (call.Admitted r)
  | bit p n => inferInstanceAs (Decidable (n / 8 < 2 ^ 31 ∧ r.Has (p.mapBit n).1))
  | mask p n _ => inferInstanceAs
    (Decidable (n / 8 + 1 < 2 ^ 31 ∧ ∀ address ∈ p.window n, r.Has address))

/-- What calls do that are made one after another. -/
def run {μ : Type} [Memory μ] (calls : List MapCall) : Access μ Unit := forM calls access

/-- A call sets its bits and does nothing else. -/
theorem access_eq {call : MapCall} (admitted : call.Admitted r) :
    ∃ next, call.access r = .ok () next ∧ r.WithBits call.bits next := by
  cases call with
  | bit p n => exact p.setMapBit_of_has admitted.1 admitted.2
  | mask p n bits => exact p.orMapBits_of_window admitted.1 bits admitted.2

theorem Admitted.of_withBits {call : MapCall} {next : Region} {bits : Set (Nat × Nat)}
    (admitted : call.Admitted r) (set : r.WithBits bits next) : call.Admitted next := by
  cases call with
  | bit p n => exact ⟨admitted.1, (set.has_iff _).2 admitted.2⟩
  | mask p n mask =>
      exact ⟨admitted.1, fun address member => (set.has_iff _).2 (admitted.2 address member)⟩

/-- Calls set the bits of all of them. -/
theorem run_eq {calls : List MapCall} (admitted : ∀ call ∈ calls, call.Admitted r) :
    ∃ next, run calls r = .ok () next ∧ r.WithBits (⋃ call ∈ calls, call.bits) next := by
  induction calls generalizing r with
  | nil =>
      refine ⟨r, rfl, ?_⟩
      simpa using Region.WithBits.refl r
  | cons call rest ih =>
      rw [List.forall_mem_cons] at admitted
      obtain ⟨between, done, first⟩ := access_eq admitted.1
      obtain ⟨next, ran, later⟩ := ih fun call member => (admitted.2 call member).of_withBits first
      refine ⟨next, ?_, by simpa using first.trans later⟩
      rw [run, List.forM_cons]
      exact (Access.bind_of_ok done).trans ran

/-- Calls that set the same bits leave the same region. -/
theorem run_congr {calls others : List MapCall} {next : Region}
    (ran : run calls r = .ok () next) (admitted : ∀ call ∈ calls, call.Admitted r)
    (admitted' : ∀ call ∈ others, call.Admitted r)
    (same : ⋃ call ∈ others, call.bits = ⋃ call ∈ calls, call.bits) :
    run others r = .ok () next := by
  obtain ⟨last, done, set⟩ := run_eq admitted
  obtain ⟨last', done', set'⟩ := run_eq admitted'
  rw [done] at ran
  cases ran
  rw [same] at set'
  rw [done', set'.unique set]

section Mask

variable {M : Model} {p : Pointer M} {n : Nat} {bits : BitVec 8}

/-- The bits of an admitted mask are admitted one by one. -/
theorem Admitted.bit_of_mask (admitted : (mask p n bits).Admitted r) {k : Nat} (small : k < 8) :
    (bit p (n + k)).Admitted r := by
  obtain ⟨near, window⟩ := admitted
  exact ⟨by omega, window _ (p.mapBit_mem_window small)⟩

/-- A mask does what its bits do one by one, in whatever order and however often. -/
theorem run_bits_eq (admitted : (mask p n bits).Admitted r) {next : Region}
    (set : r.WithBits (p.maskBits n bits) next) {places : List Nat}
    (listed : ∀ k, k ∈ places ↔ bits.getLsbD k = true) :
    (places.forM fun k => p.setMapBit (n + k)) r = .ok () next := by
  have admitted' : ∀ call ∈ places.map fun k => bit p (n + k), call.Admitted r := by
    intro call member
    obtain ⟨k, place, rfl⟩ := List.mem_map.1 member
    exact admitted.bit_of_mask (BitVec.lt_of_getLsbD ((listed k).1 place))
  have union : ⋃ call ∈ places.map fun k => bit p (n + k), call.bits = p.maskBits n bits := by
    ext place
    simp [MapCall.bits, Pointer.maskBits, listed]
  obtain ⟨last, ran, set'⟩ := run_eq admitted'
  rw [union] at set'
  rw [set.unique set', ← ran, run, List.forM_map, List.forM_eq_forM]
  rfl

end Mask

end MapCall

open MapCall in
/-- **Masks are their bits, and maps only grow.** Or-ing a mask into a map leaves the region that
setting its bits one by one leaves, in whatever order and however often. A run of calls, through
any pointers and in either byte order, sets the bits of all its calls: each bit is set afterwards
if it has been set or belongs to a call, so none is cleared, and a byte to which no call belongs
stays as it is. Any run of the same calls, in another order or with repetitions, leaves the same
region. -/
theorem masks_are_their_bits (r : Region) :
    (∀ {M : Model} (p : Pointer M) (n : Nat) (bits : BitVec 8), (mask p n bits).Admitted r →
      ∃ next, p.orMapBits n bits r = .ok () next ∧
        ∀ places : List Nat, (∀ k, k ∈ places ↔ bits.getLsbD k = true) →
          (places.forM fun k => p.setMapBit (n + k)) r = .ok () next) ∧
    ∀ calls : List MapCall, (∀ call ∈ calls, call.Admitted r) →
      ∃ next, run calls r = .ok () next ∧
        r.WithBits (⋃ call ∈ calls, call.bits) next ∧
        (∀ i j, r.bit i j = true → next.bit i j = true) ∧
        (∀ i, (∀ call ∈ calls, ∀ j, (r.base.toNat + i, j) ∉ call.bits) →
          next.byte i = r.byte i) ∧
        ∀ others : List MapCall, (∀ call, call ∈ others ↔ call ∈ calls) →
          run others r = .ok () next := by
  constructor
  · intro M p n bits admitted
    obtain ⟨next, done, set⟩ := p.orMapBits_of_window admitted.1 bits admitted.2
    exact ⟨next, done, fun places listed => run_bits_eq admitted set listed⟩
  · intro calls admitted
    obtain ⟨next, ran, set⟩ := run_eq admitted
    refine ⟨next, ran, set, fun i j => set.bit_of_bit, ?_, ?_⟩
    · intro i apart
      apply set.byte_eq
      intro j
      simpa using fun call member => apart call member j
    · intro others same
      refine run_congr ran admitted (fun call member => admitted call ((same call).1 member)) ?_
      simp only [same]

open MapCall in
/-- Two masks that share bits and reach into the next byte, and a bit through another pointer, in
two orders. -/
theorem masks_are_their_bits_of_overlap :
    let p : Pointer .hosted32 := ⟨.ofBits 0x1000⟩
    let q : Pointer .target64 := ⟨.ofBits 0x1002⟩
    ∃ r next last, Region.zeros 0x1000 8 .big = .ok r ∧
      p.orMapBits 22 0xff r = .ok () next ∧
      ([7, 6, 5, 4, 3, 2, 1, 0].forM fun k => p.setMapBit (22 + k)) r = .ok () next ∧
      run [mask p 22 0xff, bit q 9, mask p 19 0x5a] r = .ok () last ∧
      run [bit q 9, mask p 19 0x5a, mask p 22 0xff, bit q 9] r = .ok () last ∧
      last.bit 3 1 = true := by
  intro p q
  let r : Region := ⟨0x1000, 8, .big, Array.replicate 1 0, by decide, by decide, rfl⟩
  obtain ⟨masks, runs⟩ := masks_are_their_bits r
  obtain ⟨next, done, single⟩ := masks p 22 0xff (by decide +kernel)
  obtain ⟨last, ran, set, -, -, again⟩ :=
    runs [mask p 22 0xff, bit q 9, mask p 19 0x5a] (by decide +kernel)
  have places (k : Nat) : k ∈ [7, 6, 5, 4, 3, 2, 1, 0] ↔ (0xff : BitVec 8).getLsbD k = true := by
    rw [show (0xff : BitVec 8) = BitVec.allOnes 8 by decide, BitVec.getLsbD_allOnes,
      decide_eq_true_eq]
    simp only [List.mem_cons, List.not_mem_nil, or_false]
    omega
  refine ⟨r, next, last, rfl, done, single _ places, ran, again _ ?_, ?_⟩
  · intro call
    simp only [List.mem_cons, List.not_mem_nil, or_false]
    tauto
  · have member : bit q 9 ∈ [mask p 22 0xff, bit q 9, mask p 19 0x5a] := by simp
    have place : (r.base.toNat + 3, 1) = q.mapBit 9 := by decide +kernel
    exact (set.bit_iff 3 1).2 (.inr (Set.mem_biUnion member place))

end MachineWord
