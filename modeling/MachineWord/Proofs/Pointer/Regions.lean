import Mathlib
import MachineWord.Pointer.Lemmas
import MachineWord.Proofs.Memory.Refinement
import MachineWord.Proofs.Memory.Typed

/-!
# Pointers of a region

A region hands out a pointer to a distance from its base if its own addresses fit into a word. The
distance is not checked: the address of the pointer is the sum modulo the number of words, and the
accesses reach the bytes there (`Pointer.reaches_address`). A sum that is a word is the address
itself. A later sum lies beyond the region, but the address that is left of it may be one of the
region again, and then the pointer reaches bytes that are not at the distance
(`Pointer.reaches_iff_of_beyond`).
-/

set_option autoImplicit false

namespace MachineWord

namespace Pointer

variable {M : Model} {s : Scalar} {r : Region} (p : Pointer M)

/-- Loads and stores of a kind at a pointer are those of the bytes of a region at an address. A
load is answered exactly if the region has the bytes, and decodes them as they stand in the
snapshot; a store changes no others. -/
structure Reaches (r : Region) (s : Scalar) (address : Nat) : Prop where
  load_iff : (∃ x, (p.load s).answer r = .ok x) ↔
    r.base.toNat ≤ address ∧ address + s.bytes M ≤ r.base.toNat + r.size
  load_eq (from_base : r.base.toNat ≤ address)
    (fits : address + s.bytes M ≤ r.base.toNat + r.size) :
    ∃ bytes, r.snapshot = .ok bytes ∧
      p.load s r = .ok (s.decode M (r.order.decode
        ((bytes.drop (address - r.base.toNat)).take (s.bytes M)))) r
  store_beyond (x : s.Carrier M) : r.AgreesBeyond address (s.bytes M) ((p.store s x).after r)

/-- The element at the pointer itself lies at its address. -/
theorem locate_scaled_zero (s : Scalar) : p.locate (scaled s 0 0) = p.address.bits := by
  apply BitVec.eq_of_toNat_eq
  rw [p.toNat_locate_scaled_mod (by decide) (by decide)]
  change (p.address.bits.toNat + 0 + 0 * s.bytes M) % 2 ^ M.bits = _
  rw [Nat.zero_mul, Nat.add_zero, Nat.mod_eq_of_lt (Value.toNat_bits_lt p.address)]

theorem inside_scaled_zero : Inside r p s (scaled s 0 0) ↔
    r.contains p.address.bits (s.bytes M) = true := by
  rw [Inside, locate_scaled_zero]

/-- A load is answered exactly if the region contains the bytes at the address. -/
theorem answer_load_iff : (∃ x, (p.load s).answer r = .ok x) ↔
    r.contains p.address.bits (s.bytes M) = true := by
  change (∃ x, (p.read s (scaled s 0 0)).answer r = .ok x) ↔ _
  rw [read, Access.answer_query, ← inside_scaled_zero]
  constructor
  · rintro ⟨x, fetched⟩
    by_contra outside
    rw [p.fetch_of_not_inside _ outside] at fetched
    cases fetched
  · intro inside
    exact ⟨_, p.fetch_of_inside _ inside⟩

/-- A pointer reaches the bytes at its address. -/
theorem reaches_address (r : Region) (s : Scalar) : p.Reaches r s p.address.bits.toNat where
  load_iff := p.answer_load_iff.trans (r.contains_iff _ _)
  load_eq from_base fits := by
    have inside : Inside r p s (scaled s 0 0) :=
      p.inside_scaled_zero.2 ((r.contains_iff _ _).2 ⟨from_base, fits⟩)
    refine ⟨r.bytesAt 0 r.size, r.snapshot_eq, ?_⟩
    rw [r.take_drop_bytesAt (by omega), Nat.zero_add]
    have fetched := p.fetch_of_inside _ inside
    rw [distance, locate_scaled_zero] at fetched
    exact p.read_of_fetch _ fetched
  store_beyond x := by
    have agrees := p.agreesBeyond_write (scaled s 0 0) r x
    rwa [locate_scaled_zero] at agrees

/-- A pointer reaches the bytes at an address beyond the region exactly if the region does not
contain the bytes at its own address. -/
theorem reaches_iff_of_beyond {address : Nat} (beyond : r.base.toNat + r.size ≤ address) :
    p.Reaches r s address ↔ ¬ r.contains p.address.bits (s.bytes M) = true := by
  have positive : 0 < s.bytes M := s.bytes_pos M
  constructor
  · intro reaches inside
    have fits := (reaches.load_iff.1 (p.answer_load_iff.2 inside)).2
    omega
  · intro outside
    refine ⟨iff_of_false (mt p.answer_load_iff.1 outside) (by omega), by omega, fun x => ?_⟩
    have unchanged := p.after_write_of_not_inside _ (mt p.inside_scaled_zero.1 outside) x
    change r.AgreesBeyond _ _ ((p.write s (scaled s 0 0) x).after r)
    rw [unchanged]
    exact .refl r _ _

end Pointer

namespace Region

variable (M : Model) (r : Region) (distance : Nat)

theorem toNat_mask : M.mask.toNat = 2 ^ M.bits - 1 := by
  rcases M with ⟨_ | _, _ | _⟩ <;> decide

/-- A region hands out no pointer exactly if its last address is not a word, or if the distance
leads beyond 64 bits. -/
theorem pointer_eq_error_iff (nonempty : r.size ≠ 0) :
    (∃ fault, r.pointer M distance = .error fault) ↔
      2 ^ M.bits ≤ r.base.toNat + r.size - 1 ∨ UInt64.size ≤ r.base.toNat + distance := by
  have words := M.bits.two_pow_pos
  rw [pointer, toNat_stop, toNat_mask]
  by_cases high : 2 ^ M.bits ≤ r.base.toNat + r.size - 1
  · rw [if_pos ⟨nonempty, by omega⟩]
    exact iff_of_true ⟨_, rfl⟩ (.inl high)
  · rw [if_neg fun refused => high (by omega), or_iff_right high]
    split
    next large => exact iff_of_true ⟨_, rfl⟩ large
    next small => exact iff_of_false (by rintro ⟨_, failed⟩; cases failed) small

variable {M r distance}

/-- The pointer handed out has the sum modulo the number of words as its address, and all addresses
of the region are words. -/
theorem of_pointer_eq_ok {p : Pointer M} (nonempty : r.size ≠ 0)
    (handed : r.pointer M distance = .ok p) :
    r.base.toNat + r.size ≤ 2 ^ M.bits ∧
      p.address.bits.toNat = (r.base.toNat + distance) % 2 ^ M.bits := by
  have admitted : ¬ ∃ fault, r.pointer M distance = .error fault := by
    rw [handed]
    rintro ⟨_, failed⟩
    cases failed
  rw [pointer_eq_error_iff M r distance nonempty, not_or] at admitted
  refine ⟨by omega, ?_⟩
  have small : r.base.toNat + distance < 2 ^ 64 := not_le.1 admitted.2
  rw [pointer, toNat_stop, toNat_mask, if_neg fun refused => admitted.1 (by omega),
    if_neg admitted.2] at handed
  obtain rfl := Except.ok.inj handed
  rw [Value.toNat_bits_ofBits, BitVec.toNat_add, BitVec.toNat_ofNat, Nat.add_mod_mod,
    Nat.mod_eq_of_lt small]

end Region

/-- **Pointers of a region reach the bytes at their distance, if the sum is a word.** A region that
is not empty refuses a pointer exactly if its last address is not a word or the distance leads
beyond 64 bits. Otherwise the accesses at the pointer reach the bytes at the sum modulo the number
of words. These are the bytes at the distance exactly if the sum is a word, or if the region does
not contain the bytes that are reached. All this holds of the later states of the region as well. -/
theorem Region.pointer_reaches_its_bytes_iff (M : Model) (r : Region) (nonempty : r.size ≠ 0)
    (distance : Nat) :
    ((∃ fault, r.pointer M distance = .error fault) ↔
      2 ^ M.bits ≤ r.base.toNat + r.size - 1 ∨ UInt64.size ≤ r.base.toNat + distance) ∧
    ∀ p, r.pointer M distance = .ok p →
      ∀ next : Region, next.base = r.base → next.size = r.size → ∀ s : Scalar,
        p.Reaches next s ((r.base.toNat + distance) % 2 ^ M.bits) ∧
        (p.Reaches next s (r.base.toNat + distance) ↔
          r.base.toNat + distance < 2 ^ M.bits ∨
            ¬ next.contains p.address.bits (s.bytes M) = true) := by
  refine ⟨r.pointer_eq_error_iff M distance nonempty, ?_⟩
  intro p handed next base_eq size_eq s
  obtain ⟨words, address⟩ := of_pointer_eq_ok nonempty handed
  have reaches := p.reaches_address next s
  rw [address] at reaches
  refine ⟨reaches, ?_⟩
  by_cases small : r.base.toNat + distance < 2 ^ M.bits
  · rw [Nat.mod_eq_of_lt small] at reaches
    exact iff_of_true reaches (.inl small)
  · rw [or_iff_right small]
    exact p.reaches_iff_of_beyond (by rw [base_eq, size_eq]; omega)

/-- The last word of a region in a word of 32 bits, and an address that is none of the region in a
word of 64 bits. -/
theorem Region.pointer_reaches_its_bytes_iff_of_limits :
    let r : Region := ⟨0x1000, 16, .big, #[0x0a0b0c0d0e0f1011, 0x1213141516171819],
      by decide, by decide, rfl⟩
    let p : Pointer .hosted32 := ⟨.ofBits 0x100c⟩
    let q : Pointer .target64 := ⟨.ofBits 0x100001000⟩
    r.pointer .hosted32 12 = .ok p ∧ p.Reaches r .word (r.base.toNat + 12) ∧
      r.pointer .target64 (2 ^ 32) = .ok q ∧ q.Reaches r .byte (r.base.toNat + 2 ^ 32) := by
  intro r p q
  have handed : r.pointer .hosted32 12 = .ok p := by decide +kernel
  have handed' : r.pointer .target64 (2 ^ 32) = .ok q := by decide +kernel
  have first := ((pointer_reaches_its_bytes_iff .hosted32 r (by decide) 12).2 p handed r rfl rfl
    .word).2.2 (.inl (by decide))
  have second := ((pointer_reaches_its_bytes_iff .target64 r (by decide) (2 ^ 32)).2 q handed' r rfl
    rfl .byte).2.2 (.inl (by decide))
  exact ⟨handed, first, handed', second⟩

/-- In a word of 32 bits, a pointer to the distance `2 ^ 32` is handed out, and reaches the first
byte of the region. -/
theorem Region.pointer_comes_back :
    let r : Region := ⟨0x1000, 16, .little, #[0, 0], by decide, by decide, rfl⟩
    let p : Pointer .target32 := ⟨.ofBits 0x1000⟩
    r.pointer .target32 (2 ^ 32) = .ok p ∧ (∃ x, (p.load .byte).answer r = .ok x) ∧
      ¬ p.Reaches r .byte (r.base.toNat + 2 ^ 32) := by
  intro r p
  have loaded : ∃ x, (p.load .byte).answer r = .ok x := p.answer_load_iff.2 (by decide)
  refine ⟨by decide +kernel, loaded, fun reaches => ?_⟩
  exact absurd (reaches.load_iff.1 loaded).2 (by decide)

end MachineWord
