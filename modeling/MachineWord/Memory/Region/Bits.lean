import Mathlib
import MachineWord.Memory.Region.Patch

/-!
# The bits of a region

A bit of a memory is given by the address of its byte and by its number in the byte, the least
significant bit being number zero. Setting bits adds a set of bits to those that are set
already (`WithBits`). Which region this gives is decided by the set (`WithBits.unique`), and
setting first some bits and then others adds the union of both sets (`WithBits.trans`), so
neither the order nor a repetition matters.
-/

set_option autoImplicit false

namespace MachineWord

namespace Region

/-- A region has a byte at an address. -/
def Has (r : Region) (address : Nat) : Prop :=
  r.base.toNat ≤ address ∧ address < r.base.toNat + r.size

instance (r : Region) (address : Nat) : Decidable (r.Has address) :=
  inferInstanceAs (Decidable (_ ∧ _))

theorem contains_byte_iff (r : Region) (address : BitVec 64) :
    r.contains address 1 = true ↔ r.Has address.toNat := by
  rw [contains_iff, Has, Nat.succ_le_iff]

/-- Bit `j` of the byte at a distance from the base. -/
def bit (r : Region) (i j : Nat) : Bool := (r.byte i).toBitVec.getLsbD j

theorem byte_congr {r next : Region} {i : Nat} (same : ∀ j, next.bit i j = r.bit i j) :
    next.byte i = r.byte i :=
  UInt8.toBitVec_inj.1 (BitVec.eq_of_getLsbD_eq fun j _ => same j)

/-- A region that agrees with another one, except that some bits are set in it. -/
structure WithBits (r : Region) (bits : Set (Nat × Nat)) (next : Region) : Prop where
  base_eq : next.base = r.base
  size_eq : next.size = r.size
  order_eq : next.order = r.order
  bit_iff (i j : Nat) :
    next.bit i j = true ↔ r.bit i j = true ∨ (r.base.toNat + i, j) ∈ bits

namespace WithBits

variable {r next last : Region} {bits more : Set (Nat × Nat)}

/-- No bit has been set. -/
theorem refl (r : Region) : r.WithBits ∅ r :=
  ⟨rfl, rfl, rfl, fun _ _ => (or_iff_left (Set.notMem_empty _)).symm⟩

/-- Setting bits and then others sets the bits of both. -/
theorem trans (first : r.WithBits bits next) (second : next.WithBits more last) :
    r.WithBits (bits ∪ more) last where
  base_eq := second.base_eq.trans first.base_eq
  size_eq := second.size_eq.trans first.size_eq
  order_eq := second.order_eq.trans first.order_eq
  bit_iff i j := by
    rw [second.bit_iff, first.bit_iff, first.base_eq, Set.mem_union, or_assoc]

/-- The bits that are set decide what the region is afterwards. -/
theorem unique (first : r.WithBits bits next) (second : r.WithBits bits last) : next = last := by
  apply ext_bytes
  · rw [first.base_eq, second.base_eq]
  · rw [first.size_eq, second.size_eq]
  · rw [first.order_eq, second.order_eq]
  · intro i
    apply byte_congr
    intro j
    rw [Bool.eq_iff_iff, first.bit_iff, second.bit_iff]

/-- No bit is cleared. -/
theorem bit_of_bit (set : r.WithBits bits next) {i j : Nat} (held : r.bit i j = true) :
    next.bit i j = true :=
  (set.bit_iff i j).2 (.inl held)

/-- A byte of which no bit is set stays as it is. -/
theorem byte_eq (set : r.WithBits bits next) {i : Nat}
    (apart : ∀ j, (r.base.toNat + i, j) ∉ bits) : next.byte i = r.byte i := by
  apply byte_congr
  intro j
  rw [Bool.eq_iff_iff, set.bit_iff, or_iff_left (apart j)]

theorem has_iff (set : r.WithBits bits next) (address : Nat) :
    next.Has address ↔ r.Has address := by
  rw [Has, Has, set.base_eq, set.size_eq]

end WithBits

/-- Replacing a byte by itself or-ed with a mask sets the bits of the mask. -/
theorem Patched.withBits {r next : Region} {distance : Nat} {b : UInt8} {mask : BitVec 8}
    (patched : r.Patched distance [b] next)
    (or_eq : b.toBitVec = (r.byte distance).toBitVec ||| mask) :
    r.WithBits {x | x.1 = r.base.toNat + distance ∧ mask.getLsbD x.2 = true} next where
  base_eq := patched.base_eq
  size_eq := patched.size_eq
  order_eq := patched.order_eq
  bit_iff i j := by
    rw [bit, bit, patched.byte_eq, List.length_singleton, Set.mem_ofPred_eq]
    by_cases here : i = distance
    · rw [if_pos (by omega), here, Nat.sub_self, List.getD_cons_zero, or_eq, BitVec.getLsbD_or,
        Bool.or_eq_true, and_iff_right rfl]
    · rw [if_neg (by omega), or_iff_left fun both => here (by omega)]

end Region

end MachineWord
