import Mathlib
import MachineWord.Cursor.Host
import MachineWord.Memory.Related
import MachineWord.Proofs.Memory.Refinement
import MachineWord.Proofs.Memory.Steps

/-!
# Host memory that agrees with a region

A buffer of the machine and a little region at the same place agree if they hold the same bytes.
The region keeps its bytes in cells and refuses what lies outside; the machine keeps a byte at
every address and refuses nothing. As long as an access stays within the buffer the difference
cannot be seen: loads, stores and swaps are alike in both (`alike_store`, `alike_swap`), and so is
everything that a pointer does with them.
-/

set_option autoImplicit false

namespace MachineWord

/-- All bytes of the span are among a number of bytes at an address. -/
def Span.Within (base : BitVec 64) (size : Nat) (x : Span) : Prop :=
  base.toNat ≤ x.address ∧ x.address + x.count ≤ base.toNat + size

instance (base : BitVec 64) (size : Nat) (x : Span) : Decidable (x.Within base size) :=
  inferInstanceAs (Decidable (_ ∧ _))

/-- A buffer and a little region are at one place and hold the same bytes. -/
structure Agrees (base : BitVec 64) (size : Nat) (b : HostBuffer) (r : Region) : Prop where
  host_base : b.base = base
  host_size : b.size = size
  base_eq : r.base = base
  size_eq : r.size = size
  order_eq : r.order = .little
  byte_eq (i : Nat) (inside : i < size) : r.byte i = b.memory.byte (base + BitVec.ofNat 64 i)

/-- The address of a byte of a span, by its distance from the base. -/
theorem Span.Within.address_add {base address : BitVec 64} {size count : Nat}
    (within : Span.Within base size ⟨address.toNat, count⟩) (i : Nat) :
    address + BitVec.ofNat 64 i = base + BitVec.ofNat 64 (address.toNat - base.toNat + i) := by
  have above : base.toNat ≤ address.toNat := within.1
  apply BitVec.eq_of_toNat_eq
  simp only [BitVec.toNat_add, BitVec.toNat_ofNat]
  omega

namespace HostBuffer

variable {b : HostBuffer} {kind : WordSize} {address : BitVec 64}

/-- The word that the bytes at an address hold. -/
def wordAt (b : HostBuffer) (kind : WordSize) (address : BitVec 64) : BitVec kind.bits :=
  BitVec.ofNat kind.bits (ByteOrder.little.decode (b.memory.bytesAt address kind.bytes))

/-- The buffer with bytes put at an address. -/
def put (b : HostBuffer) (address : BitVec 64) (bytes : List UInt8) : HostBuffer :=
  { b with memory := b.memory.put address bytes }

theorem swap_of_unaligned (unaligned : address.toNat % kind.bytes ≠ 0)
    (expected new : BitVec kind.bits) :
    Memory.swap b kind address expected new = .error (.unalignedSwap kind.bits address.toNat) := by
  have refused := Region.checkSwapAddress_of_unaligned unaligned
  change (b.memory.swap kind address expected new >>= _) = _
  rw [HostMemory.swap, refused]
  rfl

theorem swap_of_aligned (aligned : address.toNat % kind.bytes = 0)
    (expected new : BitVec kind.bits) :
    Memory.swap b kind address expected new = .ok (b.wordAt kind address,
      if b.wordAt kind address = expected then
        b.put address (ByteOrder.little.encode kind.bytes new.toNat)
      else b) := by
  have checked := Region.checkSwapAddress_of_aligned aligned
  change (b.memory.swap kind address expected new >>= _) = _
  rw [HostMemory.swap, checked]
  by_cases found : b.wordAt kind address = expected
  · rw [if_pos found]
    change ((if b.wordAt kind address = expected then _ else _) >>= _) = _
    rw [if_pos found]
    rfl
  · rw [if_neg found]
    change ((if b.wordAt kind address = expected then _ else _) >>= _) = _
    rw [if_neg found]
    rfl

end HostBuffer

namespace Agrees

variable {base : BitVec 64} {size : Nat} {b : HostBuffer} {r : Region}
  (agrees : Agrees base size b r)

include agrees

section Bytes

variable {address : BitVec 64} {count : Nat} (within : Span.Within base size ⟨address.toNat, count⟩)

include within

theorem contains : r.contains address count = true := by
  rw [Region.contains_iff, agrees.base_eq, agrees.size_eq]
  exact within

theorem bytesAt_eq :
    r.bytesAt (address.toNat - base.toNat) count = b.memory.bytesAt address count := by
  have range : base.toNat ≤ address.toNat ∧ address.toNat + count ≤ base.toNat + size := within
  rw [Region.bytesAt, HostMemory.bytesAt]
  apply List.ext_getElem
  · simp
  · intro i first second
    simp only [List.getElem_map, List.getElem_range', List.getElem_range]
    rw [within.address_add, Nat.one_mul]
    apply agrees.byte_eq
    simp at second
    omega

theorem load_eq : Memory.load b address count = Memory.load r address count := by
  have loaded := Region.load_of_contains (agrees.contains within)
  rw [agrees.base_eq, agrees.bytesAt_eq within] at loaded
  exact loaded.symm

theorem loadNat_eq : Memory.loadNat b count address = Memory.loadNat r count address := by
  change (Memory.load b address count >>= fun bytes => pure (ByteOrder.little.decode bytes)) =
    (Memory.load r address count >>= fun bytes => pure (r.order.decode bytes))
  rw [agrees.load_eq within, agrees.order_eq]

end Bytes

/-- The same bytes put at an address leave memories that agree. -/
theorem put {address : BitVec 64} {bytes : List UInt8} {next : Region}
    (within : Span.Within base size ⟨address.toNat, bytes.length⟩)
    (patched : r.Patched (address.toNat - base.toNat) bytes next) :
    Agrees base size (b.put address bytes) next where
  host_base := agrees.host_base
  host_size := agrees.host_size
  base_eq := patched.base_eq.trans agrees.base_eq
  size_eq := patched.size_eq.trans agrees.size_eq
  order_eq := patched.order_eq.trans agrees.order_eq
  byte_eq i inside := by
    have range : base.toNat ≤ address.toNat ∧ address.toNat + bytes.length ≤ base.toNat + size :=
      within
    have bounded : base.toNat + size < 2 ^ 64 := by
      have bound := r.end_lt
      rwa [agrees.base_eq, agrees.size_eq] at bound
    -- An address in front of the bytes that are put wraps to a distance beyond their number.
    have distance : (base + BitVec.ofNat 64 i - address).toNat =
        if address.toNat - base.toNat ≤ i then i - (address.toNat - base.toNat)
        else 2 ^ 64 - (address.toNat - base.toNat - i) := by
      simp only [BitVec.toNat_sub, BitVec.toNat_add, BitVec.toNat_ofNat]
      split <;> omega
    rw [patched.byte_eq, agrees.byte_eq i inside]
    change _ = bytes.getD (base + BitVec.ofNat 64 i - address).toNat _
    rcases Nat.lt_or_ge i (address.toNat - base.toNat) with early | reached
    · rw [if_neg (by omega)] at distance
      rw [if_neg (by omega), distance, List.getD_eq_default _ _ (by omega)]
    · rw [if_pos reached] at distance
      by_cases covered : i < address.toNat - base.toNat + bytes.length
      · rw [if_pos ⟨reached, covered⟩, distance, List.getD_eq_getElem _ _ (by omega),
          List.getD_eq_getElem _ _ (by omega)]
      · rw [if_neg (by omega), distance, List.getD_eq_default _ _ (by omega)]

/-! ## Primitive accesses -/

section Primitive

variable {address : BitVec 64}

theorem alike_store {bytes : List UInt8}
    (within : Span.Within base size ⟨address.toNat, bytes.length⟩) :
    Access.Alike (Agrees base size) b r
      (.update fun memory => Memory.store memory address bytes)
      (.update fun memory => Memory.store memory address bytes) := by
  obtain ⟨next, stored, patched⟩ := Region.store_of_contains (agrees.contains within)
  rw [agrees.base_eq] at patched
  have after : Agrees base size (b.put address bytes) next := agrees.put within patched
  exact .of_ok (Access.update_of_ok rfl) (Access.update_of_ok stored) after

theorem alike_storeNat {count : Nat} (within : Span.Within base size ⟨address.toNat, count⟩)
    (n : Nat) :
    Access.Alike (Agrees base size) b r
      (.update fun memory => Memory.storeNat memory count address n)
      (.update fun memory => Memory.storeNat memory count address n) := by
  obtain ⟨next, stored, patched⟩ := Region.storeNat_of_contains (agrees.contains within) n
  have length : (ByteOrder.little.encode count n).length = count :=
    ByteOrder.little.length_encode count n
  rw [agrees.base_eq, agrees.order_eq] at patched
  have after : Agrees base size (b.put address (ByteOrder.little.encode count n)) next :=
    agrees.put (by rwa [length]) patched
  exact .of_ok (Access.update_of_ok rfl) (Access.update_of_ok stored) after

theorem wordAt_eq {kind : WordSize} (within : Span.Within base size ⟨address.toNat, kind.bytes⟩) :
    r.wordAt kind (address.toNat - base.toNat) = b.wordAt kind address := by
  rw [Region.wordAt, HostBuffer.wordAt, agrees.bytesAt_eq within, agrees.order_eq]

theorem alike_swap (kind : WordSize) (within : Span.Within base size ⟨address.toNat, kind.bytes⟩)
    (expected new : BitVec kind.bits) :
    Access.Alike (Agrees base size) b r
      (.exchange fun memory => Memory.swap memory kind address expected new)
      (.exchange fun memory => Memory.swap memory kind address expected new) := by
  by_cases aligned : address.toNat % kind.bytes = 0
  · obtain ⟨next, swapped, found, missed⟩ :=
      Region.swap_of_contains aligned (agrees.contains within) expected new
    rw [agrees.base_eq, agrees.wordAt_eq within] at swapped found missed
    refine .of_ok (Access.exchange_of_ok (HostBuffer.swap_of_aligned aligned expected new))
      (Access.exchange_of_ok swapped) ?_
    by_cases held : b.wordAt kind address = expected
    · have length : (ByteOrder.little.encode kind.bytes new.toNat).length = kind.bytes :=
        ByteOrder.little.length_encode _ _
      have patched := found held
      rw [agrees.order_eq] at patched
      rw [if_pos held]
      exact agrees.put (by rwa [length]) patched
    · rw [if_neg held, missed held]
      exact agrees
  · exact .of_error (Access.exchange_of_error (HostBuffer.swap_of_unaligned aligned expected new))
      (Access.exchange_of_error (Region.swap_of_unaligned aligned expected new)) agrees

end Primitive

end Agrees

end MachineWord
