import Mathlib
import MachineWord.Memory.Region.Bytes
import MachineWord.Model.Lemmas

/-!
# Swaps in a region

A swap of half a cell changes bytes of a cell, and a swap of a whole cell compares and
replaces cells. In terms of the bytes of the region they are one operation
(`swap_of_contains`): the number held by the bytes at the address is answered, and the bytes
are replaced by those of the new number if it is the expected one.
-/

set_option autoImplicit false

namespace MachineWord

theorem WordSize.two_pow_bits (size : WordSize) : 2 ^ size.bits = 256 ^ size.bytes := by
  cases size <;> rfl

namespace Region

/-! ## Exchanged cells -/

section Exchange

variable (r : Region) (cell : BitVec 64)

theorem convertCell_eq : r.convertCell cell = ofCellBytes (r.order.encode 8 cell.toNat) := by
  rw [convertCell, ByteOrder.convert_eq_decode_encode r.order cell.isLt]
  rfl

theorem cellBytes_convertCell :
    cellBytes (r.convertCell cell) = r.order.encode 8 cell.toNat := by
  rw [convertCell_eq, cellBytes_ofCellBytes (ByteOrder.length_encode _ _ _)]

theorem convertCell_convertCell : r.convertCell (r.convertCell cell) = cell := by
  apply BitVec.eq_of_toNat_eq
  have bound : r.order.convert 8 cell.toNat < 2 ^ 64 := ByteOrder.convert_lt r.order cell.isLt
  rw [convertCell, convertCell, BitVec.toNat_ofNat, BitVec.toNat_ofNat, Nat.mod_eq_of_lt bound,
    ByteOrder.convert_convert r.order cell.isLt, Nat.mod_eq_of_lt cell.isLt]

/-- The exchanged cell is the number that its bytes hold in the order of the region. -/
theorem convertCell_eq_ofNat_decode :
    r.convertCell cell = BitVec.ofNat 64 (r.order.decode (cellBytes cell)) := by
  have back := r.cellBytes_convertCell (r.convertCell cell)
  rw [convertCell_convertCell] at back
  apply BitVec.eq_of_toNat_eq
  have bound : (r.convertCell cell).toNat < 2 ^ 64 := (r.convertCell cell).isLt
  rw [back, ByteOrder.decode_encode, BitVec.toNat_ofNat]
  omega

theorem eq_convertCell_iff {r : Region} {cell number : BitVec 64} :
    cell = r.convertCell number ↔ r.convertCell cell = number := by
  constructor
  · rintro rfl
    exact r.convertCell_convertCell number
  · rintro rfl
    exact (r.convertCell_convertCell cell).symm

end Exchange

/-! ## Swaps -/

variable {r : Region} {size : WordSize} {address : BitVec 64}

/-- The word that the bytes at a distance hold in the order of the region. -/
def wordAt (r : Region) (size : WordSize) (distance : Nat) : BitVec size.bits :=
  BitVec.ofNat size.bits (r.order.decode (r.bytesAt distance size.bytes))

theorem toNat_wordAt (r : Region) (size : WordSize) (distance : Nat) :
    (r.wordAt size distance).toNat = r.order.decode (r.bytesAt distance size.bytes) := by
  have bound := ByteOrder.decode_lt r.order (r.bytesAt distance size.bytes)
  rw [length_bytesAt, ← size.two_pow_bits] at bound
  rw [wordAt, BitVec.toNat_ofNat, Nat.mod_eq_of_lt bound]

theorem checkSwapAddress_of_aligned (h : address.toNat % size.bytes = 0) :
    checkSwapAddress size address = .ok () := if_pos h

theorem checkSwapAddress_of_unaligned (h : address.toNat % size.bytes ≠ 0) :
    checkSwapAddress size address = .error (.unalignedSwap size.bits address.toNat) := if_neg h

theorem swap_of_unaligned (h : address.toNat % size.bytes ≠ 0) (expected new : BitVec size.bits) :
    r.swap size address expected new = .error (.unalignedSwap size.bits address.toNat) := by
  have refused := checkSwapAddress_of_unaligned h
  cases size with
  | w32 =>
      change r.swapHalf address expected new = _
      unfold swapHalf
      rw [refused]
      rfl
  | w64 =>
      change r.swapWhole address expected new = _
      unfold swapWhole
      rw [refused]
      rfl

theorem swap_of_not_contains (aligned : address.toNat % size.bytes = 0)
    (h : ¬ r.contains address size.bytes = true) (expected new : BitVec size.bits) :
    r.swap size address expected new =
      .error (.outside size.bytes address.toNat r.base.toNat (r.base.toNat + r.size)) := by
  have checked := checkSwapAddress_of_aligned aligned
  cases size with
  | w32 =>
      have outside : r.distance address 4 = _ := distance_of_not_contains h
      change r.swapHalf address expected new = _
      unfold swapHalf
      rw [checked, outside]
      rfl
  | w64 =>
      have outside : r.distance address 8 = _ := distance_of_not_contains h
      change r.swapWhole address expected new = _
      unfold swapWhole
      rw [checked, outside]
      rfl

/-- A swap of half a cell. -/
theorem swapHalf_of_contains {held : BitVec 32} (aligned : address.toNat % 4 = 0)
    (h : r.contains address 4 = true)
    (same : held = BitVec.ofNat 32 (r.order.decode (r.bytesAt (address.toNat - r.base.toNat) 4)))
    (expected new : BitVec 32) :
    ∃ next, r.swapHalf address expected new = .ok (held, next) ∧
      (held = expected →
        Patched r (address.toNat - r.base.toNat) (r.order.encode 4 new.toNat) next) ∧
      (held ≠ expected → next = r) := by
  obtain ⟨reach, whole, -⟩ := reach_of_contains h
  have multiple := r.base_aligned
  have range := (r.contains_iff address 4).1 h
  have checked : checkSwapAddress .w32 address = .ok () := checkSwapAddress_of_aligned aligned
  unfold swapHalf
  rw [checked, distance_of_contains h]
  simp only [bind, Except.bind]
  generalize place : address.toNat - r.base.toNat = distance at reach same ⊢
  have cells : distance / 8 < r.cells.size := by omega
  have fits : distance % 8 + 4 ≤ 8 := by omega
  rw [r.cellAt_eq cells]
  simp only
  rw [slice_eq (by rwa [length_cellBytes]), r.bytesAt_of_cell fits]
  simp only [← same]
  by_cases found : held = expected
  · have length : (r.order.encode 4 new.toNat).length = 4 := ByteOrder.length_encode _ _ _
    refine ⟨_, ?_, fun _ => r.patched_setCell _ cells (by rwa [length]),
      fun missed => absurd found missed⟩
    rw [if_pos found, splice_eq (by rwa [length, length_cellBytes])]
    rfl
  · exact ⟨r, if_neg found, fun missed => absurd missed found, fun _ => rfl⟩

/-- A swap of a whole cell. -/
theorem swapWhole_of_contains {held : BitVec 64} (aligned : address.toNat % 8 = 0)
    (h : r.contains address 8 = true)
    (same : held = BitVec.ofNat 64 (r.order.decode (r.bytesAt (address.toNat - r.base.toNat) 8)))
    (expected new : BitVec 64) :
    ∃ next, r.swapWhole address expected new = .ok (held, next) ∧
      (held = expected →
        Patched r (address.toNat - r.base.toNat) (r.order.encode 8 new.toNat) next) ∧
      (held ≠ expected → next = r) := by
  obtain ⟨reach, whole, -⟩ := reach_of_contains h
  have multiple := r.base_aligned
  have range := (r.contains_iff address 8).1 h
  have checked : checkSwapAddress .w64 address = .ok () := checkSwapAddress_of_aligned aligned
  unfold swapWhole
  rw [checked, distance_of_contains h]
  simp only [bind, Except.bind]
  generalize place : address.toNat - r.base.toNat = distance at reach same ⊢
  have cells : distance / 8 < r.cells.size := by omega
  have begins : distance % 8 = 0 := by omega
  have bytes : cellBytes (r.cells.getD (distance / 8) 0) = r.bytesAt distance 8 := by
    rw [← r.bytesAt_of_cell (by omega), begins, List.drop_zero, List.take_of_length_le (by simp)]
  have exchanged : r.convertCell (r.cells.getD (distance / 8) 0) = held := by
    rw [convertCell_eq_ofNat_decode, bytes, same]
  rw [r.cellAt_eq cells]
  simp only [eq_convertCell_iff, exchanged]
  by_cases found : held = expected
  · have length : (r.order.encode 8 new.toNat).length = 8 := ByteOrder.length_encode _ _ _
    have patched := r.patched_setCell (r.order.encode 8 new.toNat) cells (by omega)
    rw [begins, overlay_whole (by rw [length, length_cellBytes]), ← convertCell_eq] at patched
    exact ⟨_, if_pos found, fun _ => patched, fun missed => absurd found missed⟩
  · exact ⟨r, if_neg found, fun missed => absurd missed found, fun _ => rfl⟩

/-- A swap answers the word that was held, and replaces its bytes if it was the expected one. -/
theorem swap_of_contains (aligned : address.toNat % size.bytes = 0)
    (h : r.contains address size.bytes = true) (expected new : BitVec size.bits) :
    ∃ next, r.swap size address expected new =
        .ok (r.wordAt size (address.toNat - r.base.toNat), next) ∧
      (r.wordAt size (address.toNat - r.base.toNat) = expected →
        Patched r (address.toNat - r.base.toNat) (r.order.encode size.bytes new.toNat) next) ∧
      (r.wordAt size (address.toNat - r.base.toNat) ≠ expected → next = r) := by
  cases size with
  | w32 => exact swapHalf_of_contains aligned h rfl expected new
  | w64 => exact swapWhole_of_contains aligned h rfl expected new

end Region

end MachineWord
