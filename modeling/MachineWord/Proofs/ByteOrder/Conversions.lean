import Mathlib
import MachineWord.Memory.Region.Swap
import MachineWord.Width

/-!
# Conversions between byte orders

The readers, the writers and the exchange of a byte order are defined independently of each other,
by recursions on the bytes from either end. On the numbers and the bytes of one width they are one
bijection: reading and writing undo each other, the exchange is the number of the exchanged bytes
(`encode_little_convert`), and so it is injective (`convert_eq_convert_iff`).

A swap of a whole cell compares cells instead of numbers: the expected number is exchanged, and the
cell is not read in the order of the region. Since the exchange is injective, this is the swap that
reads the cell and compares numbers (`Region.swapWhole_eq_swapNumbers`).
-/

set_option autoImplicit false

namespace MachineWord

namespace Width

theorem two_pow_bits (w : Width) : 2 ^ w.bits = 256 ^ w.bytes := by
  cases w <;> rfl

/-- A number of a width fits into the bytes of the width. -/
theorem toNat_lt {w : Width} (v : BitVec w.bits) : v.toNat < 256 ^ w.bytes := by
  have bound := v.isLt
  rwa [w.two_pow_bits] at bound

end Width

namespace ByteOrder

/-! ## One bijection -/

section Conversion

variable (o : ByteOrder) {n u v : Nat}

theorem decode_encode_of_lt (small : v < 256 ^ n) : o.decode (o.encode n v) = v := by
  rw [decode_encode, Nat.mod_eq_of_lt small]

/-- The bytes of the exchanged number are the bytes of the number in the order exchanged for. -/
theorem encode_little_convert (small : v < 256 ^ n) :
    encode little n (o.convert n v) = o.encode n v := by
  have written := encode_decode little (o.encode n v)
  rw [length_encode] at written
  rw [convert_eq_decode_encode o small, written]

/-- The exchange takes numbers apart. -/
theorem convert_eq_convert_iff (first : u < 256 ^ n) (second : v < 256 ^ n) :
    o.convert n u = o.convert n v ↔ u = v := by
  constructor
  · intro same
    calc
      u = o.convert n (o.convert n u) := (o.convert_convert first).symm
      _ = o.convert n (o.convert n v) := by rw [same]
      _ = v := o.convert_convert second
  · rintro rfl
    rfl

end Conversion

end ByteOrder

namespace Region

/-! ## The number that a cell holds -/

section Numbers

variable (r : Region)

theorem toNat_convertCell (cell : BitVec 64) :
    (r.convertCell cell).toNat = r.order.decode (cellBytes cell) := by
  have bound := r.order.decode_lt (cellBytes cell)
  rw [length_cellBytes] at bound
  rw [convertCell_eq_ofNat_decode, BitVec.toNat_ofNat, Nat.mod_eq_of_lt (by omega)]

/-- A cell is the exchanged number exactly when its bytes hold the number. -/
theorem eq_convertCell_iff_decode (cell number : BitVec 64) :
    cell = r.convertCell number ↔ r.order.decode (cellBytes cell) = number.toNat := by
  rw [eq_convertCell_iff, ← toNat_convertCell, BitVec.toNat_inj]

/-- Compares and replaces the number that a whole cell holds. The comparison is between numbers,
and the bytes of the cell are read and written in the order of the region. -/
def swapNumbers (address : BitVec 64) (expected new : BitVec 64) :
    Except Fault (BitVec 64 × Region) := do
  checkSwapAddress .w64 address
  let distance ← r.distance address 8
  let cell ← r.cellAt (distance / 8)
  let held := r.order.decode (cellBytes cell)
  if held = expected.toNat then
    return (.ofNat 64 held,
      r.setCell (distance / 8) (ofCellBytes (r.order.encode 8 new.toNat)))
  else return (.ofNat 64 held, r)

/-- Comparing cells with the exchanged number is comparing numbers. -/
theorem swapWhole_eq_swapNumbers (address expected new : BitVec 64) :
    r.swapWhole address expected new = r.swapNumbers address expected new := by
  unfold swapWhole swapNumbers
  refine bind_congr fun _ => bind_congr fun distance => bind_congr fun cell => ?_
  simp only [eq_convertCell_iff_decode]
  rw [r.convertCell_eq_ofNat_decode cell, r.convertCell_eq new]

end Numbers

end Region

/-- **The conversions of a byte order are one bijection.** For each width and each order, reading
gives the number that was written, and writing gives the bytes that were read; the bytes of the two
orders are reversed to each other; the exchange is its own inverse, is the number that the written
bytes hold with the least significant byte first, and takes numbers apart. So the swap of a whole
cell, which compares a cell with an exchanged number, is the swap that compares the number held by
the cell. -/
theorem byte_orders_convert_losslessly (w : Width) (o : ByteOrder) :
    (∀ v : BitVec w.bits, o.decode (o.encode w.bytes v.toNat) = v.toNat) ∧
      (∀ bytes : Vector UInt8 w.bytes, o.decode bytes.toList < 2 ^ w.bits ∧
        o.encode w.bytes (o.decode bytes.toList) = bytes.toList) ∧
      (∀ v : BitVec w.bits, ByteOrder.big.encode w.bytes v.toNat =
        (ByteOrder.little.encode w.bytes v.toNat).reverse) ∧
      (∀ v : BitVec w.bits, o.convert w.bytes v.toNat < 2 ^ w.bits ∧
        o.convert w.bytes (o.convert w.bytes v.toNat) = v.toNat ∧
        o.convert w.bytes v.toNat = ByteOrder.little.decode (o.encode w.bytes v.toNat) ∧
        ByteOrder.little.encode w.bytes (o.convert w.bytes v.toNat) = o.encode w.bytes v.toNat) ∧
      (∀ u v : BitVec w.bits, o.convert w.bytes u.toNat = o.convert w.bytes v.toNat ↔ u = v) ∧
      ∀ (r : Region) (address expected new : BitVec 64),
        (∀ cell, cell = r.convertCell expected ↔
          r.order.decode (Region.cellBytes cell) = expected.toNat) ∧
        r.swapWhole address expected new = r.swapNumbers address expected new := by
  refine ⟨fun v => o.decode_encode_of_lt (Width.toNat_lt v), fun bytes => ?_,
    fun v => ByteOrder.encode_big _ _, fun v => ?_, fun u v => ?_, fun r address expected new =>
      ⟨fun cell => r.eq_convertCell_iff_decode cell expected,
        r.swapWhole_eq_swapNumbers address expected new⟩⟩
  · have bound := o.decode_lt bytes.toList
    have back := o.encode_decode bytes.toList
    rw [Vector.length_toList] at bound back
    exact ⟨by rwa [w.two_pow_bits], back⟩
  · have small := Width.toNat_lt v
    exact ⟨by rw [w.two_pow_bits]; exact o.convert_lt small, o.convert_convert small,
      o.convert_eq_decode_encode small, o.encode_little_convert small⟩
  · rw [o.convert_eq_convert_iff (Width.toNat_lt u) (Width.toNat_lt v), BitVec.toNat_inj]

end MachineWord
