import Mathlib
import MachineWord.ByteOrder.Lemmas
import MachineWord.Model.Lemmas
import MachineWord.Value.Stream

/-!
# Values as numbers and as bytes

The pattern of a value is a number below the number of words, and every such number is the
pattern of a value. The bytes that a value is written as are read back as the value
(`read?_toBytes_append`).
-/

set_option autoImplicit false

namespace MachineWord

namespace Value

variable {M : Model} {v : View}

theorem toNat_bits_lt (x : Value M v) : x.bits.toNat < 2 ^ M.bits := by
  rw [← truncate_bits, Model.toNat_truncate]
  exact Nat.mod_lt _ (Nat.two_pow_pos _)

theorem toNat_bits_ofBits (pattern : BitVec 64) :
    (ofBits pattern : Value M v).bits.toNat = pattern.toNat % 2 ^ M.bits := by
  rw [bits_ofBits, Model.toNat_truncate]

theorem toNat_bits_zero : (zero : Value M v).bits.toNat = 0 := by
  rw [zero, toNat_bits_ofBits]
  exact Nat.zero_mod _

/-- The pattern of the value made from a number that fits into a word is that number. -/
theorem toNat_bits_ofNat {n : Nat} (h : n < 256 ^ M.bytes) :
    (ofBits (BitVec.ofNat 64 n) : Value M v).bits.toNat = n := by
  have small : n < 2 ^ M.bits := M.two_pow_bits ▸ h
  have whole : n < 2 ^ 64 := Nat.lt_of_lt_of_le small (Nat.pow_le_pow_right (by decide) M.bits_le)
  rw [bits_ofBits, Model.toNat_truncate, BitVec.toNat_ofNat, Nat.mod_eq_of_lt whole,
    Nat.mod_eq_of_lt small]

/-! ## Bytes -/

@[simp] theorem length_toBytes (order : ByteOrder) (x : Value M v) :
    (x.toBytes order).length = M.bytes :=
  order.length_encode M.bytes x.bits.toNat

theorem ofBytes_toBytes (order : ByteOrder) (x : Value M v) :
    (ofBytes order (x.toBytes order) : Value M v) = x := by
  have small : x.bits.toNat < 256 ^ M.bytes := M.two_pow_bits ▸ x.toNat_bits_lt
  rw [ofBytes, toBytes, ByteOrder.decode_encode, Nat.mod_eq_of_lt small, BitVec.ofNat_toNat,
    BitVec.setWidth_eq, ofBits_bits]

/-- A value is read back from its bytes, whatever follows them. -/
theorem read?_toBytes_append (order : ByteOrder) (x : Value M v) (rest : List UInt8) :
    read? order (x.toBytes order ++ rest) = some (x, rest) := by
  have length := x.length_toBytes order
  rw [read?, if_pos (by rw [List.length_append, length]; omega), List.take_left' length,
    List.drop_left' length, ofBytes_toBytes]

end Value

end MachineWord
