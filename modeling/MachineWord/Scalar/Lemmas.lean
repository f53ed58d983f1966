import Mathlib
import MachineWord.Scalar
import MachineWord.Value.Lemmas

/-!
# Coding of scalars

The code of a value fits into the bytes of its kind (`encode_lt`). Decoding undoes coding
(`decode_encode`). Coding undoes decoding for all kinds but one (`encode_decode`): a boolean
is true for every byte other than zero.
-/

set_option autoImplicit false

namespace MachineWord

namespace Scalar

variable (M : Model)

@[simp] theorem bytes_word : bytes M .word = M.bytes := rfl

/-- The code of a value fits into the bytes of its kind. -/
theorem encode_lt (s : Scalar) (x : s.Carrier M) : s.encode M x < 256 ^ s.bytes M := by
  cases s with
  | boolean => cases x <;> simp [encode, bytes]
  | byte => exact (Int8.toBitVec x).isLt
  | short => exact (Int16.toBitVec x).isLt
  | char => exact UInt16.toNat_lt x
  | int => exact (Int32.toBitVec x).isLt
  | float => exact BitVec.isLt x
  | long => exact (Int64.toBitVec x).isLt
  | double => exact BitVec.isLt x
  | word => exact M.two_pow_bits ▸ Value.toNat_bits_lt x
  | reference => exact M.two_pow_bits ▸ Value.toNat_bits_lt x

/-- Decoding undoes coding. -/
theorem decode_encode (s : Scalar) (x : s.Carrier M) : s.decode M (s.encode M x) = x := by
  cases s with
  | boolean => cases x <;> rfl
  | byte =>
    have same (n : Int8) : Int8.ofBitVec (BitVec.ofNat 8 n.toBitVec.toNat) = n := by simp
    exact same x
  | short =>
    have same (n : Int16) : Int16.ofBitVec (BitVec.ofNat 16 n.toBitVec.toNat) = n := by simp
    exact same x
  | char => exact UInt16.ofNat_toNat
  | int =>
    have same (n : Int32) : Int32.ofBitVec (BitVec.ofNat 32 n.toBitVec.toNat) = n := by simp
    exact same x
  | float =>
    have same (p : BitVec 32) : BitVec.ofNat 32 p.toNat = p := by simp
    exact same x
  | long =>
    have same (n : Int64) : Int64.ofBitVec (BitVec.ofNat 64 n.toBitVec.toNat) = n := by simp
    exact same x
  | double =>
    have same (p : BitVec 64) : BitVec.ofNat 64 p.toNat = p := by simp
    exact same x
  | word =>
    have same (y : Word M) : (Value.ofBits (BitVec.ofNat 64 y.bits.toNat) : Word M) = y := by simp
    exact same x
  | reference =>
    have same (y : Reference M) :
        (Value.ofBits (BitVec.ofNat 64 y.bits.toNat) : Reference M) = y := by simp
    exact same x

/-- Coding undoes decoding of numbers that fit, for all kinds but booleans. -/
theorem encode_decode (s : Scalar) (h : s ≠ boolean) {n : Nat} (hn : n < 256 ^ s.bytes M) :
    s.encode M (s.decode M n) = n := by
  cases s with
  | boolean => exact absurd rfl h
  | byte => exact Nat.mod_eq_of_lt hn
  | short => exact Nat.mod_eq_of_lt hn
  | char => exact Nat.mod_eq_of_lt hn
  | int => exact Nat.mod_eq_of_lt hn
  | float => exact Nat.mod_eq_of_lt hn
  | long => exact Nat.mod_eq_of_lt hn
  | double => exact Nat.mod_eq_of_lt hn
  | word => exact Value.toNat_bits_ofNat hn
  | reference => exact Value.toNat_bits_ofNat hn

end Scalar

end MachineWord
