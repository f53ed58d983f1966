import Mathlib
import MachineWord.ByteOrder

/-!
# Laws of byte orders

A number below `256 ^ n` fits into `n` bytes. Reading undoes writing up to the numbers that
`n` bytes can hold (`decode_encode`), writing undoes reading (`encode_decode`), and the two
orders write one number in reverse of each other (`encode_big`). The exchange of a value with
its bytes in a given order is its own inverse (`convert_convert`).
-/

set_option autoImplicit false

namespace MachineWord

namespace ByteOrder

/-! ## Ranges -/

theorem ofLittleBytes_lt (bytes : List UInt8) :
    ofLittleBytes bytes < 256 ^ bytes.length := by
  induction bytes with
  | nil => simp [ofLittleBytes]
  | cons b rest ih =>
    have hb : b.toNat < 256 := b.toNat_lt
    simp only [ofLittleBytes, List.length_cons, Nat.pow_succ]
    omega

/-! ## Shifts by bytes -/

theorem shiftLeft_bytes (v n : Nat) : v <<< (8 * n) = v * 256 ^ n := by
  rw [Nat.shiftLeft_eq, Nat.pow_mul]

theorem shiftRight_bytes (v n : Nat) : v >>> (8 * n) = v / 256 ^ n := by
  rw [Nat.shiftRight_eq_div_pow, Nat.pow_mul]

/-! ## Most significant byte first is the reverse -/

theorem bigBytes_succ (n v : Nat) :
    bigBytes (n + 1) v = UInt8.ofNat (v / 256 ^ n) :: bigBytes n v := by
  rw [bigBytes, shiftRight_bytes]

theorem ofBigBytes_cons (b : UInt8) (rest : List UInt8) :
    ofBigBytes (b :: rest) = b.toNat * 256 ^ rest.length + ofBigBytes rest := by
  rw [ofBigBytes, shiftLeft_bytes]

theorem bigBytes_succ_eq_append (n v : Nat) :
    bigBytes (n + 1) v = bigBytes n (v / 256) ++ [UInt8.ofNat v] := by
  induction n generalizing v with
  | zero => simp [bigBytes]
  | succ n ih =>
    rw [bigBytes_succ, ih, bigBytes_succ, Nat.div_div_eq_div_mul, Nat.pow_succ, Nat.mul_comm]
    rfl

theorem bigBytes_eq_reverse (n v : Nat) : bigBytes n v = (littleBytes n v).reverse := by
  induction n generalizing v with
  | zero => rfl
  | succ n ih => rw [bigBytes_succ_eq_append, ih, littleBytes, List.reverse_cons]

theorem ofLittleBytes_append_singleton (bytes : List UInt8) (b : UInt8) :
    ofLittleBytes (bytes ++ [b]) = b.toNat * 256 ^ bytes.length + ofLittleBytes bytes := by
  induction bytes with
  | nil => simp [ofLittleBytes]
  | cons c rest ih =>
    simp only [List.cons_append, ofLittleBytes, ih, List.length_cons, Nat.pow_succ]
    grind

theorem ofBigBytes_eq_reverse (bytes : List UInt8) :
    ofBigBytes bytes = ofLittleBytes bytes.reverse := by
  induction bytes with
  | nil => rfl
  | cons b rest ih =>
    rw [ofBigBytes_cons, ih, List.reverse_cons, ofLittleBytes_append_singleton, List.length_reverse]

/-- The bytes of a number in one order are its bytes in the other order, reversed. -/
theorem encode_big (n v : Nat) : encode big n v = (encode little n v).reverse :=
  bigBytes_eq_reverse n v

theorem decode_big (bytes : List UInt8) : decode big bytes = decode little bytes.reverse :=
  ofBigBytes_eq_reverse bytes

/-! ## Reading and writing undo each other -/

theorem ofLittleBytes_littleBytes (n v : Nat) : ofLittleBytes (littleBytes n v) = v % 256 ^ n := by
  induction n generalizing v with
  | zero => simp [littleBytes, ofLittleBytes, Nat.mod_one]
  | succ n ih =>
    rw [littleBytes, ofLittleBytes, ih, Nat.pow_succ, Nat.mul_comm (256 ^ n), Nat.mod_mul]
    rfl

theorem littleBytes_ofLittleBytes (bytes : List UInt8) :
    littleBytes bytes.length (ofLittleBytes bytes) = bytes := by
  induction bytes with
  | nil => rfl
  | cons b rest ih =>
    have hb : b.toNat < 256 := b.toNat_lt
    have hdiv : (b.toNat + 256 * ofLittleBytes rest) / 256 = ofLittleBytes rest := by omega
    have hhead : UInt8.ofNat (b.toNat + 256 * ofLittleBytes rest) = b := by
      apply UInt8.toNat_inj.1
      rw [UInt8.toNat_ofNat']
      omega
    rw [List.length_cons, ofLittleBytes, littleBytes, hdiv, ih, hhead]

/-- Reading what was written gives the number modulo what `n` bytes can hold. -/
theorem decode_encode (o : ByteOrder) (n v : Nat) : o.decode (o.encode n v) = v % 256 ^ n := by
  cases o with
  | little => exact ofLittleBytes_littleBytes n v
  | big =>
    rw [encode_big, decode_big, List.reverse_reverse]
    exact ofLittleBytes_littleBytes n v

/-- Writing what was read gives the same bytes. -/
theorem encode_decode (o : ByteOrder) (bytes : List UInt8) :
    o.encode bytes.length (o.decode bytes) = bytes := by
  cases o with
  | little => exact littleBytes_ofLittleBytes bytes
  | big =>
    have h := littleBytes_ofLittleBytes bytes.reverse
    rw [List.length_reverse] at h
    rw [encode_big, decode_big]
    exact (congrArg List.reverse h).trans bytes.reverse_reverse

theorem decode_lt (o : ByteOrder) (bytes : List UInt8) : o.decode bytes < 256 ^ bytes.length := by
  cases o with
  | little => exact ofLittleBytes_lt bytes
  | big =>
    rw [decode_big, ← List.length_reverse]
    exact ofLittleBytes_lt bytes.reverse

/-! ## Single bytes -/

theorem decode_singleton (o : ByteOrder) (b : UInt8) : o.decode [b] = b.toNat := by
  cases o with
  | little => exact Nat.add_zero _
  | big => exact Nat.shiftLeft_zero

theorem encode_one (o : ByteOrder) (n : Nat) : o.encode 1 n = [UInt8.ofNat n] := by
  cases o <;> rfl

/-! ## Conversion -/

theorem byteSwap_eq (n v : Nat) : byteSwap n v = ofBigBytes (littleBytes n v) := by
  induction n generalizing v with
  | zero => rfl
  | succ n ih => simp [byteSwap, littleBytes, ofBigBytes, ih]

/-- Conversion is reading, least significant byte first, what the order writes. -/
theorem convert_eq_decode_encode (o : ByteOrder) {n v : Nat} (h : v < 256 ^ n) :
    o.convert n v = decode little (o.encode n v) := by
  cases o with
  | little => exact (Nat.mod_eq_of_lt h).symm.trans (decode_encode little n v).symm
  | big =>
    rw [encode_big, ← decode_big]
    exact byteSwap_eq n v

theorem convert_lt (o : ByteOrder) {n v : Nat} (h : v < 256 ^ n) : o.convert n v < 256 ^ n := by
  have := decode_lt little (o.encode n v)
  rwa [length_encode, ← convert_eq_decode_encode o h] at this

/-- Conversion is its own inverse. -/
theorem convert_convert (o : ByteOrder) {n v : Nat} (h : v < 256 ^ n) :
    o.convert n (o.convert n v) = v := by
  have back : o.encode n (o.convert n v) = encode little n v := by
    cases o with
    | little => rfl
    | big =>
      have written := encode_decode little (encode big n v)
      rw [length_encode] at written
      rw [convert_eq_decode_encode big h, encode_big n (decode little _), written, encode_big,
        List.reverse_reverse]
  rw [convert_eq_decode_encode o (convert_lt o h), back, decode_encode, Nat.mod_eq_of_lt h]

/-- Bytes that are all zero hold zero. -/
theorem decode_replicate_zero (o : ByteOrder) (n : Nat) : o.decode (List.replicate n 0) = 0 := by
  induction n with
  | zero => cases o <;> rfl
  | succ n ih =>
      cases o with
      | little =>
          change 0 + 256 * ofLittleBytes (List.replicate n 0) = 0
          rw [show ofLittleBytes (List.replicate n 0) = 0 from ih]
      | big =>
          change 0 <<< _ + ofBigBytes (List.replicate n 0) = 0
          rw [show ofBigBytes (List.replicate n 0) = 0 from ih, Nat.zero_shiftLeft]

end ByteOrder

end MachineWord
