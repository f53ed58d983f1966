import Mathlib
import MachineWord.ByteOrder.Lemmas

/-!
# Slices of the bytes of a number

A run of some bytes among those of a number holds a slice of the number. What the slice is
depends on how many of the other bytes count less: the bytes in front of the run if the least
significant byte comes first, and the bytes behind it otherwise (`decode_take_drop`). If the
bytes of a number are divided into parts of equal length, each part is made of the bytes of one
slice (`encode_part`).
-/

set_option autoImplicit false

namespace MachineWord

namespace ByteOrder

/-- The number of bytes that count less than a run of bytes, among a total of bytes. -/
def below : (order : ByteOrder) → (total start count : Nat) → Nat
  | little, _, start, _ => start
  | big, total, start, count => total - start - count

theorem ofLittleBytes_append (front back : List UInt8) :
    ofLittleBytes (front ++ back) =
      ofLittleBytes front + 256 ^ front.length * ofLittleBytes back := by
  induction front with
  | nil => simp [ofLittleBytes]
  | cons b rest ih =>
      rw [List.cons_append, ofLittleBytes, ofLittleBytes, ih, List.length_cons, pow_succ]
      ring

/-- Without the bytes in front a number is divided. -/
theorem ofLittleBytes_drop (bytes : List UInt8) {start : Nat} (fits : start ≤ bytes.length) :
    ofLittleBytes (bytes.drop start) = ofLittleBytes bytes / 256 ^ start := by
  have front := ofLittleBytes_lt (bytes.take start)
  have parts := ofLittleBytes_append (bytes.take start) (bytes.drop start)
  rw [List.take_append_drop] at parts
  rw [List.length_take_of_le fits] at front parts
  rw [parts, Nat.add_mul_div_left _ _ (by positivity), Nat.div_eq_of_lt front, Nat.zero_add]

/-- Without the bytes behind a number leaves a remainder. -/
theorem ofLittleBytes_take (bytes : List UInt8) {count : Nat} (fits : count ≤ bytes.length) :
    ofLittleBytes (bytes.take count) = ofLittleBytes bytes % 256 ^ count := by
  have front := ofLittleBytes_lt (bytes.take count)
  have parts := ofLittleBytes_append (bytes.take count) (bytes.drop count)
  rw [List.take_append_drop] at parts
  rw [List.length_take_of_le fits] at front parts
  rw [parts, Nat.add_mul_mod_self_left, Nat.mod_eq_of_lt front]

/-- A run of bytes holds a slice of the number that all bytes hold. -/
theorem decode_take_drop (order : ByteOrder) {bytes : List UInt8} {start count : Nat}
    (fits : start + count ≤ bytes.length) :
    order.decode ((bytes.drop start).take count) =
      order.decode bytes / 256 ^ order.below bytes.length start count % 256 ^ count := by
  have little (some : List UInt8) {first : Nat} (fits : first + count ≤ some.length) :
      ofLittleBytes ((some.drop first).take count) =
        ofLittleBytes some / 256 ^ first % 256 ^ count := by
    rw [ofLittleBytes_take _ (by rw [List.length_drop]; omega), ofLittleBytes_drop _ (by omega)]
  cases order with
  | little => exact little bytes fits
  | big =>
      have mirrored : ((bytes.drop start).take count).reverse =
          (bytes.reverse.drop (bytes.length - start - count)).take count := by
        rw [List.reverse_take, List.reverse_drop, List.length_drop, List.drop_take]
        congr 1
        omega
      rw [decode_big, mirrored, decode_big]
      exact little bytes.reverse (by rw [List.length_reverse]; omega)

/-! ## Parts of equal length -/

/-- The slice of a number of `total` bytes that is held by part `j` of them, each part being
`count` bytes long. -/
def part : (order : ByteOrder) → (total count j v : Nat) → Nat
  | little, _, count, j, v => v >>> (8 * (count * j)) % 2 ^ (8 * count)
  | big, total, count, j, v => v >>> (8 * (total - count * (j + 1))) % 2 ^ (8 * count)

theorem part_eq (order : ByteOrder) (total count j v : Nat) :
    order.part total count j v =
      v / 256 ^ order.below total (count * j) count % 256 ^ count := by
  have bytes : 2 ^ (8 * count) = 256 ^ count := pow_mul 2 8 count
  cases order with
  | little => rw [part, shiftRight_bytes, bytes, below]
  | big => rw [part, shiftRight_bytes, bytes, below, Nat.sub_sub, Nat.mul_succ]

/-- The bytes of a slice are a part of the bytes of the number. -/
theorem encode_part (order : ByteOrder) {total count j v : Nat}
    (fits : count * j + count ≤ total) (small : v < 256 ^ total) :
    order.encode count (order.part total count j v) =
      ((order.encode total v).drop (count * j)).take count := by
  have run : count * j + count ≤ (order.encode total v).length := by rwa [length_encode]
  have length : (((order.encode total v).drop (count * j)).take count).length = count := by
    rw [List.length_take, List.length_drop]
    omega
  have written := order.encode_decode (((order.encode total v).drop (count * j)).take count)
  rw [length, order.decode_take_drop run, decode_encode, length_encode, Nat.mod_eq_of_lt small,
    ← part_eq] at written
  exact written

end ByteOrder

end MachineWord
