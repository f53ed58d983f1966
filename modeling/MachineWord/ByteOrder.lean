/-!
# Byte orders

A number is held by a fixed number of bytes, either with its least or with its most
significant byte first. Each order has a writer and a reader of its own, defined by
recursion on the number of bytes and on the bytes. `convert` exchanges the value of a cell of
a machine that keeps the least significant byte first with the value whose bytes it holds in
a given order.
-/

set_option autoImplicit false

namespace MachineWord

/-- The order in which the bytes of a number follow each other. -/
inductive ByteOrder where
  | little
  | big
  deriving DecidableEq, Repr

namespace ByteOrder

/-- The name of a byte order. -/
def name : ByteOrder → String
  | little => "Little"
  | big => "Big"

/-- The low `n` bytes of a number, least significant byte first. -/
def littleBytes : Nat → Nat → List UInt8
  | 0, _ => []
  | n + 1, v => UInt8.ofNat v :: littleBytes n (v / 256)

/-- The low `n` bytes of a number, most significant byte first. -/
def bigBytes : Nat → Nat → List UInt8
  | 0, _ => []
  | n + 1, v => UInt8.ofNat (v >>> (8 * n)) :: bigBytes n v

/-- The number whose bytes are given, least significant byte first. -/
def ofLittleBytes : List UInt8 → Nat
  | [] => 0
  | b :: rest => b.toNat + 256 * ofLittleBytes rest

/-- The number whose bytes are given, most significant byte first. -/
def ofBigBytes : List UInt8 → Nat
  | [] => 0
  | b :: rest => b.toNat <<< (8 * rest.length) + ofBigBytes rest

/-- The low `n` bytes of a number in a byte order. -/
def encode : ByteOrder → Nat → Nat → List UInt8
  | little => littleBytes
  | big => bigBytes

/-- The number that bytes hold in a byte order. -/
def decode : ByteOrder → List UInt8 → Nat
  | little => ofLittleBytes
  | big => ofBigBytes

/-- The low `n` bytes of a number in the opposite order, as a number. -/
def byteSwap : Nat → Nat → Nat
  | 0, _ => 0
  | n + 1, v => (v % 256) <<< (8 * n) + byteSwap n (v / 256)

/-- Exchanges the value of an `n` byte cell, least significant byte first, with the value
that the same bytes hold in the given order. -/
def convert : ByteOrder → Nat → Nat → Nat
  | little, _, v => v
  | big, n, v => byteSwap n v

/-! ## Lengths -/

@[simp] theorem length_littleBytes (n v : Nat) : (littleBytes n v).length = n := by
  induction n generalizing v with
  | zero => rfl
  | succ n ih => simp [littleBytes, ih]

@[simp] theorem length_bigBytes (n v : Nat) : (bigBytes n v).length = n := by
  induction n with
  | zero => rfl
  | succ n ih => simp [bigBytes, ih]

@[simp] theorem length_encode (o : ByteOrder) (n v : Nat) : (o.encode n v).length = n := by
  cases o with
  | little => exact length_littleBytes n v
  | big => exact length_bigBytes n v

end ByteOrder

end MachineWord
