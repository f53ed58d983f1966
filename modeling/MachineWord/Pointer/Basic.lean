import MachineWord.Address.Parse
import MachineWord.Arithmetic.Signed
import MachineWord.Index
import MachineWord.Memory.Region
import MachineWord.Scalar
import MachineWord.Value.Text

/-!
# Pointers

A pointer is an address together with the accesses to memory that start there. It does not
own the memory: each access is a computation on one. What an access reaches is decided by an
offset, added to the address modulo the number of words (`locate`). An element of an array is
reached by the offset `displacement + index * size`, computed without overflow (`scaled`).

A region hands out pointers to its bytes only if all its addresses fit into a word.
-/

set_option autoImplicit false

namespace MachineWord

/-- An address at which memory is accessed. -/
structure Pointer (M : Model) where
  address : Address M
  deriving DecidableEq

namespace Pointer

variable {M : Model} {μ : Type} [Memory μ]

/-- The pointer to an address as text. -/
def text (address : BitVec 64) : String := "^" ++ Numeral.hex address.toNat

instance : ToString (Pointer M) where
  toString p := text p.address.bits

/-- The offset of an element of an array that starts at a displacement. -/
def scaled (s : Scalar) (displacement index : Int32) : Offset M :=
  let size := Operand.index (UInt64.ofNat (s.bytes M))
  (Value.ofInt displacement : Offset M).add ((Value.ofInt index : Offset M).mul size).operand

/-- The address that an offset from the pointer reaches. -/
def locate (p : Pointer M) (offset : Offset M) : BitVec 64 := (p.address.add offset.operand).bits

/-- The pointer moved by a number of bytes. -/
def add (p : Pointer M) (y : Operand) : Pointer M := ⟨p.address.add y⟩

/-- The pointer moved back by a number of bytes. -/
def sub (p : Pointer M) (y : Operand) : Pointer M := ⟨p.address.sub y⟩

/-- The number of bytes in a number of words. -/
def wordOffset (M : Model) (n : Int32) : Offset M :=
  (Value.ofInt n : Offset M).mul (.wordBytes M)

/-- The pointer moved by a number of words. -/
def addWords (p : Pointer M) (n : Int32) : Pointer M := p.add (wordOffset M n).operand

/-- The pointer moved back by a number of words. -/
def subWords (p : Pointer M) (n : Int32) : Pointer M := p.sub (wordOffset M n).operand

/-! ## Typed accesses -/

/-- The value at an offset, in a given memory. -/
def fetch (memory : μ) (p : Pointer M) (s : Scalar) (offset : Offset M) :
    Except Fault (s.Carrier M) := do
  return s.decode M (← Memory.loadNat memory (s.bytes M) (p.locate offset))

/-- The element of an array that starts at a displacement, in a given memory. -/
def element (memory : μ) (p : Pointer M) (s : Scalar) (displacement index : Int32) :
    Except Fault (s.Carrier M) :=
  p.fetch memory s (scaled s displacement index)

/-- The value at an offset. -/
def read (p : Pointer M) (s : Scalar) (offset : Offset M) : Access μ (s.Carrier M) :=
  .query fun memory => p.fetch memory s offset

/-- Stores a value at an offset. -/
def write (p : Pointer M) (s : Scalar) (offset : Offset M) (value : s.Carrier M) :
    Access μ Unit :=
  .update fun memory =>
    Memory.storeNat memory (s.bytes M) (p.locate offset) (s.encode M value)

/-- The element of an array that starts at a displacement. -/
def get (p : Pointer M) (s : Scalar) (displacement index : Int32) : Access μ (s.Carrier M) :=
  p.read s (scaled s displacement index)

/-- Stores an element of an array that starts at a displacement. -/
def set (p : Pointer M) (s : Scalar) (displacement index : Int32) (value : s.Carrier M) :
    Access μ Unit :=
  p.write s (scaled s displacement index) value

/-- The element of the array that starts at the pointer. -/
def getAt (p : Pointer M) (s : Scalar) (index : Int32) : Access μ (s.Carrier M) := p.get s 0 index

/-- Stores an element of the array that starts at the pointer. -/
def setAt (p : Pointer M) (s : Scalar) (index : Int32) (value : s.Carrier M) : Access μ Unit :=
  p.set s 0 index value

/-- The value at the pointer. -/
def load (p : Pointer M) (s : Scalar) : Access μ (s.Carrier M) := p.getAt s 0

/-- Stores a value at the pointer. -/
def store (p : Pointer M) (s : Scalar) (value : s.Carrier M) : Access μ Unit := p.setAt s 0 value

/-! ## Swaps -/

/-- Replaces the int at an offset by a new one if it is the expected one. Answers the int that
was there. -/
def swapInt (p : Pointer M) (offset : Offset M) (expected new : Int32) : Access μ Int32 := do
  let previous ← Access.exchange fun memory : μ =>
    Memory.swap memory .w32 (p.locate offset) expected.toBitVec new.toBitVec
  return Int32.ofBitVec previous

/-- Replaces the word at an offset by a new one if it is the expected one. Answers the word
that was there. -/
def swapWord {v : View} (p : Pointer M) (offset : Offset M) (expected new : Value M v) :
    Access μ (Value M v) := do
  let previous ← Access.exchange fun memory : μ =>
    Memory.swap memory M.size (p.locate offset) (expected.bits.setWidth _) (new.bits.setWidth _)
  return .ofBits (previous.setWidth 64)

end Pointer

namespace Region

/-- A pointer to the byte at a distance from the base. -/
def pointer (M : Model) (r : Region) (distance : Nat) : Except Fault (Pointer M) :=
  if r.size ≠ 0 ∧ M.mask.toNat < r.stop.toNat - 1 then
    .error (.regionBeyondWords r.base.toNat r.stop.toNat M.bits)
  else if UInt64.size ≤ r.base.toNat + distance then .error .overflow
  else .ok ⟨.ofBits (r.base + BitVec.ofNat 64 distance)⟩

/-- A pointer to the first byte of a region. -/
def start (M : Model) (r : Region) : Except Fault (Pointer M) := r.pointer M 0

end Region

end MachineWord
