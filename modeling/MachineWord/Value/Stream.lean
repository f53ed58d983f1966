import MachineWord.ByteOrder
import MachineWord.Value.Basic

/-!
# Values in streams

A value is written as the bytes of its word in a byte order, and read back from exactly as
many bytes. Reading fails if fewer bytes are left.
-/

set_option autoImplicit false

namespace MachineWord

namespace Value

variable {M : Model} {v : View}

/-- The bytes of a value in a byte order. -/
def toBytes (o : ByteOrder) (x : Value M v) : List UInt8 := o.encode M.bytes x.bits.toNat

/-- The value whose bytes are given in a byte order. -/
def ofBytes (o : ByteOrder) (bytes : List UInt8) : Value M v :=
  ofBits (BitVec.ofNat 64 (o.decode bytes))

/-- The value at the front of a stream, and what follows it. -/
def read? (o : ByteOrder) (stream : List UInt8) : Option (Value M v × List UInt8) :=
  if M.bytes ≤ stream.length then
    some (ofBytes o (stream.take M.bytes), stream.drop M.bytes)
  else none

/-- A stream with a value appended. -/
def write (x : Value M v) (o : ByteOrder) (stream : List UInt8) : List UInt8 :=
  stream ++ x.toBytes o

end Value

end MachineWord
