import MachineWord.Memory.Basic

/-!
# Memory of the machine itself

Addresses are those of the machine that the program runs on. There is a byte at every
address, none is out of reach, and numbers are kept with the least significant byte first.
-/

set_option autoImplicit false

namespace MachineWord

/-- A byte at every 64 bit address. -/
structure HostMemory where
  byte : BitVec 64 → UInt8

namespace HostMemory

/-- A memory of zeros. -/
def zeros : HostMemory := ⟨fun _ => 0⟩

/-- The bytes at an address. -/
def bytesAt (m : HostMemory) (address : BitVec 64) (count : Nat) : List UInt8 :=
  (List.range count).map fun i => m.byte (address + BitVec.ofNat 64 i)

/-- The memory with bytes put at an address. -/
def put (m : HostMemory) (address : BitVec 64) (bytes : List UInt8) : HostMemory where
  byte a := bytes.getD (a - address).toNat (m.byte a)

/-- Compares and replaces a word. -/
def swap (m : HostMemory) (size : WordSize) (address : BitVec 64)
    (expected new : BitVec size.bits) : Except Fault (BitVec size.bits × HostMemory) := do
  checkSwapAddress size address
  let previous := BitVec.ofNat size.bits (ByteOrder.little.decode (m.bytesAt address size.bytes))
  if previous = expected then
    return (previous, m.put address (ByteOrder.little.encode size.bytes new.toNat))
  else return (previous, m)

instance : Memory HostMemory where
  order _ := .little
  load m address count := .ok (m.bytesAt address count)
  store m address bytes := .ok (m.put address bytes)
  swap := swap

instance : ToString HostMemory where
  toString _ := "NativeMemory"

end HostMemory

end MachineWord
