import MachineWord.Cursor.Basic
import MachineWord.Memory.Host

/-!
# Cursors in buffers of the machine

A buffer is a number of bytes in the memory of the machine, all zero at first. Nothing keeps
an access within the buffer. The place of a pointer is given as its signed distance from the
first byte, so that it does not depend on where the buffer lies.
-/

set_option autoImplicit false

namespace MachineWord

/-- Some bytes of the memory of the machine. -/
structure HostBuffer where
  memory : HostMemory
  base : BitVec 64
  size : Nat

namespace HostBuffer

/-- A buffer of zeros. -/
def zeros (base : BitVec 64) (size : Nat) : HostBuffer := ⟨.zeros, base, size⟩

/-- An address at which a buffer may lie. -/
def anyBase : BitVec 64 := 0x10000

instance : Block HostBuffer where
  order b := Memory.order b.memory
  load b := Memory.load b.memory
  store b address bytes := do
    return { b with memory := ← Memory.store b.memory address bytes }
  swap b size address expected new := do
    let (previous, memory) ← Memory.swap b.memory size address expected new
    return (previous, { b with memory })
  pointer _ b distance := .ok ⟨.ofBits (b.base + BitVec.ofNat 64 distance)⟩
  snapshot b := Memory.load b.memory b.base b.size

/-- The signed distance of an address from the first byte of a buffer. -/
def distance (b : HostBuffer) (address : BitVec 64) : Int := (address - b.base).toInt

instance : ToString HostBuffer where
  toString b := toString b.memory

end HostBuffer

end MachineWord
