import MachineWord.ByteOrder
import MachineWord.Fault
import MachineWord.Model

/-!
# Memory

A memory holds bytes at 64 bit addresses. It loads and stores runs of bytes, has a byte order
in which numbers are kept, and replaces a word in one step if it has an expected value. Each
operation either answers or names a fault.

An access is a computation that may read and change a memory and may fail. What it has
changed before it fails stays changed, which is why the state is kept beside a fault.
-/

set_option autoImplicit false

namespace MachineWord

/-- Bytes at 64 bit addresses. -/
class Memory (μ : Type) where
  /-- The order of the bytes of a number. -/
  order : μ → ByteOrder
  /-- The bytes at an address. -/
  load : μ → (address : BitVec 64) → (count : Nat) → Except Fault (List UInt8)
  /-- The memory with bytes stored at an address. -/
  store : μ → (address : BitVec 64) → (bytes : List UInt8) → Except Fault μ
  /-- The word at an address, and the memory in which it has been replaced by the new one if
  it was the expected one. -/
  swap : μ → (size : WordSize) → (address : BitVec 64) → (expected new : BitVec size.bits) →
    Except Fault (BitVec size.bits × μ)

/-- A swap refuses an address that is not a multiple of the number of bytes swapped. -/
def checkSwapAddress (size : WordSize) (address : BitVec 64) : Except Fault Unit :=
  if address.toNat % size.bytes = 0 then .ok ()
  else .error (.unalignedSwap size.bits address.toNat)

/-- A computation on a memory that may fail and keeps what it has changed until then. -/
abbrev Access (μ : Type) := EStateM Fault μ

namespace Access

variable {μ α : Type}

/-- Fails without a change. -/
def fail (fault : Fault) : Access μ α := fun memory => .error fault memory

/-- An answer that does not change the memory. -/
def query (answer : μ → Except Fault α) : Access μ α := fun memory =>
  match answer memory with
  | .ok a => .ok a memory
  | .error fault => .error fault memory

/-- A change of the memory that is made as a whole or not at all. -/
def update (change : μ → Except Fault μ) : Access μ Unit := fun memory =>
  match change memory with
  | .ok changed => .ok () changed
  | .error fault => .error fault memory

/-- An answer together with a change that is made as a whole or not at all. -/
def exchange (step : μ → Except Fault (α × μ)) : Access μ α := fun memory =>
  match step memory with
  | .ok (a, changed) => .ok a changed
  | .error fault => .error fault memory

end Access

namespace Memory

variable {μ : Type} [Memory μ]

/-- The number in the bytes at an address. -/
def loadNat (memory : μ) (count : Nat) (address : BitVec 64) : Except Fault Nat := do
  return (order memory).decode (← load memory address count)

/-- The memory with the low bytes of a number stored at an address. -/
def storeNat (memory : μ) (count : Nat) (address : BitVec 64) (n : Nat) : Except Fault μ :=
  store memory address ((order memory).encode count n)

end Memory

end MachineWord
