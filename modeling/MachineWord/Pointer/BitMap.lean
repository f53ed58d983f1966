import MachineWord.Pointer.Basic

/-!
# Bit maps

A bit map is an array of bytes. Bit `i` of the map is bit `i % 8` of byte `i / 8`. A single
bit is set by changing one byte. Eight bits in a row are or-ed into the map by changing one
byte, or two of them if the first bit is not the first one of a byte.
-/

set_option autoImplicit false

namespace MachineWord

namespace Pointer

variable {M : Model} {μ : Type} [Memory μ]

/-- Sets the bits of a mask in a byte of the array at the pointer. -/
def orByte (p : Pointer M) (index : Int32) (mask : BitVec 8) : Access μ Unit := do
  let held : Int8 ← p.getAt .byte index
  p.setAt .byte index (held ||| Int8.ofBitVec mask)

/-- Sets a bit of the map at the pointer. -/
def setMapBit (p : Pointer M) (bit : Nat) : Access μ Unit :=
  p.orByte (wrapIndex (bit / 8)) (BitVec.twoPow 8 (bit % 8))

/-- Ors eight bits into the map at the pointer, from a bit on. -/
def orMapBits (p : Pointer M) (bit : Nat) (mask : BitVec 8) : Access μ Unit := do
  let first := wrapIndex (bit / 8)
  let rest := bit % 8
  p.orByte first (mask <<< rest)
  if rest > 0 then
    match exactIndex (first.toInt + 1) with
    | .ok second => p.orByte second (mask >>> (8 - rest))
    | .error fault => .fail fault

end Pointer

end MachineWord
