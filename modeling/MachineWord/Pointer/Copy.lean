import MachineWord.Memory.Dump
import MachineWord.Pointer.Basic

/-!
# Copies out of memory

Elements of an array in memory are copied one by one into an array of the program. The
elements copied before one that cannot be read stay copied. Values without bytes are not
copied at all. A dump of bytes is copied in the same way, as text.
-/

set_option autoImplicit false

namespace MachineWord

/-- A cause for which elements are not copied. -/
inductive CopyError where
  /-- The elements have no bytes in memory. -/
  | invalidKind (kind : Kind)
  | fault (cause : Fault)
  deriving DecidableEq, Repr

/-- The wording of a cause. -/
def CopyError.message : CopyError → String
  | invalidKind kind => s!"Invalid element kind {kind} for bulk copy"
  | fault cause => cause.message

namespace Pointer

variable {M : Model} {μ : Type} [Memory μ]

/-- The element at a distance from the first one that is copied. -/
def elementFrom (memory : μ) (p : Pointer M) (s : Scalar) (displacement first : Int32)
    (i : Nat) : Except Fault (s.Carrier M) := do
  p.element memory s displacement (← exactIndex (first.toInt + (wrapIndex i).toInt))

/-- Copies a number of elements, of which `i` have been copied already. The array answered is
the one after the copy, or the one at the first fault. -/
def copyFrom (memory : μ) (p : Pointer M) (s : Scalar) (displacement first : Int32)
    (target : Nat) : (i count : Nat) → Array (s.Carrier M) → Array (s.Carrier M) × Option Fault
  | _, 0, dst => (dst, none)
  | i, count + 1, dst =>
    match p.elementFrom memory s displacement first i with
    | .ok value =>
      copyFrom memory p s displacement first target (i + 1) count
        (dst.setIfInBounds (target + i) value)
    | .error fault => (dst, some fault)

/-- Copies elements of an array that starts at a displacement into an array of the program. -/
def copyScalars (memory : μ) (p : Pointer M) (s : Scalar) (displacement first : Int32)
    (target count : Nat) (dst : Array (s.Carrier M)) : Array (s.Carrier M) × Option Fault :=
  if UInt64.size ≤ target + count then (dst, some .overflow)
  else if dst.size < target + count then (dst, some .sliceRange)
  else copyFrom memory p s displacement first target 0 count dst

/-- Copies elements of any kind. -/
def copyElements (memory : μ) (p : Pointer M) (displacement first : Int32)
    (target count : Nat) :
    (k : Kind) → Array (k.Carrier M) → Array (k.Carrier M) × Option CopyError
  | .void, dst => (dst, some (.invalidKind .void))
  | .scalar s, dst =>
    let (filled, fault) := copyScalars memory p s displacement first target count dst
    (filled, fault.map .fault)

/-! ## Dumps -/

/-- A number of bytes of the array at the pointer, from an index on. -/
def bytesFrom (memory : μ) (p : Pointer M) : (index count : Nat) → Except Fault (List UInt8)
  | _, 0 => .ok []
  | index, count + 1 => do
    let held : Int8 ← p.element memory .byte 0 (wrapIndex index)
    return held.toUInt8 :: (← bytesFrom memory p (index + 1) count)

/-- A dump of the bytes at the pointer. Their number is taken into an int, and none are shown
if it is negative. -/
def dump (memory : μ) (p : Pointer M) (count : Nat) : Except Fault String := do
  return toString p ++ ":" ++
    dumpBytes (← p.bytesFrom memory 0 (wrapIndex count).toInt.toNat)

end Pointer

end MachineWord
