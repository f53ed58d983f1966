import MachineWord.Numeral
import MachineWord.View

/-!
# Faults

A fault is the cause for which an operation refuses its arguments. Its wording is that of
`Fault.message` and is decided nowhere else.
-/

set_option autoImplicit false

namespace MachineWord

/-- A cause for which an operation refuses its arguments. -/
inductive Fault where
  /-- The divisor is zero in the width of a word. -/
  | divisionByZero (view : View)
  /-- The alignment, cut off at the size of a word, is not a power of two. -/
  | alignment (view : View) (alignment : Nat)
  /-- There is no bit at the index. -/
  | bitIndex (view : View) (index bits : Nat)
  /-- Numerals of the radix are not supported. -/
  | radix (view : View) (radix : Nat)
  /-- A swap needs an address that is a multiple of its number of bytes. -/
  | unalignedSwap (bits address : Nat)
  /-- A region starts at a multiple of eight. -/
  | regionBase (base : Nat)
  /-- A region ends within the 64 bit address space. -/
  | regionExceeds (size base : Nat)
  /-- The cells of a region are more than the machine can hold. -/
  | regionCapacity
  /-- The addresses of a region do not all fit into a word. -/
  | regionBeyondWords (base stop bits : Nat)
  /-- The bytes accessed do not lie within the region. -/
  | outside (count address base stop : Nat)
  /-- A hybrid is expanded once. -/
  | alreadyExpanded
  /-- The length of a tail is not negative. -/
  | negativeLength (length : Int)
  /-- An unexpanded hybrid has no tail. -/
  | unexpanded
  /-- The word index is not one of the tail. -/
  | wordIndex (index first last : Int)
  /-- The int index is not one of the tail. -/
  | intIndex (index first last : Int)
  /-- There is no room for another tail. -/
  | heapExhausted
  /-- The exact result of plain integer arithmetic does not fit its type. -/
  | overflow
  /-- The range of elements is not one of the array. -/
  | sliceRange
  deriving DecidableEq, Repr

namespace Fault

open Numeral (hexLiteral)

/-- A range of addresses, its end excluded. -/
def spanText (base stop : Nat) : String := hexLiteral base ++ ".." ++ hexLiteral stop

/-- The wording of a fault. -/
def message : Fault → String
  | divisionByZero view => view.name ++ ": division by zero"
  | alignment view n => s!"{view.name}: alignment {n} is not a power of two"
  | bitIndex view i bits => s!"{view.name}: bit index {i} out of range for {bits} bit words"
  | radix view r => s!"{view.name}: unsupported radix {r}"
  | unalignedSwap bits a => s!"MEMORY: unaligned {bits} bit compare-and-swap at {hexLiteral a}"
  | regionBase base => s!"REGION: base {hexLiteral base} is not 8-byte aligned"
  | regionExceeds size base =>
    s!"REGION: {size} bytes at {hexLiteral base} exceed the address space"
  | regionCapacity => "capacity overflow"
  | regionBeyondWords base stop bits =>
    s!"REGION: {spanText base stop} exceeds {bits} bit addresses"
  | outside count a base stop =>
    s!"REGION: access of {count} bytes at {hexLiteral a} outside {spanText base stop}"
  | alreadyExpanded => "HYBRID: already expanded"
  | negativeLength n => s!"HYBRID: negative length {n}"
  | unexpanded => "HYBRID: access to the tail of an unexpanded hybrid"
  | wordIndex i first last => s!"HYBRID: word index {i} out of range {first}..={last}"
  | intIndex i first last => s!"HYBRID: int index {i} out of range {first}..={last}"
  | heapExhausted => "test heap exhausted"
  | overflow => "arithmetic overflow"
  | sliceRange => "range beyond the array"

end Fault

end MachineWord
