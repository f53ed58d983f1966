import MachineWord.Pointer.Basic

/-!
# Heaps of tails

A heap gives out tails and reads and writes their words and ints. A tail is known by its
origin. The bump heap lays the tails out one after another in a region: a tail is its length
as a word, followed by its words.
-/

set_option autoImplicit false

namespace MachineWord

/-- A heap of tails. -/
class TailHeap (M : Model) (η : Type) where
  /-- Gives out a tail with a number of words. -/
  expand : (length : Int32) → Access η (Reference M)
  /-- The number of words of a tail. -/
  length : (origin : Reference M) → Access η Int32
  /-- The word at an index of a tail. -/
  getWord : (origin : Reference M) → (index : Int32) → Access η (Word M)
  /-- Stores a word at an index of a tail. -/
  setWord : (origin : Reference M) → (index : Int32) → (value : Word M) → Access η Unit
  /-- The int at an index of a tail. -/
  getInt : (origin : Reference M) → (index : Int32) → Access η Int32
  /-- Stores an int at an index of a tail. -/
  setInt : (origin : Reference M) → (index : Int32) → (value : Int32) → Access η Unit

/-- Tails one after another in a region. -/
structure BumpHeap where
  region : Region
  /-- The address of the next tail. -/
  next : BitVec 64

namespace BumpHeap

variable {M : Model} {α : Type}

/-- A heap without tails. -/
def empty (region : Region) : BumpHeap := ⟨region, region.base⟩

/-- An access to the region of a heap. -/
def inRegion (access : Access Region α) : Access BumpHeap α := fun heap =>
  match access heap.region with
  | .ok a region => .ok a { heap with region }
  | .error fault region => .error fault { heap with region }

/-- Takes a number of bytes from the heap. Nothing is taken if they do not lie in the
region. -/
def take (count : Nat) : Access BumpHeap (BitVec 64) := fun heap =>
  if heap.region.contains heap.next count then
    .ok heap.next { heap with next := heap.next + BitVec.ofNat 64 count }
  else .error .heapExhausted heap

/-- The pointer to a tail. -/
def tail (origin : Reference M) : Pointer M := ⟨origin.as .address⟩

/-- The distance of the first word of a tail from its origin. -/
def elements (M : Model) : Int32 := Int32.ofNat M.bytes

/-- The number of bytes of a tail with its length. -/
def tailBytes (M : Model) (length : Int32) : Nat := (length.toInt.toNat + 1) * M.bytes

/-- Gives out a tail with a number of words, which is not negative. -/
def expand (M : Model) (length : Int32) : Access BumpHeap (Reference M) := do
  let address ← take (tailBytes M length)
  let origin : Reference M := .ofBits address
  inRegion ((tail origin).write .word .zero (.ofInt length : Word M))
  return origin

/-- The number of words of a tail. -/
def length (origin : Reference M) : Access BumpHeap Int32 := do
  let held : Word M ← inRegion ((tail origin).read .word .zero)
  return held.toInt

instance (M : Model) : TailHeap M BumpHeap where
  expand := expand M
  length := length
  getWord origin index := inRegion ((tail origin).get .word (elements M) index)
  setWord origin index value := inRegion ((tail origin).set .word (elements M) index value)
  getInt origin index := inRegion ((tail origin).get .int (elements M) index)
  setInt origin index value := inRegion ((tail origin).set .int (elements M) index value)

end BumpHeap

end MachineWord
