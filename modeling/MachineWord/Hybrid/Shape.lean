import MachineWord.Index
import MachineWord.Model

/-!
# Shapes of tails

The tail of a hybrid is an array of words that is also an array of ints. A shape says which
indices of a tail may be used: the first one is fixed, the last one depends on the length of
the tail. By default the ints are exactly those of the words that may be used, and their
indices are computed as plain ints, so they may overflow.
-/

set_option autoImplicit false

namespace MachineWord

/-- The indices that may be used in a tail. -/
structure TailShape where
  firstWord : Int32
  /-- The last word of a tail with a number of words. -/
  lastWord : Int32 → Int32
  firstInt : Except Fault Int32
  /-- The last int of a tail with a number of words. -/
  lastInt : Int32 → Except Fault Int32

namespace TailShape

/-- The first int of a word. -/
def firstIntOfWord (M : Model) (word : Int32) : Except Fault Int32 :=
  exactIndex (word.toInt * M.intsPerWord)

/-- The last int of a word. -/
def lastIntOfWord (M : Model) (word : Int32) : Except Fault Int32 := do
  let next ← exactIndex (word.toInt + 1)
  let afterLast ← exactIndex (next.toInt * M.intsPerWord)
  exactIndex (afterLast.toInt - 1)

/-- The shape whose ints are those of its words. -/
def ofWords (M : Model) (firstWord : Int32) (lastWord : Int32 → Int32) : TailShape where
  firstWord := firstWord
  lastWord := lastWord
  firstInt := firstIntOfWord M firstWord
  lastInt length := lastIntOfWord M (lastWord length)

end TailShape

end MachineWord
