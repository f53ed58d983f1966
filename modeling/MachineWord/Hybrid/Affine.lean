import MachineWord.Hybrid.Basic

/-!
# Numbered fields

The simplest fields that decide the shape of a tail are a number, by which a hybrid is told
from others, and the indices that may be used. The last word that may be used lies at a fixed
distance from the length of the tail. The ints are those of the words, or are given.
-/

set_option autoImplicit false

namespace MachineWord

/-- The indices that may be used in a tail, the last one relative to its length. -/
structure AffineShape where
  first : Int32
  /-- The distance of the last word from the length. -/
  delta : Int32
  /-- The first and the last int, unless they are those of the words. -/
  ints : Option (Int32 × Int32)
  deriving DecidableEq, Repr

/-- The shape of a tail. -/
def AffineShape.tail (M : Model) (s : AffineShape) : TailShape :=
  let byWords := TailShape.ofWords M s.first fun length => length + s.delta
  match s.ints with
  | none => byWords
  | some (first, last) => { byWords with firstInt := .ok first, lastInt := fun _ => .ok last }

/-- A number and the shape of a tail. -/
structure NumberedFields where
  id : Int
  shape : AffineShape
  deriving DecidableEq, Repr

instance : ToString NumberedFields where
  toString f := s!"F{f.id}"

instance (M : Model) : TailFields M NumberedFields where
  shape f := f.shape.tail M

end MachineWord
