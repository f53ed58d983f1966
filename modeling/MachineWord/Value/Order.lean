import MachineWord.Value.Basic

/-!
# Lists of values in order

Lists are sorted by the order of their view, neighbours are compared with each other, and
the distinct values of a list are counted.
-/

set_option autoImplicit false

namespace MachineWord

namespace Value

variable {M : Model} {v : View}

/-- The values in increasing order. -/
def sorted (values : List (Value M v)) : List (Value M v) :=
  values.mergeSort fun x y => (compare x y).isLE

/-- Each value compared with the next one. -/
def neighbours (values : List (Value M v)) : List Ordering :=
  List.zipWith compare values values.tail

/-- The values without repetitions. -/
def distinct : List (Value M v) → List (Value M v)
  | [] => []
  | x :: rest => if x ∈ rest then distinct rest else x :: distinct rest

end Value

end MachineWord
