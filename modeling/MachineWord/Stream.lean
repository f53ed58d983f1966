import MachineWord.Value.Stream
import MachineWord.Value.Text

/-!
# Reading and writing streams

A program over a pair of streams reads values from the front of one and appends values to the
other. It ends with the first value that cannot be read. Nothing is said about the bytes that are
left to read then, some of which may have been taken.
-/

set_option autoImplicit false

namespace MachineWord

/-- The bytes that are left to read and the bytes written so far. -/
structure Streams where
  input : List UInt8
  output : List UInt8
  deriving DecidableEq, Repr

namespace Streams

/-- A step of a program over streams. -/
inductive Step where
  /-- Appends the value of a long. -/
  | write (order : ByteOrder) (n : Int64)
  | read (order : ByteOrder)
  deriving DecidableEq, Repr

/-- The answer of a step. -/
inductive Answer where
  /-- The bytes written so far. -/
  | written (output : List UInt8)
  /-- A value as text and as a long, and the number of bytes that are left. -/
  | value (text : String) (long : Int64) (left : Nat)
  /-- Too few bytes are left for a value. -/
  | unexpectedEnd
  deriving DecidableEq, Repr

variable (M : Model) (v : View)

/-- The answers of a program and the bytes written after it. -/
def run (s : Streams) : List Step → List Answer × List UInt8
  | [] => ([], s.output)
  | .write order n :: rest =>
    let output := (Value.ofLong n : Value M v).write order s.output
    let (answers, last) := run { s with output } rest
    (.written output :: answers, last)
  | .read order :: rest =>
    match (Value.read? order s.input : Option (Value M v × List UInt8)) with
    | some (x, input) =>
      let (answers, last) := run { s with input } rest
      (.value (toString x) x.toLong input.length :: answers, last)
    | none => ([.unexpectedEnd], s.output)

end Streams

end MachineWord
