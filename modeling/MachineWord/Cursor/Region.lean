import MachineWord.Cursor.Basic

/-!
# Cursors in regions

A program for a cursor in a region may also ask about the region: where it is, whether it
contains some bytes, and for a dump of it.
-/

set_option autoImplicit false

namespace MachineWord

namespace Region

/-- What is said about a region. -/
structure Description where
  base : BitVec 64
  size : Nat
  stop : BitVec 64
  order : ByteOrder
  text : String
  deriving DecidableEq, Repr

/-- The description of a region. -/
def description (r : Region) : Description := ⟨r.base, r.size, r.stop, r.order, toString r⟩

/-- A step of a program. -/
inductive Step where
  | cursor (s : Cursor.Step)
  | describe
  | dump
  | contains (address : BitVec 64) (count : Nat)
  deriving DecidableEq, Repr

/-- The answer of a step. -/
inductive Answer where
  | cursor (a : Cursor.Answer)
  | description (d : Description)
  | text (s : String)
  | flag (b : Bool)
  deriving DecidableEq

variable {M : Model}

/-- The answer of a step and the cursor after it. -/
def step (c : Cursor M Region) : Step → Except StepError Answer × Cursor M Region
  | .cursor s =>
    let (answer, next) := c.step s
    (answer.map .cursor, next)
  | .describe => (.ok (.description c.memory.description), c)
  | .dump => ((c.memory.dump.map .text).mapError .fault, c)
  | .contains a count => (.ok (.flag (c.memory.contains a count)), c)

/-- The answers of a program and the cursor after it. -/
def run (c : Cursor M Region) : List Step → List (Except StepError Answer) × Cursor M Region
  | [] => ([], c)
  | s :: rest =>
    let (answer, next) := step c s
    let (answers, last) := run next rest
    (answer :: answers, last)

end Region

end MachineWord
