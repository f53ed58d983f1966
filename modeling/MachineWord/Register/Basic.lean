import MachineWord.Arithmetic.Operation
import MachineWord.Register.Query

/-!
# Registers

A register holds one value under its current view. A program for it is a list of steps that
ask about the value, replace it, or look at it under another view. Programs do not mention a
model, and neither do their answers, so the same program can be run in two models and the
answers compared. A step that fails leaves the register as it is.
-/

set_option autoImplicit false

namespace MachineWord

/-- What a value is made from. -/
inductive Seed where
  /-- Zero, which is also the default value and the reference to no object. -/
  | zero
  /-- All ones, which is also the largest address. -/
  | allOnes
  | int (n : Int32)
  | unsignedInt (n : Int32)
  | long (n : Int64)
  | bits (pattern : BitVec 64)
  deriving DecidableEq, Repr

/-- The value made from a seed. -/
def Seed.value {M : Model} {v : View} : Seed → Value M v
  | zero => .zero
  | allOnes => .allOnes
  | int n => .ofInt n
  | unsignedInt n => .ofUnsignedInt n
  | long n => .ofLong n
  | bits p => .ofBits p

/-- A value under its current view. -/
structure Register (M : Model) where
  view : View
  value : Value M view

namespace Register

/-- A way to replace the value. -/
inductive Edit where
  /-- A new value under a view. -/
  | set (view : View) (seed : Seed)
  /-- The same word under another view. -/
  | view (view : View)
  /-- The value taken to an untyped word and back. -/
  | rewrap
  | operate (op : Operation)
  deriving DecidableEq, Repr

/-- A step of a program. -/
inductive Step where
  | query (q : Query)
  | edit (e : Edit)
  deriving DecidableEq, Repr

variable {M : Model}

/-- The value as it is printed. -/
def text (r : Register M) : String := toString r.value

/-- A register with a new value. -/
def start (view : View) (seed : Seed) : Register M := ⟨view, seed.value⟩

/-- The register after its value has been replaced. -/
def replace (r : Register M) : Edit → Except StepError (Register M)
  | .set view seed => .ok (start view seed)
  | .view view => .ok ⟨view, r.value.as view⟩
  | .rewrap => .ok ⟨r.view, (r.value.as .word).as r.view⟩
  | .operate op =>
    match op.perform? r.value with
    | some (.ok value) => .ok ⟨r.view, value⟩
    | some (.error cause) => .error (.fault cause)
    | none => .error .notOffered

/-- The answer of a step and the register after it. -/
def step (r : Register M) : Step → Except StepError (Query.Answer × Register M)
  | .query q => (q.ask r.value).map (·, r)
  | .edit e => (r.replace e).map fun replaced => (.text replaced.text, replaced)

/-- The answers of a program and the register after it. -/
def run (r : Register M) : List Step → List (Except StepError Query.Answer) × Register M
  | [] => ([], r)
  | s :: rest =>
    match r.step s with
    | .ok (answer, next) =>
      let (answers, last) := next.run rest
      (.ok answer :: answers, last)
    | .error cause =>
      let (answers, last) := r.run rest
      (.error cause :: answers, last)

end Register

end MachineWord
