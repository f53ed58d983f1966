import MachineWord.Scalar
import MachineWord.Value.Text

/-!
# Scalars apart from a model

A value of a scalar kind is given by a pattern of 64 bits, of which it takes the low ones.
What is shown of a value is a datum, which mentions no model either: words and references are
shown as they are printed.
-/

set_option autoImplicit false

namespace MachineWord

/-- What is shown of a scalar. -/
inductive Datum where
  | flag (b : Bool)
  /-- A number of at most 32 bits. -/
  | number (n : Int)
  /-- A number of 64 bits. -/
  | long (n : Int)
  | float (pattern : BitVec 32)
  | double (pattern : BitVec 64)
  | text (s : String)
  /-- The value without bytes. -/
  | unit
  deriving DecidableEq, Repr

namespace Scalar

/-- The value of a kind whose code is the low bytes of a pattern. -/
def ofPattern (M : Model) (s : Scalar) (pattern : BitVec 64) : s.Carrier M :=
  s.decode M (pattern.setWidth (8 * s.bytes M)).toNat

/-- What is shown of a value. -/
def datum (M : Model) : (s : Scalar) → s.Carrier M → Datum
  | boolean, b => .flag b
  | byte, n => .number (Int8.toInt n)
  | short, n => .number (Int16.toInt n)
  | char, n => .number (UInt16.toNat n)
  | int, n => .number (Int32.toInt n)
  | float, p => .float p
  | long, n => .long (Int64.toInt n)
  | double, p => .double p
  | word, x => .text (Value.text x)
  | reference, x => .text (Value.text x)

end Scalar

namespace Kind

/-- The value of a kind whose code is the low bytes of a pattern. -/
def ofPattern (M : Model) : (k : Kind) → BitVec 64 → k.Carrier M
  | void, _ => ()
  | scalar s, pattern => s.ofPattern M pattern

/-- What is shown of a value. -/
def datum (M : Model) : (k : Kind) → k.Carrier M → Datum
  | void, _ => .unit
  | scalar s, x => s.datum M x

end Kind

end MachineWord
