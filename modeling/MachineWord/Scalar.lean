import MachineWord.Value.Basic

/-!
# Scalars and kinds

A scalar kind is a kind of value that memory can hold. It has a number of bytes in each
model and a type of values, and its values are coded as natural numbers. Floating point
numbers are kept as their bit patterns. A kind is a scalar kind or `void`, whose values have
no bytes.
-/

set_option autoImplicit false

namespace MachineWord

/-- A kind of value that memory can hold. -/
inductive Scalar where
  | boolean
  | byte
  | short
  | char
  | int
  | float
  | long
  | double
  | word
  | reference
  deriving DecidableEq, Repr

namespace Scalar

/-- The number of bytes of a kind in a model. -/
def bytes (M : Model) : Scalar → Nat
  | boolean => 1
  | byte => 1
  | short => 2
  | char => 2
  | int => 4
  | float => 4
  | long => 8
  | double => 8
  | word => M.bytes
  | reference => M.bytes

/-- The name of a kind. -/
def name : Scalar → String
  | boolean => "boolean"
  | byte => "byte"
  | short => "short"
  | char => "char"
  | int => "int"
  | float => "float"
  | long => "long"
  | double => "double"
  | word => "word"
  | reference => "reference"

/-- The values of a kind. -/
def Carrier (M : Model) : Scalar → Type
  | boolean => Bool
  | byte => Int8
  | short => Int16
  | char => UInt16
  | int => Int32
  | float => BitVec 32
  | long => Int64
  | double => BitVec 64
  | word => Word M
  | reference => Reference M

/-- The number that a value is coded as. -/
def encode (M : Model) : (s : Scalar) → s.Carrier M → Nat
  | boolean, b => Bool.toNat b
  | byte, n => (Int8.toBitVec n).toNat
  | short, n => (Int16.toBitVec n).toNat
  | char, n => UInt16.toNat n
  | int, n => (Int32.toBitVec n).toNat
  | float, p => BitVec.toNat p
  | long, n => (Int64.toBitVec n).toNat
  | double, p => BitVec.toNat p
  | word, x => (Value.bits x).toNat
  | reference, x => (Value.bits x).toNat

/-- The value that a number is the code of. -/
def decode (M : Model) : (s : Scalar) → Nat → s.Carrier M
  | boolean, n => (n != 0 : Bool)
  | byte, n => Int8.ofBitVec (BitVec.ofNat 8 n)
  | short, n => Int16.ofBitVec (BitVec.ofNat 16 n)
  | char, n => UInt16.ofNat n
  | int, n => Int32.ofBitVec (BitVec.ofNat 32 n)
  | float, n => BitVec.ofNat 32 n
  | long, n => Int64.ofBitVec (BitVec.ofNat 64 n)
  | double, n => BitVec.ofNat 64 n
  | word, n => (Value.ofBits (BitVec.ofNat 64 n) : Word M)
  | reference, n => (Value.ofBits (BitVec.ofNat 64 n) : Reference M)

variable (M : Model)

theorem bytes_pos (s : Scalar) : 0 < s.bytes M := by
  rcases M with ⟨_ | _, _⟩ <;> cases s <;> simp [bytes, Model.bytes, WordSize.bytes]

end Scalar

/-- A kind of value, with or without bytes in memory. -/
inductive Kind where
  | void
  | scalar (s : Scalar)
  deriving DecidableEq, Repr

namespace Kind

/-- The number of bytes of a kind in a model. -/
def bytes (M : Model) : Kind → Nat
  | void => 0
  | scalar s => s.bytes M

/-- The name of a kind. -/
def name : Kind → String
  | void => "void"
  | scalar s => s.name

instance : ToString Kind := ⟨name⟩

/-- The values of a kind. -/
def Carrier (M : Model) : Kind → Type
  | void => Unit
  | scalar s => s.Carrier M

end Kind

/-- An array of values of one scalar kind. -/
structure ScalarArray (M : Model) where
  kind : Scalar
  elements : Array (kind.Carrier M)

namespace ScalarArray

variable {M : Model}

/-- The number of elements. -/
def size (a : ScalarArray M) : Nat := a.elements.size

/-- An array as an array of scalars, unless its elements have no bytes. -/
def ofElements? : (k : Kind) → Array (k.Carrier M) → Option (ScalarArray M)
  | .void, _ => none
  | .scalar s, elements => some ⟨s, elements⟩

end ScalarArray

end MachineWord
