import MachineWord.Model
import MachineWord.View

/-!
# Word values

A value is a canonical cell of a model under a view. It is determined by its pattern
(`ext_bits`), so equality of values is equality of patterns whatever the mode. Every value is
made by `ofBits`, which cuts a pattern off at the size of a word (`bits_ofBits`); the other
constructors extend a native integer to 64 bits first. Seen under another view a value keeps
its cell and with it its pattern (`bits_as`).

Values are ordered as the numbers they stand for: offsets as signed numbers, all others as
unsigned ones.
-/

set_option autoImplicit false

namespace MachineWord

/-- A word of a model under a view. -/
structure Value (M : Model) (v : View) where
  cell : M.Cell
  canonical : M.Canonical cell

/-- An untyped word. -/
abbrev Word (M : Model) := Value M .word

/-- A location in memory. -/
abbrev Address (M : Model) := Value M .address

/-- A signed displacement between addresses. -/
abbrev Offset (M : Model) := Value M .offset

/-- A number of bytes. -/
abbrev Size (M : Model) := Value M .size

/-- A reference to an object. The reference without any bit set refers to none. -/
abbrev Reference (M : Model) := Value M .reference

namespace Value

variable {M : Model} {v : View}

/-! ## Patterns and views -/

/-- The value with a pattern, cut off at the size of a word. -/
def ofBits (pattern : BitVec 64) : Value M v := ⟨M.encode pattern, M.canonical_encode pattern⟩

/-- The pattern of a value. -/
def bits (x : Value M v) : BitVec 64 := M.decode x.cell

/-- The same word under another view. -/
def as (u : View) (x : Value M v) : Value M u := ⟨x.cell, x.canonical⟩

@[simp] theorem bits_ofBits (pattern : BitVec 64) :
    (ofBits pattern : Value M v).bits = M.truncate pattern :=
  M.decode_encode pattern

@[simp] theorem bits_as (u : View) (x : Value M v) : (x.as u).bits = x.bits := rfl

/-- A value is determined by its pattern. -/
theorem ext_bits {x y : Value M v} (h : x.bits = y.bits) : x = y := by
  have cells : x.cell = y.cell := x.canonical ▸ y.canonical ▸ congrArg M.encode h
  cases x
  cases y
  cases cells
  rfl

theorem bits_inj {x y : Value M v} : x.bits = y.bits ↔ x = y :=
  ⟨ext_bits, fun h => h ▸ rfl⟩

@[simp] theorem ofBits_bits (x : Value M v) : ofBits x.bits = x :=
  ext_bits (bits_ofBits x.bits ▸ by
    have := congrArg M.decode x.canonical
    rwa [M.decode_encode] at this)

/-- The pattern of a value has no bit beyond the size of a word. -/
theorem truncate_bits (x : Value M v) : M.truncate x.bits = x.bits := by
  rw [← bits_ofBits (v := v), ofBits_bits]

instance : DecidableEq (Value M v) := fun _ _ => decidable_of_iff _ bits_inj

instance : Hashable (Value M v) where
  hash x := hash x.bits

/-! ## Native integers -/

/-- The value of an int, its sign extended to the size of a word. -/
def ofInt (n : Int32) : Value M v := ofBits (n.toBitVec.signExtend 64)

/-- The value of the 32 bits of an int, extended by zeros to the size of a word. -/
def ofUnsignedInt (n : Int32) : Value M v := ofBits (n.toBitVec.setWidth 64)

/-- The value of a long, cut off at the size of a word. -/
def ofLong (n : Int64) : Value M v := ofBits n.toBitVec

/-- The value without any bit set. -/
def zero : Value M v := ofBits 0

/-- The value with every bit of a word set. -/
def allOnes : Value M v := ofBits (BitVec.allOnes 64)

instance : Inhabited (Value M v) := ⟨zero⟩

/-- The low 32 bits as an int. -/
def toInt (x : Value M v) : Int32 := Int32.ofBitVec (x.bits.setWidth 32)

/-- The number that a value stands for, as a long. It is extended by its sign for signed
views and by zeros for all others. -/
def toLong (x : Value M v) : Int64 :=
  if v.isSigned then M.signExtend x.bits else Int64.ofBitVec x.bits

/-- Whether no bit is set. -/
def isZero (x : Value M v) : Bool := x.bits == 0

/-- Whether every bit of a word is set. -/
def isAllOnes (x : Value M v) : Bool := x.bits == M.mask

instance : Ord (Value M v) where
  compare x y :=
    if v.isSigned then compare x.toLong.toInt y.toLong.toInt
    else compare x.bits.toNat y.bits.toNat

end Value

/-! ## Values of single views -/

/-- Whether an address is that of an int, its sign extended. -/
def Address.equalsInt {M : Model} (x : Address M) (n : Int32) : Bool := x == .ofInt n

/-- Whether a reference is zero, which refers to no object. -/
def Reference.isNull {M : Model} (x : Reference M) : Bool := x.isZero

/-- A size as an index of the machine. -/
def Size.toIndex {M : Model} (x : Size M) : Nat := x.bits.toNat

end MachineWord
